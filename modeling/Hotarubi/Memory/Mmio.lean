import Hotarubi.Include.List
import Hotarubi.Memory.Virtmm

/-! The manager of I/O memory and port regions: resources in a tree whose links
are the list nodes inside the resources, and the window in which the virtual
memory manager maps them. A result of `none` is an access through
a null pointer, or more passes than `limit` allows. -/

namespace Hotarubi.Memory.Mmio
open Base Include

abbrev Flags := UInt32

def kBusy : Flags := (1 : UInt32) <<< 0
def kShared : Flags := (1 : UInt32) <<< 4
def kMapped : Flags := (1 : UInt32) <<< 5
def kIOPort : Flags := (1 : UInt32) <<< 6
def kIOMem : Flags := (1 : UInt32) <<< 7

def flagSet (a b : Flags) : Bool := a &&& b != 0

/-- A `resource_t`: one of the two static roots, or what `new` returned. -/
inductive Rid where
  | memRoot
  | portRoot
  | heap (addr : Nat)
  deriving DecidableEq, Repr

/-- The list nodes inside a resource. -/
inductive Link where
  | siblings (r : Rid)
  | children (r : Rid)
  deriving DecidableEq, Repr

/-- `struct resource` without its name and its list nodes. `range` is the end. -/
structure Resource where
  start : PhysAddr
  range : PhysAddr
  flags : Flags
  refcount : UInt32
  parent : Option Rid
  deriving DecidableEq, Repr

structure State where
  resource : Rid → Resource
  links : Links Link

/-- The static initialisers of both roots. -/
def boot : State where
  resource
    | .memRoot => ⟨0, 0xffffffff, kIOMem, 1, none⟩
    | .portRoot => ⟨0, 0xffff, kIOPort, 1, none⟩
    | .heap _ => ⟨0, 0, 0, 0, none⟩
  links := ⟨fun _ => none, fun _ => none⟩

def init (s : State) : State :=
  { s with links := initList (initList s.links (.children .memRoot)) (.children .portRoot) }

def State.setResource (s : State) (r : Rid) (value : Resource) : State :=
  { s with resource := Function.update s.resource r value }

def State.setParent (s : State) (r : Rid) (parent : Option Rid) : State :=
  s.setResource r { s.resource r with parent }

def State.setRefcount (s : State) (r : Rid) (refcount : UInt32) : State :=
  s.setResource r { s.resource r with refcount }

/-- `LIST_ENTRY( ptr, struct resource, siblings )` where `ptr` lies in a resource. -/
def entry : Link → Option Rid
  | .siblings r => some r
  | .children _ => none

/-- `LIST_ENTRY( ptr, struct resource, siblings )->start`. For the head of a
parent's list these are the eight bytes of its `flags` and `refcount`. -/
def State.startAt (s : State) : Link → PhysAddr
  | .siblings r => (s.resource r).start
  | .children r => (s.resource r).flags.toUInt64 ||| (s.resource r).refcount.toUInt64 <<< 32

/-- `_check_resource` and `_find_shared` walk the tree alike: a resource that
passes the test is the answer itself, and a hit further down is answered with
the child on the way to it. -/
def walkResources (limit : Nat) (s : State) (test : Resource → Bool) : Nat → Rid → Option (Option Rid)
  | 0, _ => none
  | depth + 1, root =>
    if test (s.resource root) then some (some root)
    else search s.links (.children root) (fun ptr => do
      let child ← entry ptr
      let hit ← walkResources limit s test depth child
      some (hit.map fun _ => child)) limit

/-- The three tests of `_check_resource` on one resource. -/
def conflicts (start range : PhysAddr) (n : Resource) : Bool :=
  (start < n.start && range > n.start) || (start < n.range && range > n.range) ||
    (start ≥ n.start && range ≤ n.range && flagSet n.flags kBusy)

def checkResource (limit : Nat) (s : State) (root : Rid) (start range : PhysAddr) : Option (Option Rid) :=
  walkResources limit s (conflicts start range) limit root

def matchesShared (start range : PhysAddr) (n : Resource) : Bool :=
  start = n.start && range = n.range && flagSet n.flags kShared

def findShared (limit : Nat) (s : State) (root : Rid) (start range : PhysAddr) : Option (Option Rid) :=
  walkResources limit s (matchesShared start range) limit root

def possibleSibling (root next : Resource) : Bool := next.range < root.start || next.start > root.range

/-- The result `some none` is `false`, which leaves everything as it was. -/
def addNested (limit : Nat) (s : State) (child : Rid) : Nat → Rid → Option (Option State)
  | 0, _ => none
  | depth + 1, root =>
    if possibleSibling (s.resource root) (s.resource child) then do
      let later ← search s.links (.siblings root) (fun ptr =>
        some (if s.startAt ptr > (s.resource child).start then some ptr else none)) limit
      let links ← match later with
        | some sibling => listAddTail s.links sibling (.siblings child)
        | none =>
          if (s.resource root).start > (s.resource child).start then
            listAddTail s.links (.siblings root) (.siblings child)
          else listAdd s.links (.siblings root) (.siblings child)
      some (some (State.setParent { s with links } child (s.resource root).parent))
    else if listEmpty s.links (.children root) then do
      let links ← listAdd s.links (.children root) (.siblings child)
      some (some (State.setParent { s with links } child (some root)))
    else search s.links (.children root) (fun ptr => do
      let next ← entry ptr
      addNested limit s child depth next) limit

def requestResource (limit : Nat) (s : State) (root request : Rid) : Option (Option Rid × State) := do
  let collision ← checkResource limit s root (s.resource request).start (s.resource request).range
  match collision with
  | some hit => some (some hit, s)
  | none =>
    match ← addNested limit s request limit root with
    | some s => some (some request, s)
    | none => some (none, s)

def releaseResource (limit : Nat) (s : State) (region : Rid) : Option State :=
  match (s.resource region).parent with
  | none => some s
  | some parent =>
    if (s.resource region).refcount < 2 then do
      let s ← if listEmpty s.links (.siblings region) then some s else do
        let s ← visit s.links (.children region) (fun s ptr => do
          let child ← entry ptr
          some (s.setParent child (some parent))) limit s
        let links ← listSplice s.links (.children region) (.siblings region)
        some { s with links }
      let links ← listDel s.links (.siblings region)
      some (State.setRefcount { s with links } region 0)
    else some (s.setRefcount region ((s.resource region).refcount - 1))

/-- The fields `request_region` sets in a new resource (KERNEL build); `parent` is not among them. -/
def newResource (s : State) (request : Rid) (start range : PhysAddr) (flags : Flags) : State where
  resource := Function.update s.resource request
    ⟨start, range, flags &&& ~~~kMapped, 1, (s.resource request).parent⟩
  links := initList (clearLinks s.links (.siblings request)) (.children request)

def rootFor (flags : Flags) : Rid := if flagSet flags kIOPort then .portRoot else .memRoot

/-- `request_region`, where `new` returns `request`. -/
def requestRegion (limit : Nat) (s : State) (start size : UInt64) (flags : Flags) (request : Rid) :
    Option (Option Rid × State) := do
  let root := rootFor flags
  let shared ← if flagSet flags kShared then findShared limit s root start (start + size) else some none
  match shared with
  | some hit => some (some hit, s.setRefcount hit ((s.resource hit).refcount + 1))
  | none =>
    let (answer, s) ← requestResource limit (newResource s request start (start + size) flags) root request
    some (if answer = some request then some request else none, s)

/-- `release_region`: the handle afterwards, `nullptr` once the region is deleted. -/
def releaseRegion (limit : Nat) (s : State) (region : Rid) : Option (Option Rid × State) := do
  let s ← releaseResource limit s region
  some (if (s.resource region).refcount = 0 then none else some region, s)

section Activation
variable {σ : Type} (pages : Virtmm.PageSource σ)

/-- The loop up the tree: whether the region or one above it is marked as mapped. -/
def mappedAbove (s : State) : Nat → Rid → Option Bool
  | 0, _ => none
  | depth + 1, tmp =>
    if flagSet (s.resource tmp).flags kMapped then some true
    else match (s.resource tmp).parent with
      | none => some false
      | some parent => mappedAbove s depth parent

/-- The mapping loop from offset `i` on, and whether every `map_fixed` succeeded,
which the source does not ask. -/
def mapWindow (start size : UInt64) : Nat → Virtmm.State σ → UInt64 → Option (Bool × Virtmm.State σ)
  | 0, _, _ => none
  | passes + 1, v, i =>
    if i < size then
      match Virtmm.mapFixed pages v (kVMRangeIOMapBase + start + i) (start + i)
          (Virtmm.kWritable ||| Virtmm.kCacheDisable) with
      | (granted, v) =>
        (mapWindow start size passes v (i + pageSize)).map fun rest => (granted && rest.1, rest.2)
    else some (true, v)

/-- What `activate_region` returns and leaves behind (KERNEL build), with the
account of the `map_fixed` calls. -/
structure Activated (σ : Type) where
  address : VirtAddr
  granted : Bool
  state : State
  virt : Virtmm.State σ

def activateRegion (limit : Nat) (s : State) (v : Virtmm.State σ) (region : Rid) : Option (Activated σ) :=
  let r := s.resource region
  if flagSet r.flags kIOPort then some ⟨r.start, true, s, v⟩
  else do
    let mapped ← mappedAbove s limit region
    let (granted, v) ← if mapped then some (true, v) else mapWindow pages r.start (r.range - r.start) limit v 0
    some ⟨kVMRangeIOMapBase + r.start, granted, s.setResource region { r with flags := r.flags ||| kMapped }, v⟩

end Activation

end Hotarubi.Memory.Mmio
