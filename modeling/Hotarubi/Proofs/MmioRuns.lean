import Hotarubi.Base.Runs
import Hotarubi.Proofs.MmioTree

/-! Runs of requests and releases on one root, beside an account of the handles
that the clients hold. Each request has one of three outcomes, and each keeps the
resources below the root a tree. -/

namespace Hotarubi.Memory.Mmio
open Base Ring Include

/-- The regions and how many grants of each have not been released. -/
structure World where
  state : State
  held : Rid → Nat

def World.initial : World := ⟨init boot, fun _ => 0⟩

/-- A call of the interface; `addr` is what `new` returns if it is called. -/
inductive Event where
  | request (start size : UInt64) (flags : Flags) (addr : Nat)
  | release (r : Rid)
  deriving DecidableEq, Repr

def World.grant (w : World) (answer : Option Rid) (state : State) : World :=
  ⟨state, match answer with
    | some r => Function.update w.held r (w.held r + 1)
    | none => w.held⟩

def Event.exec (limit : Nat) (w : World) : Event → Option (Option Rid × World)
  | .request start size flags addr => do
    let (answer, state) ← requestRegion limit w.state start size flags (.heap addr)
    some (answer, w.grant answer state)
  | .release r => do
    let (handle, state) ← releaseRegion limit w.state r
    some (handle, ⟨state, Function.update w.held r (w.held r - 1)⟩)

abbrev run (limit : Nat) (w : World) (events : List Event) : Option World := runCalls (Event.exec limit) w events

/-- What the callers keep to: intervals that are not empty, do not wrap and lie
inside the one root, memory from `new` that no region uses, and a release only
of a region that is held. -/
def Event.Promised (root : Rid) (w : World) : Event → Prop
  | .request start size flags addr =>
    rootFor flags = root ∧ 0 < size ∧ start.toNat + size.toNat < 2 ^ 64 ∧
      (w.state.resource root).start ≤ start ∧ start + size ≤ (w.state.resource root).range ∧ w.held (.heap addr) = 0
  | .release r => 0 < w.held r

instance (root : Rid) (w : World) (event : Event) : Decidable (event.Promised root w) :=
  match event with
  | .request .. => inferInstanceAs (Decidable (_ ∧ _))
  | .release _ => inferInstanceAs (Decidable (_ < _))

/-- The regions below the root are a tree of at most `n` nodes, and its regions
other than the root are those that are held. -/
structure Valid (root : Rid) (w : World) (t : Base.Tree Rid) (n : Nat) : Prop where
  top : t.root = root
  static : ∀ addr, root ≠ .heap addr
  represents : Represents w.state t
  small : t.Small n
  members : ∀ r, 0 < w.held r ↔ t.Mem r ∧ r ≠ root
  nonempty : ∀ r, t.Mem r → (w.state.resource r).start < (w.state.resource r).range
  plain : flagSet (w.state.resource root).flags kBusy = false ∧ flagSet (w.state.resource root).flags kShared = false

theorem Valid.mono {root : Rid} {w : World} {t : Base.Tree Rid} {n m : Nat} (valid : Valid root w t n) (order : n ≤ m) :
    Valid root w t m := { valid with small := valid.small.mono order }

theorem Valid.fresh {root : Rid} {w : World} {t : Base.Tree Rid} {n addr : Nat} (valid : Valid root w t n)
    (unused : w.held (.heap addr) = 0) : ¬ t.Mem (.heap addr) := by
  intro member
  have held := (valid.members (.heap addr)).mpr ⟨member, (valid.static addr).symm⟩
  omega

theorem initial_valid {root : Rid} (static : root = .memRoot ∨ root = .portRoot) :
    Valid root .initial (Tree.leaf root) 1 := by
  have only : ∀ r, (Tree.leaf root).Mem r → r = root := by
    intro r member
    rcases Tree.mem_cases member with rfl | ⟨p, _, child⟩
    · rfl
    · exact absurd child List.not_mem_nil
  have ring : IsRing (init boot).links (.children root) [] := by
    rcases static with rfl | rfl
    · obtain ⟨first, _⟩ := initList_ring boot.links (Link.children .memRoot)
      refine first.congr fun x member => (initList_ring _ (Link.children .portRoot)).2 x ?_
      rw [List.mem_singleton.mp member]
      simp
    · exact (initList_ring _ _).1
  refine ⟨rfl, ?_, ⟨fun p member => ?_, fun p k child => absurd child List.not_mem_nil, ?_⟩, ⟨⟨[root], by simp, ?_⟩, ?_⟩,
    fun r => ?_, fun r member => ?_, ?_⟩
  · intro addr
    rcases static with rfl | rfl <;> simp
  · rw [only p member]
    exact ring
  · rcases static with rfl | rfl <;> rfl
  · exact fun r member => List.mem_singleton.mpr (only r member)
  · exact fun k child => absurd child List.not_mem_nil
  · simp only [World.initial, Nat.lt_irrefl, false_iff, not_and, not_not]
    exact only r
  · rw [only r member]
    rcases static with rfl | rfl <;> decide
  · rcases static with rfl | rfl <;> decide

/-- The three outcomes of `request_region`. -/
inductive Requested (limit : Nat) (s : State) (t : Base.Tree Rid) (start range : PhysAddr) (flags : Flags) (new : Rid) :
    Option Rid → State → Prop
  | shared {hit : Rid} (wanted : flagSet flags kShared = true)
    (found : findShared limit s t.root start range = some (some hit))
    (answers : Answers s t (matchesShared start range) t.root (some hit)) :
    Requested limit s t start range flags new (some hit) (s.setRefcount hit ((s.resource hit).refcount + 1))
  | refused (conflict : ∃ x, t.Mem x ∧ conflicts start range (s.resource x) = true) :
    Requested limit s t start range flags new none (newResource s new start range flags)
  | granted {q : Rid} {xs ys : List Rid} {s' : State}
    (alone : flagSet flags kShared = true → ∀ x, t.Mem x → matchesShared start range (s.resource x) = false)
    (clear : ∀ x, t.Mem x → conflicts start range (s.resource x) = false)
    (lands : Lands (newResource s new start range flags) t new t.root q)
    (added : Added (newResource s new start range flags) t new q xs ys s') :
    Requested limit s t start range flags new (some new) s'

section Requests

variable {root : Rid} {w : World} {t : Base.Tree Rid} {n limit : Nat} {start size : UInt64} {flags : Flags} {addr : Nat}

theorem represents_new {s : State} {new : Rid} (represents : Represents s t) (fresh : ¬ t.Mem new)
    (start range : PhysAddr) (flags : Flags) :
    Represents (newResource s new start range flags) t ∧
      IsRing (newResource s new start range flags).links (.children new) [] := by
  have untouched : ∀ r, t.Mem r → r ≠ new := by
    rintro r member rfl
    exact fresh member
  obtain ⟨empty, kept⟩ := initList_ring (clearLinks s.links (.siblings new)) (.children new)
  refine ⟨⟨fun p member => (represents.rings p member).congr fun x onRing => ?_, fun p k child => ?_, ?_⟩, empty⟩
  · have away : x ≠ .children new ∧ x ≠ .siblings new := by
      rcases List.mem_cons.mp onRing with rfl | kid
      · simp [untouched p member]
      · obtain ⟨k, child, rfl⟩ := List.mem_map.mp kid
        simp [untouched k (Tree.mem_kid child)]
    have step := kept x (by simp [away.1])
    simp only [clearLinks, Function.update_of_ne away.2] at step
    exact step
  · simp only [newResource, Function.update_of_ne (untouched k (Tree.mem_kid child))]
    exact represents.parents p k child
  · simp only [newResource, Function.update_of_ne (untouched _ t.mem_root)]
    exact represents.top

theorem newResource_other {s : State} {new x : Rid} (other : x ≠ new) (start range : PhysAddr) (flags : Flags) :
    (newResource s new start range flags).resource x = s.resource x := Function.update_of_ne other _ _

theorem newResource_self (s : State) (new : Rid) (start range : PhysAddr) (flags : Flags) :
    (newResource s new start range flags).resource new =
      ⟨start, range, flags &&& ~~~kMapped, 1, (s.resource new).parent⟩ := Function.update_self ..

/-- The list nodes of the resources in the tree. -/
def Node (t : Base.Tree Rid) : Link → Prop
  | .children p => t.Mem p
  | .siblings k => ∃ p, k ∈ t.kids p

/-- Outside of the tree and of the new resource the links stay as they are. -/
def Spares (t : Base.Tree Rid) (new : Rid) (s s' : State) : Prop :=
  ∀ x, ¬ Node t x → x ≠ .siblings new → x ≠ .children new →
    s'.links.next x = s.links.next x ∧ s'.links.prev x = s.links.prev x

theorem newResource_links (s : State) {new : Rid} (start range : PhysAddr) (flags : Flags) {x : Link}
    (siblings : x ≠ .siblings new) (children : x ≠ .children new) :
    (newResource s new start range flags).links.next x = s.links.next x ∧
      (newResource s new start range flags).links.prev x = s.links.prev x := by
  have step := (initList_ring (clearLinks s.links (.siblings new)) (.children new)).2 x (by simpa using children)
  simp only [clearLinks, Function.update_of_ne siblings] at step
  exact step

private theorem spares_new (t : Base.Tree Rid) (s : State) (new : Rid) (start range : PhysAddr) (flags : Flags) :
    Spares t new s (newResource s new start range flags) :=
  fun _ _ siblings children => newResource_links s start range flags siblings children

/-- A new resource changes nothing of the tree, so the check goes by the tree as it was. -/
private theorem checkResource_new {s : State} {new : Rid} (start range : PhysAddr) (flags : Flags)
    (represents : Represents s t) (small : t.Small n) (enough : n ≤ limit) (fresh : ¬ t.Mem new) :
    let created := newResource s new start range flags
    ∃ collision, checkResource limit created t.root (created.resource new).start (created.resource new).range =
        some collision ∧
      (∀ hit, collision = some hit → hit ≠ new ∧ ∃ x, t.Mem x ∧ conflicts start range (s.resource x) = true) ∧
      (collision = none → ∀ x, t.Mem x → conflicts start range (s.resource x) = false) := by
  intro created
  obtain ⟨represents', _⟩ := represents_new represents fresh start range flags
  have same : ∀ x, t.Mem x → created.resource x = s.resource x := by
    intro x member
    refine newResource_other ?_ _ _ _
    rintro rfl
    exact fresh member
  have self : created.resource new = _ := newResource_self s new start range flags
  obtain ⟨collision, walked, answers⟩ := walkResources_spec represents' small enough (conflicts start range) t.mem_root
    (Tree.shallow_mono enough small.shallow)
  refine ⟨collision, ?_, ?_, ?_⟩
  · rw [self]
    exact walked
  · rintro hit rfl
    rcases answers with ⟨isRoot, hits⟩ | ⟨child, x, reach, hits⟩
    · refine ⟨fun isNew => fresh (isNew ▸ isRoot ▸ t.mem_root), t.root, t.mem_root, ?_⟩
      rw [← same t.root t.mem_root]
      exact hits
    · have inside : t.Mem x := Relation.ReflTransGen.trans (Tree.mem_kid child) reach
      refine ⟨fun isNew => fresh (isNew ▸ Tree.mem_kid child), x, inside, ?_⟩
      rw [← same x inside]
      exact hits
  · rintro rfl x member
    rw [← same x member]
    exact answers x member

/-- The walk that takes the root for a sibling follows its links. -/
private theorem addNested_strays {s : State} {new : Rid} {start range : PhysAddr} {flags : Flags} (small : t.Small n)
    (enough : n ≤ limit) (fresh : ¬ t.Mem new)
    (sibling : possibleSibling ((newResource s new start range flags).resource t.root)
      ((newResource s new start range flags).resource new) = true)
    (unlinked : s.links.next (.siblings t.root) = none) :
    addNested limit (newResource s new start range flags) new limit t.root = none := by
  obtain ⟨passes, rfl⟩ : ∃ passes, limit = passes + 1 := by
    refine Nat.exists_eq_add_one_of_ne_zero (Nat.ne_of_gt (Nat.lt_of_lt_of_le ?_ enough))
    exact Nat.pos_of_ne_zero fun zero => by simpa [zero, Shallow] using small.shallow
  have null : (newResource s new start range flags).links.next (.siblings t.root) = none := by
    rw [← unlinked]
    refine (spares_new t s new start range flags (.siblings t.root) (fun node => ?_) (fun same => ?_) Link.noConfusion).1
    · obtain ⟨p, child⟩ := node
      exact t.top p child
    · exact fresh (Link.siblings.inj same ▸ t.mem_root)
  simp only [addNested, if_pos sibling, search, null, searchFrom, Option.bind_eq_bind, Option.bind_none]

/-- A new resource is refused because of a conflict somewhere in the tree, it becomes
part of the tree, or it is taken for a sibling of the root. -/
private theorem requestResource_cases {s : State} {new : Rid} (start range : PhysAddr) (flags : Flags)
    (represents : Represents s t) (small : t.Small n)
    (enough : n ≤ limit) (fresh : ¬ t.Mem new) :
    let created := newResource s new start range flags
    (∃ hit, requestResource limit created t.root new = some (some hit, created) ∧ hit ≠ new ∧
      ∃ x, t.Mem x ∧ conflicts start range (s.resource x) = true) ∨
    (∀ x, t.Mem x → conflicts start range (s.resource x) = false) ∧
      ((∃ s' q xs ys, requestResource limit created t.root new = some (some new, s') ∧ Lands created t new t.root q ∧
        Added created t new q xs ys s' ∧ Spares t new s s' ∧ addNested limit created new limit t.root = some (some s')) ∨
      possibleSibling (created.resource t.root) (created.resource new) = true ∧
        (s.links.next (.siblings t.root) = none → requestResource limit created t.root new = none)) := by
  intro created
  obtain ⟨represents', empty⟩ := represents_new represents fresh start range flags
  obtain ⟨collision, checked, hits, clear⟩ := checkResource_new start range flags represents small enough fresh
  cases collision with
  | some hit =>
    refine .inl ⟨hit, ?_, hits hit rfl⟩
    rw [requestResource, checked]
    rfl
  | none =>
    refine .inr ⟨clear rfl, ?_⟩
    by_cases sibling : possibleSibling (created.resource t.root) (created.resource new) = true
    · refine .inr ⟨sibling, fun unlinked => ?_⟩
      rw [requestResource, checked]
      simp only [Option.bind_eq_bind, Option.bind_some]
      rw [show addNested limit created new limit t.root = none from addNested_strays small enough fresh sibling unlinked]
      rfl
    · obtain ⟨s', q, xs, ys, added, lands, result, kept⟩ := addNested_spec represents' small enough fresh empty t.mem_root
        (fun _ => by simpa using sibling) (Tree.shallow_mono enough small.shallow)
      refine .inl ⟨s', q, xs, ys, ?_, lands, result, fun x out siblings children => ?_, added⟩
      · rw [requestResource, checked]
        simp only [Option.bind_eq_bind, Option.bind_some]
        rw [show addNested limit created new limit t.root = some (some s') from added]
        rfl
      · have before := spares_new t s new start range flags x out siblings children
        have after := kept x (by
          rintro onRing
          simp only [List.mem_cons, List.mem_map, nodes] at onRing
          rcases onRing with rfl | rfl | ⟨k, child, rfl⟩
          · exact out result.member
          · exact siblings rfl
          · exact out ⟨q, child⟩)
        exact ⟨after.1.trans before.1, after.2.trans before.2⟩

/-- A request that no resource of the tree stands against, and that the root takes for
a sibling of its own. -/
structure Strays (s : State) (t : Base.Tree Rid) (start range : PhysAddr) (flags : Flags) : Prop where
  alone : flagSet flags kShared = true → ∀ x, t.Mem x → matchesShared start range (s.resource x) = false
  clear : ∀ x, t.Mem x → conflicts start range (s.resource x) = false
  beyond : range < (s.resource t.root).start ∨ (s.resource t.root).range < start

/-- A request ends in one of its three outcomes, or follows the links of the root. -/
def Settles (limit : Nat) (s : State) (t : Base.Tree Rid) (start size : UInt64) (flags : Flags) (new : Rid) : Prop :=
  (Strays s t start (start + size) flags ∧
    (s.links.next (.siblings t.root) = none → requestRegion limit s start size flags new = none)) ∨
  ∃ answer s', requestRegion limit s start size flags new = some (answer, s') ∧
    Requested limit s t start (start + size) flags new answer s' ∧ Spares t new s s' ∧
    (answer = some new → addNested limit (newResource s new start (start + size) flags) new limit t.root = some (some s'))

private theorem settles_new {s : State} {new : Rid} (start size : UInt64) (represents : Represents s t) (small : t.Small n)
    (enough : n ≤ limit) (fresh : ¬ t.Mem new)
    (alone : flagSet flags kShared = true → ∀ x, t.Mem x → matchesShared start (start + size) (s.resource x) = false)
    (asked : requestRegion limit s start size flags new =
      (requestResource limit (newResource s new start (start + size) flags) t.root new).bind fun result =>
        some (if result.1 = some new then some new else none, result.2)) :
    Settles limit s t start size flags new := by
  unfold Settles
  rw [asked]
  obtain ⟨hit, ran, other, conflict⟩ | ⟨clear, ⟨s', q, xs, ys, ran, lands, added, spared, placed⟩ | ⟨sibling, stuck⟩⟩ :=
    requestResource_cases start (start + size) flags represents small enough fresh
  · refine .inr ⟨none, _, ?_, .refused conflict, spares_new t s new start (start + size) flags, nofun⟩
    rw [ran]
    simp [other]
  · exact .inr ⟨some new, s', by rw [ran]; simp, .granted alone clear lands added, spared, fun _ => placed⟩
  · refine .inl ⟨⟨alone, clear, ?_⟩, fun ends => by rw [stuck ends]; rfl⟩
    have rootOther : t.root ≠ new := fun same => fresh (same ▸ t.mem_root)
    rw [newResource_self, newResource_other rootOther] at sibling
    simpa [possibleSibling] using sibling

theorem requestRegion_cases {s : State} {new : Rid} (start size : UInt64) (represents : Represents s t) (small : t.Small n)
    (enough : n ≤ limit) (fresh : ¬ t.Mem new) (top : rootFor flags = t.root) :
    Settles limit s t start size flags new := by
  have shallow := Tree.shallow_mono enough small.shallow
  by_cases wanted : flagSet flags kShared = true
  · obtain ⟨found, walked, answers⟩ :=
      walkResources_spec represents small enough (matchesShared start (start + size)) t.mem_root shallow
    have shared : findShared limit s t.root start (start + size) = some found := walked
    cases found with
    | some hit =>
      refine .inr ⟨some hit, _, ?_, .shared wanted shared answers, fun x _ _ _ => ⟨rfl, rfl⟩, fun same => ?_⟩
      · unfold requestRegion
        rw [top]
        simp only [wanted, if_true, shared, Option.bind_eq_bind, Option.bind_some]
      · obtain rfl := Option.some.inj same
        rcases answers with ⟨isRoot, _⟩ | ⟨child, _⟩
        · exact absurd (isRoot ▸ t.mem_root) fresh
        · exact absurd (Tree.mem_kid child) fresh
    | none =>
      apply settles_new start size represents small enough fresh (fun _ => answers)
      unfold requestRegion
      rw [top]
      simp only [wanted, if_true, shared, Option.bind_eq_bind, Option.bind_some]
  · apply settles_new start size represents small enough fresh fun wanted' => absurd wanted' wanted
    unfold requestRegion
    rw [top]
    simp only [wanted, Bool.false_eq_true, if_false, Option.bind_eq_bind, Option.bind_some]

/-- A request inside the root does not stray. -/
theorem requestRegion_spec (valid : Valid root w t n) (enough : n ≤ limit)
    (promised : (Event.request start size flags addr).Promised root w) :
    ∃ answer s', requestRegion limit w.state start size flags (.heap addr) = some (answer, s') ∧
      Requested limit w.state t start (start + size) flags (.heap addr) answer s' := by
  obtain ⟨top, positive, straight, low, high, unused⟩ := promised
  rcases requestRegion_cases start size valid.represents valid.small enough (valid.fresh unused)
    (top.trans valid.top.symm) with
    ⟨strays, _⟩ | ⟨answer, s', ran, outcome, _, _⟩
  · have beyond := strays.beyond
    rw [valid.top] at beyond
    rw [UInt64.le_iff_toNat_le] at low high
    rw [UInt64.toNat_add, Nat.mod_eq_of_lt straight] at high
    rw [UInt64.lt_iff_toNat_lt, UInt64.lt_iff_toNat_lt, UInt64.toNat_add, Nat.mod_eq_of_lt straight] at beyond
    omega
  · exact ⟨answer, s', ran, outcome⟩

theorem shared_hit (valid : Valid root w t n) {range : PhysAddr} {hit : Rid}
    (answers : Answers w.state t (matchesShared start range) t.root (some hit)) :
    hit ∈ t.kids root ∧ ∃ x, Reach t.kids hit x ∧ matchesShared start range (w.state.resource x) = true := by
  have top := valid.top
  subst top
  rcases answers with ⟨_, passes⟩ | found
  · have plain := valid.plain.2
    simp [matchesShared, plain] at passes
  · exact found

/-- A world in which only counters and handles of regions of the tree differ. -/
theorem Valid.recount (valid : Valid root w t n) {r : Rid} {refcount : UInt32} {held : Nat}
    (count : 0 < held ↔ t.Mem r ∧ r ≠ root) :
    Valid root ⟨w.state.setRefcount r refcount, Function.update w.held r held⟩ t n := by
  have fields (x : Rid) : ((w.state.setRefcount r refcount).resource x).start = (w.state.resource x).start ∧
      ((w.state.setRefcount r refcount).resource x).range = (w.state.resource x).range ∧
      ((w.state.setRefcount r refcount).resource x).flags = (w.state.resource x).flags ∧
      ((w.state.setRefcount r refcount).resource x).parent = (w.state.resource x).parent := by
    simp only [State.setRefcount, State.setResource, Function.update_apply]
    by_cases same : x = r
    · simp [same]
    · simp [same]
  refine ⟨valid.top, valid.static, ⟨valid.represents.rings, fun p k child => ?_, ?_⟩, valid.small, fun x => ?_,
    fun x member => ?_, ?_⟩
  · rw [(fields k).2.2.2]
    exact valid.represents.parents p k child
  · rw [(fields t.root).2.2.2]
    exact valid.represents.top
  · by_cases same : x = r
    · subst same
      simpa using count
    · simpa [Function.update_of_ne same] using valid.members x
  · rw [(fields x).1, (fields x).2.1]
    exact valid.nonempty x member
  · rw [(fields root).2.2.1]
    exact valid.plain

theorem Valid.refused (valid : Valid root w t n) (fresh : ¬ t.Mem (.heap addr)) (range : PhysAddr) :
    Valid root (w.grant none (newResource w.state (.heap addr) start range flags)) t n := by
  have same : ∀ x, t.Mem x → (newResource w.state (.heap addr) start range flags).resource x = w.state.resource x := by
    intro x member
    refine newResource_other ?_ _ _ _
    rintro rfl
    exact fresh member
  refine ⟨valid.top, valid.static, (represents_new valid.represents fresh start range flags).1, valid.small,
    valid.members, fun x member => ?_, ?_⟩
  · change ((newResource w.state (.heap addr) start range flags).resource x).start <
      ((newResource w.state (.heap addr) start range flags).resource x).range
    rw [same x member]
    exact valid.nonempty x member
  · change flagSet ((newResource w.state (.heap addr) start range flags).resource root).flags kBusy = false ∧
      flagSet ((newResource w.state (.heap addr) start range flags).resource root).flags kShared = false
    rw [same root (valid.top ▸ t.mem_root)]
    exact valid.plain

theorem Added.fields {s s' : State} {new q : Rid} {xs ys : List Rid} {range : PhysAddr}
    (added : Added (newResource s new start range flags) t new q xs ys s') (x : Rid) :
    s'.resource x = if x = new then ⟨start, range, flags &&& ~~~kMapped, 1, some q⟩ else s.resource x := by
  rw [added.resource]
  simp only [State.setParent, State.setResource, Function.update_apply, newResource_self]
  split
  next => rfl
  next other => exact newResource_other other _ _ _

theorem Valid.granted (valid : Valid root w t n) (unused : w.held (.heap addr) = 0) {q : Rid} {xs ys : List Rid}
    {range : PhysAddr} (order : start < range) {s' : State}
    (added : Added (newResource w.state (.heap addr) start range flags) t (.heap addr) q xs ys s') :
    Valid root (w.grant (some (.heap addr)) s')
      (t.attach q xs ys (.heap addr) added.here added.member added.fresh) (n + 1) := by
  refine ⟨valid.top, valid.static, added.represents, Tree.small_attach valid.small, fun x => ?_, fun x member => ?_, ?_⟩
  · rw [Tree.mem_attach]
    by_cases same : x = .heap addr
    · subst same
      simpa [World.grant, unused] using (valid.static addr).symm
    · simpa [World.grant, Function.update_of_ne same, same] using valid.members x
  · change (s'.resource x).start < (s'.resource x).range
    rw [added.fields]
    split
    next => exact order
    next other => exact valid.nonempty x ((Tree.mem_attach.mp member).resolve_right other)
  · change flagSet (s'.resource root).flags kBusy = false ∧ flagSet (s'.resource root).flags kShared = false
    rw [added.fields, if_neg (valid.static addr)]
    exact valid.plain

end Requests

section Releases

variable {root : Rid} {w : World} {t : Base.Tree Rid} {n limit : Nat} {r : Rid}

/-- The list of children has exactly one element. -/
def OneChild (s : State) (r : Rid) : Prop :=
  s.links.next (.children r) = s.links.prev (.children r) ∧ listEmpty s.links (.children r) = false

instance (s : State) (r : Rid) : Decidable (OneChild s r) := inferInstanceAs (Decidable (_ ∧ _))

theorem oneChild_iff {s : State} (represents : Represents s t) (member : t.Mem r) :
    OneChild s r ↔ (t.kids r).length = 1 := by
  have ring := represents.rings r member
  have next := path_next ring.path
  have prev := path_prev ring.path
  have empty := listEmpty_ring ring
  have distinct := t.nodup r
  unfold OneChild
  rw [next, prev, ← Bool.not_eq_true, empty, Option.some.injEq]
  cases kids : t.kids r with
  | nil => simp [nodes]
  | cons a rest =>
    cases rest with
    | nil => simp [nodes]
    | cons b rest =>
      rw [kids] at distinct
      simp only [nodes, List.map_cons, List.headD_cons, List.getLastD_cons, reduceCtorEq, not_false_eq_true, and_true,
        List.length_cons, Nat.add_eq_right, Nat.add_eq_zero_iff, Nat.one_ne_zero, and_false, iff_false]
      have last := getLastD_mem (Link.siblings b) (rest.map Link.siblings)
      intro same
      rw [← same] at last
      have : a ∈ b :: rest := mem_nodes.mp (show Link.siblings a ∈ nodes (b :: rest) from last)
      exact (List.nodup_cons.mp distinct).1 this

/-- The last handle of a region goes, and the region with it. -/
theorem Valid.released (valid : Valid root w t n) (enough : n ≤ limit) (held : w.held r = 1)
    (last : (w.state.resource r).refcount < 2) (several : ¬ OneChild w.state r) :
    ∃ s' t', releaseRegion limit w.state r = some (none, s') ∧
      Valid root ⟨s', Function.update w.held r (w.held r - 1)⟩ t' n ∧
      ∀ x, t'.Mem x → t.Mem x ∧ x ≠ r ∧ (s'.resource x).refcount = (w.state.resource x).refcount := by
  obtain ⟨member, notRoot⟩ := (valid.members r).mp (by omega)
  rcases Tree.mem_cases member with isRoot | ⟨q, _, child⟩
  · exact absurd (isRoot.trans valid.top) notRoot
  · have plural : (t.kids r).length ≠ 1 := fun one => several ((oneChild_iff valid.represents member).mpr one)
    obtain ⟨s', xs, ys, here, ran, represents, _, fields⟩ :=
      releaseResource_spec valid.represents valid.small enough child last plural
    have gone : (s'.resource r).refcount = 0 := by simp [fields]
    refine ⟨s', t.detach q r xs ys here, by simp [releaseRegion, ran, gone], ⟨valid.top, valid.static, represents,
      Tree.small_detach valid.small, fun x => ?_, fun x inside => ?_, ?_⟩, fun x inside => ?_⟩
    · rw [Tree.mem_detach]
      by_cases other : x = r
      · simp [other, held]
      · simpa [Function.update_of_ne other, other] using valid.members x
    · obtain ⟨old, other⟩ := Tree.mem_detach.mp inside
      change (s'.resource x).start < (s'.resource x).range
      rw [(released_same fields other).1, (released_same fields other).2.1]
      exact valid.nonempty x old
    · change flagSet (s'.resource root).flags kBusy = false ∧ flagSet (s'.resource root).flags kShared = false
      rw [(released_same fields (Ne.symm notRoot)).2.2.1]
      exact valid.plain
    · obtain ⟨old, other⟩ := Tree.mem_detach.mp inside
      exact ⟨old, other, (released_same fields other).2.2.2⟩

theorem releaseRegion_shared (limit : Nat) (valid : Valid root w t n) (member : t.Mem r) (notRoot : r ≠ root)
    (more : ¬ (w.state.resource r).refcount < 2) :
    releaseRegion limit w.state r =
      some (some r, w.state.setRefcount r ((w.state.resource r).refcount - 1)) := by
  rcases Tree.mem_cases member with isRoot | ⟨q, _, child⟩
  · exact absurd (isRoot.trans valid.top) notRoot
  · have left : (w.state.resource r).refcount - 1 ≠ 0 := by
      intro zero
      have value := congrArg UInt32.toNat zero
      rw [UInt32.lt_iff_toNat_lt, show (2 : UInt32).toNat = 2 from rfl] at more
      rw [UInt32.toNat_sub_of_le _ _ (by rw [UInt32.le_iff_toNat_le, UInt32.toNat_one]; omega),
        UInt32.toNat_one, UInt32.toNat_zero] at value
      omega
    simp [releaseRegion, releaseResource, valid.represents.parents q r child, more, State.setRefcount,
      State.setResource, left]

end Releases

end Hotarubi.Memory.Mmio
