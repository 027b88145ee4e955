import Hotarubi.Proofs.MmioWindow

/-! Runs on both roots at once, with any request that returns. What a call does to one
tree leaves the list nodes of the other one alone, so two trees stay two trees. -/

namespace Hotarubi.Memory.Mmio
open Base Ring Include

def IsRoot (r : Rid) : Prop := r = .memRoot ∨ r = .portRoot

instance (r : Rid) : Decidable (IsRoot r) := inferInstanceAs (Decidable (_ ∨ _))

theorem rootFor_isRoot (flags : Flags) : IsRoot (rootFor flags) := by
  unfold rootFor
  split
  next => exact .inr rfl
  next => exact .inl rfl

private theorem heap_not_root (addr : Nat) : ¬ IsRoot (.heap addr) := by
  rintro (same | same) <;> cases same

/-- Some of the interval lies before an address and some of it behind. -/
def Resource.Crosses (n : Resource) (a : PhysAddr) : Prop := n.start < a ∧ a < n.range

/-- The regions and what the calls have granted: two trees that share nothing, each
region with a count of its handles, no two shared regions of one interval, and none
across the end of its root. -/
structure Forest (w : World) (trees : Rid → Base.Tree Rid) (n : Nat) : Prop where
  top : ∀ root, IsRoot root → (trees root).root = root
  represents : ∀ root, IsRoot root → Represents w.state (trees root)
  small : ∀ root, IsRoot root → (trees root).Small n
  apart : ∀ root root' r, IsRoot root → IsRoot root' → (trees root).Mem r → (trees root').Mem r → root = root'
  members : ∀ r, 0 < w.held r ↔ ∃ root, IsRoot root ∧ (trees root).Mem r ∧ r ≠ root
  count : ∀ r, 0 < w.held r → (w.state.resource r).refcount.toNat = w.held r
  static : ∀ root, IsRoot root → w.state.resource root = boot.resource root
  ends : ∀ root, IsRoot root → w.state.links.next (.siblings root) = none ∧ w.state.links.prev (.siblings root) = none
  unique : ∀ root, IsRoot root → ∀ a b, (trees root).Mem a → (trees root).Mem b →
    flagSet (w.state.resource a).flags kShared = true → flagSet (w.state.resource b).flags kShared = true →
    (w.state.resource a).start = (w.state.resource b).start → (w.state.resource a).range =
      (w.state.resource b).range → a = b
  inside : ∀ root, IsRoot root → ∀ r, (trees root).Mem r → ¬ (w.state.resource r).Crosses (boot.resource root).range

section Frames

variable {s s' : State} {t : Base.Tree Rid}

/-- A tree is where its list nodes and its parent pointers are. -/
theorem Represents.frame (represents : Represents s t)
    (links : ∀ x, Node t x → s'.links.next x = s.links.next x ∧ s'.links.prev x = s.links.prev x)
    (parents : ∀ r, t.Mem r → (s'.resource r).parent = (s.resource r).parent) : Represents s' t := by
  refine ⟨fun p inside => (represents.rings p inside).congr fun x onRing => links x ?_, fun p k child => ?_, ?_⟩
  · rcases List.mem_cons.mp onRing with rfl | kid
    · exact inside
    · obtain ⟨k, child, rfl⟩ := List.mem_map.mp kid
      exact ⟨p, child⟩
  · rw [parents k (Tree.mem_kid child)]
    exact represents.parents p k child
  · rw [parents t.root t.mem_root]
    exact represents.top

private theorem node_mem {k : Rid} (node : Node t (.siblings k)) : t.Mem k := by
  obtain ⟨p, child⟩ := node
  exact Tree.mem_kid child

end Frames

section Lists

variable {s : State} {t : Base.Tree Rid} {p k r : Rid}

/-- `k` is on the list of children of `p`. -/
def State.Lists (s : State) (p k : Rid) : Prop := ∃ xs, IsRing s.links (.children p) xs ∧ Link.siblings k ∈ xs

/-- `b` is `a`, or found from it through the lists of children. -/
def State.Under (s : State) (a b : Rid) : Prop := Relation.ReflTransGen s.Lists a b

theorem lists_iff (represents : Represents s t) (member : t.Mem p) : s.Lists p k ↔ k ∈ t.kids p := by
  have ring := represents.rings p member
  constructor
  · rintro ⟨xs, other, onRing⟩
    rw [other.unique ring] at onRing
    exact mem_nodes.mp onRing
  · exact fun child => ⟨_, ring, mem_nodes.mpr child⟩

theorem under_iff (represents : Represents s t) : s.Under t.root r ↔ t.Mem r := by
  constructor
  · intro under
    induction under with
    | refl => exact t.mem_root
    | tail _ step ih => exact Tree.mem_kid ((lists_iff represents ih).mp step)
  · intro member
    induction member with
    | refl => exact .refl
    | tail above child ih => exact ih.tail ((lists_iff represents above).mpr child)

end Lists

section Steps

variable {w : World} {trees : Rid → Base.Tree Rid} {n limit : Nat}

theorem Forest.mono (forest : Forest w trees n) {m : Nat} (order : n ≤ m) : Forest w trees m :=
  { forest with small := fun root static => (forest.small root static).mono order }

theorem Forest.mem_root (forest : Forest w trees n) {root : Rid} (static : IsRoot root) : (trees root).Mem root := by
  have member := (trees root).mem_root
  rwa [forest.top root static] at member

private theorem Forest.root_unique (forest : Forest w trees n) {root r : Rid} (static : IsRoot root) (other : IsRoot r)
    (member : (trees root).Mem r) : r = root :=
  (forest.apart root r r static other member (forest.mem_root other)).symm

theorem Forest.fresh (forest : Forest w trees n) {addr : Nat} (unused : w.held (.heap addr) = 0) {root : Rid}
    (static : IsRoot root) : ¬ (trees root).Mem (.heap addr) := by
  intro member
  have other : Rid.heap addr ≠ root := fun same => heap_not_root addr (same ▸ static)
  have held := (forest.members (.heap addr)).mpr ⟨root, static, member, other⟩
  omega

theorem Forest.under_iff (forest : Forest w trees n) {root r : Rid} (static : IsRoot root) :
    w.state.Under root r ↔ (trees root).Mem r := by
  have found := Mmio.under_iff (r := r) (forest.represents root static)
  rwa [forest.top root static] at found

/-- A region is below a root exactly while it is held. -/
theorem Forest.live_iff (forest : Forest w trees n) {r : Rid} :
    0 < w.held r ↔ ∃ root, IsRoot root ∧ w.state.Under root r ∧ r ≠ root := by
  rw [forest.members r]
  constructor
  · rintro ⟨root, static, member, other⟩
    exact ⟨root, static, (forest.under_iff static).mpr member, other⟩
  · rintro ⟨root, static, under, other⟩
    exact ⟨root, static, (forest.under_iff static).mp under, other⟩

/-- The trees that a change of one leaves as they are. -/
theorem Forest.elsewhere (forest : Forest w trees n) {root other : Rid} (static : IsRoot root) (static' : IsRoot other)
    (different : other ≠ root) : ∀ x, Node (trees other) x → ¬ Node (trees root) x := by
  intro x mine theirs
  cases x with
  | children p => exact different (forest.apart other root p static' static mine theirs)
  | siblings k => exact different (forest.apart other root k static' static (node_mem mine) (node_mem theirs))

private theorem Forest.root_unlisted (forest : Forest w trees n) {root other : Rid} (static : IsRoot root)
    (static' : IsRoot other) :
    ¬ Node (trees root) (.siblings other) := by
  intro ⟨p, child⟩
  obtain rfl := forest.root_unique static static' (Tree.mem_kid child)
  exact (trees other).top p (by rwa [forest.top other static])

/-- A step that leaves all trees as they are. -/
theorem Forest.kept (forest : Forest w trees n) {w' : World}
    (links : ∀ x, (∃ root, IsRoot root ∧ (Node (trees root) x ∨ x = .siblings root)) →
      w'.state.links.next x = w.state.links.next x ∧ w'.state.links.prev x = w.state.links.prev x)
    (roots : ∀ root, IsRoot root → w'.state.resource root = w.state.resource root)
    (fields : ∀ r, 0 < w.held r → (w'.state.resource r).parent = (w.state.resource r).parent ∧
      (w'.state.resource r).start = (w.state.resource r).start ∧ (w'.state.resource r).range = (w.state.resource r).range ∧
      flagSet (w'.state.resource r).flags kShared = flagSet (w.state.resource r).flags kShared)
    (held : ∀ r, 0 < w'.held r ↔ 0 < w.held r)
    (count : ∀ r, 0 < w'.held r → (w'.state.resource r).refcount.toNat = w'.held r) : Forest w' trees n := by
  have all : ∀ root, IsRoot root → ∀ r, (trees root).Mem r → (w'.state.resource r).parent = (w.state.resource r).parent ∧
      (w'.state.resource r).start = (w.state.resource r).start ∧ (w'.state.resource r).range = (w.state.resource r).range ∧
      flagSet (w'.state.resource r).flags kShared = flagSet (w.state.resource r).flags kShared := by
    intro root static r member
    by_cases same : r = root
    · subst same
      rw [roots r static]
      exact ⟨rfl, rfl, rfl, rfl⟩
    · exact fields r ((forest.members r).mpr ⟨root, static, member, same⟩)
  refine ⟨forest.top, fun root static => ?_, forest.small, forest.apart, fun r => (held r).trans (forest.members r), count,
    fun root static => (roots root static).trans (forest.static root static), fun root static => ?_,
    fun root static a b mine theirs => ?_, fun root static r member => ?_⟩
  · exact (forest.represents root static).frame (fun x node => links x ⟨root, static, .inl node⟩)
      fun r member => (all root static r member).1
  · have same := links (.siblings root) ⟨root, static, .inr rfl⟩
    rw [same.1, same.2]
    exact forest.ends root static
  · obtain ⟨_, start, range, flags⟩ := all root static a mine
    obtain ⟨_, start', range', flags'⟩ := all root static b theirs
    rw [start, range, flags, start', range', flags']
    exact forest.unique root static a b mine theirs
  · obtain ⟨_, start, range, _⟩ := all root static r member
    rw [Resource.Crosses, start, range]
    exact forest.inside root static r member

/-- What holds of the tree that is new and of those that stay holds of all. -/
private theorem forall_update {P : Rid → Base.Tree Rid → Prop} {root : Rid} {t : Base.Tree Rid} (own : P root t)
    (rest : ∀ other, IsRoot other → other ≠ root → P other (trees other)) :
    ∀ other, IsRoot other → P other (Function.update trees root t other) := by
  intro other static
  by_cases same : other = root
  · subst same
    rwa [Function.update_self]
  · rw [Function.update_of_ne same]
    exact rest other static same

private theorem Forest.update_apart (forest : Forest w trees n) {root : Rid} {t : Base.Tree Rid}
    (others : ∀ other r, IsRoot other → other ≠ root → (trees other).Mem r → ¬ t.Mem r) (a b r : Rid) (staticA : IsRoot a)
    (staticB : IsRoot b) (left : (Function.update trees root t a).Mem r) (right : (Function.update trees root t b).Mem r) :
    a = b := by
  have tree : ∀ other, other ≠ root → Function.update trees root t other = trees other :=
    fun other different => Function.update_of_ne different _ _
  have own : Function.update trees root t root = t := Function.update_self ..
  by_cases differentA : a = root
  · subst differentA
    rw [own] at left
    by_cases differentB : b = a
    · exact differentB.symm
    · rw [tree b differentB] at right
      exact absurd left (others b r staticB differentB right)
  · rw [tree a differentA] at left
    by_cases differentB : b = root
    · subst differentB
      rw [own] at right
      exact absurd right (others a r staticA differentA left)
    · rw [tree b differentB] at right
      exact forest.apart a b r staticA staticB left right

/-- One tree is replaced by another one, and the others stay. -/
private theorem Forest.replace (forest : Forest w trees n) {root : Rid} (static : IsRoot root) {w' : World}
    {t : Base.Tree Rid} {m : Nat}
    (top : t.root = root) (represents : Represents w'.state t) (small : t.Small m) (order : n ≤ m)
    (same : w'.state.resource root = w.state.resource root)
    (links : ∀ x, (∃ other, IsRoot other ∧ (other ≠ root ∧ Node (trees other) x ∨ x = .siblings other)) →
      w'.state.links.next x = w.state.links.next x ∧ w'.state.links.prev x = w.state.links.prev x)
    (others : ∀ other r, IsRoot other → other ≠ root → (trees other).Mem r →
      w'.state.resource r = w.state.resource r ∧ w'.held r = w.held r ∧ ¬ t.Mem r)
    (inside : ∀ r, t.Mem r → r ≠ root → 0 < w'.held r ∧ (w'.state.resource r).refcount.toNat = w'.held r)
    (known : ∀ r, 0 < w'.held r → t.Mem r ∧ r ≠ root ∨
      ∃ other, IsRoot other ∧ other ≠ root ∧ (trees other).Mem r ∧ r ≠ other)
    (unique : ∀ a b, t.Mem a → t.Mem b → flagSet (w'.state.resource a).flags kShared = true →
      flagSet (w'.state.resource b).flags kShared = true → (w'.state.resource a).start = (w'.state.resource b).start →
      (w'.state.resource a).range = (w'.state.resource b).range → a = b)
    (straight : ∀ r, t.Mem r → ¬ (w'.state.resource r).Crosses (boot.resource root).range) :
    Forest w' (Function.update trees root t) m := by
  have own : Function.update trees root t root = t := Function.update_self ..
  have field : ∀ other r, IsRoot other → other ≠ root → (trees other).Mem r → w'.state.resource r = w.state.resource r :=
    fun other r static' different member => (others other r static' different member).1
  refine ⟨?_, ?_, ?_, ?_, fun r => ⟨fun held => ?_, ?_⟩, fun r held => ?_, fun other static' => ?_, fun other static' => ?_,
    ?_, ?_⟩
  · exact forall_update (P := fun other t => t.root = other) top fun other static' _ => forest.top other static'
  · refine forall_update (P := fun _ t => Represents w'.state t) represents fun other static' different => ?_
    refine (forest.represents other static').frame (fun x node => links x ⟨other, static', .inl ⟨different, node⟩⟩) ?_
    exact fun r member => congrArg Resource.parent (field other r static' different member)
  · exact forall_update (P := fun _ t => t.Small m) small fun other static' _ => (forest.small other static').mono order
  · exact forest.update_apart fun other r static' different member => (others other r static' different member).2.2
  · rcases known r held with ⟨member, notRoot⟩ | ⟨other, static', different, member, notRoot⟩
    · exact ⟨root, static, by rwa [own], notRoot⟩
    · exact ⟨other, static', by rwa [Function.update_of_ne different], notRoot⟩
  · rintro ⟨other, static', member, notRoot⟩
    refine forall_update (P := fun other t => t.Mem r → r ≠ other → 0 < w'.held r) (fun member notRoot => ?_)
      (fun other static' different member notRoot => ?_) other static' member notRoot
    · exact (inside r member notRoot).1
    · rw [(others other r static' different member).2.1]
      exact (forest.members r).mpr ⟨other, static', member, notRoot⟩
  · rcases known r held with ⟨member, notRoot⟩ | ⟨other, static', different, member, notRoot⟩
    · exact (inside r member notRoot).2
    · obtain ⟨fields, counted, _⟩ := others other r static' different member
      rw [fields, counted]
      exact forest.count r ((forest.members r).mpr ⟨other, static', member, notRoot⟩)
  · by_cases different : other = root
    · subst different
      exact same.trans (forest.static other static')
    · rw [field other other static' different (forest.mem_root static')]
      exact forest.static other static'
  · have unlinked := links (.siblings other) ⟨other, static', .inr rfl⟩
    rw [unlinked.1, unlinked.2]
    exact forest.ends other static'
  · refine forall_update (P := fun _ t => ∀ a b, t.Mem a → t.Mem b → flagSet (w'.state.resource a).flags kShared = true →
      flagSet (w'.state.resource b).flags kShared = true → (w'.state.resource a).start = (w'.state.resource b).start →
      (w'.state.resource a).range = (w'.state.resource b).range → a = b) unique
      fun other static' different a b left right => ?_
    rw [field other a static' different left, field other b static' different right]
    exact forest.unique other static' a b left right
  · refine forall_update (P := fun other t => ∀ r, t.Mem r → ¬ (w'.state.resource r).Crosses (boot.resource other).range)
      straight fun other static' different r member => ?_
    rw [field other r static' different member]
    exact forest.inside other static' r member

/-- A counter and the handles of a held region change together. -/
theorem Forest.recount (forest : Forest w trees n) {r : Rid} {refcount : UInt32} {held : Nat} (before : 0 < w.held r)
    (after : 0 < held) (same : refcount.toNat = held) :
    Forest ⟨w.state.setRefcount r refcount, Function.update w.held r held⟩ trees n := by
  have notRoot : ∀ root, IsRoot root → root ≠ r := by
    rintro root static rfl
    obtain ⟨other, static', member, different⟩ := (forest.members root).mp before
    exact different (forest.root_unique static' static member)
  refine forest.kept (fun x _ => ⟨rfl, rfl⟩) (fun root static => Function.update_of_ne (notRoot root static) _ _)
    (fun x _ => ?_) (fun x => ?_) (fun x left => ?_)
  · simp only [State.setRefcount, State.setResource, Function.update_apply]
    by_cases this : x = r
    · simp [this]
    · simp [this]
  · simp only [Function.update_apply]
    by_cases this : x = r
    · simp [this, before, after]
    · simp [this]
  · simp only [State.setRefcount, State.setResource, Function.update_apply] at left ⊢
    by_cases this : x = r
    · simp [this, same]
    · simp only [this, if_false] at left ⊢
      exact forest.count x left

/-- The memory of a resource that is not kept belongs to nobody. -/
theorem Forest.refused (forest : Forest w trees n) {addr : Nat} (unused : w.held (.heap addr) = 0) (start range : PhysAddr)
    (flags : Flags) : Forest (w.grant none (newResource w.state (.heap addr) start range flags)) trees n := by
  have other : ∀ r, IsRoot r ∨ 0 < w.held r → r ≠ .heap addr := by
    rintro r (static | held) rfl
    · exact heap_not_root addr static
    · omega
  have outside : ∀ r, IsRoot r ∨ 0 < w.held r →
      (newResource w.state (.heap addr) start range flags).resource r = w.state.resource r :=
    fun r known => newResource_other (other r known) start range flags
  refine forest.kept (fun x known => ?_) (fun root static => outside root (.inl static)) (fun r held => ?_)
    (fun r => Iff.rfl)
    (fun r held => ?_)
  · have untouched : x ≠ .siblings (.heap addr) ∧ x ≠ .children (.heap addr) := by
      obtain ⟨root, static, node | rfl⟩ := known
      · constructor
        · rintro rfl
          exact forest.fresh unused static (node_mem node)
        · rintro rfl
          exact forest.fresh unused static node
      · exact ⟨fun same => other root (.inl static) (Link.siblings.inj same), Link.noConfusion⟩
    exact newResource_links w.state start range flags untouched.1 untouched.2
  · change ((newResource w.state (.heap addr) start range flags).resource r).parent = _ ∧
      ((newResource w.state (.heap addr) start range flags).resource r).start = _ ∧
      ((newResource w.state (.heap addr) start range flags).resource r).range = _ ∧
      flagSet ((newResource w.state (.heap addr) start range flags).resource r).flags kShared = _
    rw [outside r (.inr held)]
    exact ⟨rfl, rfl, rfl, rfl⟩
  · change ((newResource w.state (.heap addr) start range flags).resource r).refcount.toNat = w.held r
    rw [outside r (.inr held)]
    exact forest.count r held

private theorem shared_new (flags : Flags) : flagSet (flags &&& ~~~kMapped) kShared = flagSet flags kShared := by
  have apart : flags &&& ~~~kMapped &&& kShared = flags &&& kShared := by
    rw [UInt32.and_assoc, show ~~~kMapped &&& kShared = kShared by decide]
  rw [flagSet, apart, flagSet]

private theorem Forest.unique_new (forest : Forest w trees n) {start range : PhysAddr} {flags : Flags} {addr :
    Nat} {q root : Rid}
    (static : IsRoot root) {s' : State}
    (alone : flagSet flags kShared = true → ∀ x, (trees root).Mem x → matchesShared start range
      (w.state.resource x) = false)
    (old : ∀ r, r ≠ .heap addr → s'.resource r = w.state.resource r)
    (new : s'.resource (.heap addr) = ⟨start, range, flags &&& ~~~kMapped, 1, some q⟩) {a b : Rid}
    (left : (trees root).Mem a ∨ a = .heap addr) (right : (trees root).Mem b ∨ b = .heap addr)
    (sharedA : flagSet (s'.resource a).flags kShared = true) (sharedB : flagSet (s'.resource b).flags kShared = true)
    (starts : (s'.resource a).start = (s'.resource b).start) (ranges : (s'.resource a).range = (s'.resource b).range) :
    a = b := by
  have lone : ∀ r, (trees root).Mem r → flagSet flags kShared = true → flagSet (w.state.resource r).flags kShared = true →
      start = (w.state.resource r).start → range ≠ (w.state.resource r).range := by
    intro r before wanted shared start range
    have none := alone wanted r before
    simp [matchesShared, shared, start, range] at none
  by_cases isNewA : a = .heap addr
  · by_cases isNewB : b = .heap addr
    · rw [isNewA, isNewB]
    · have before := right.resolve_right isNewB
      rw [isNewA, new, shared_new] at sharedA
      rw [old b isNewB] at sharedB starts ranges
      rw [isNewA, new] at starts ranges
      exact absurd ranges (lone b before sharedA sharedB starts)
  · have beforeA := left.resolve_right isNewA
    rw [old a isNewA] at sharedA starts ranges
    by_cases isNewB : b = .heap addr
    · rw [isNewB, new, shared_new] at sharedB
      rw [isNewB, new] at starts ranges
      exact absurd ranges.symm (lone a beforeA sharedB sharedA starts.symm)
    · have beforeB := right.resolve_right isNewB
      rw [old b isNewB] at sharedB starts ranges
      exact forest.unique root static a b beforeA beforeB sharedA sharedB starts ranges

/-- A region that is granted for the first time. -/
theorem Forest.granted (forest : Forest w trees n) {start range : PhysAddr} {flags : Flags} {addr : Nat}
    (unused : w.held (.heap addr) = 0) {root q : Rid} (static : IsRoot root) {xs ys : List Rid} {s' : State}
    (alone : flagSet flags kShared = true → ∀ x, (trees root).Mem x → matchesShared start range
      (w.state.resource x) = false)
    (clear : ∀ x, (trees root).Mem x → conflicts start range (w.state.resource x) = false)
    (added : Added (newResource w.state (.heap addr) start range flags) (trees root) (.heap addr) q xs ys s')
    (spared : Spares (trees root) (.heap addr) w.state s') :
    Forest (w.grant (some (.heap addr)) s') (Function.update trees root
      ((trees root).attach q xs ys (.heap addr) added.here added.member added.fresh)) (n + 1) := by
  have top := forest.top root static
  have mine : ∀ r, IsRoot r → r ≠ .heap addr := by
    rintro r static rfl
    exact heap_not_root addr static
  have fields := added.fields
  have old : ∀ r, r ≠ .heap addr → s'.resource r = w.state.resource r := fun r other => by rw [fields, if_neg other]
  have new : s'.resource (.heap addr) = ⟨start, range, flags &&& ~~~kMapped, 1, some q⟩ := by rw [fields, if_pos rfl]
  have heldOld : ∀ r, r ≠ .heap addr → (w.grant (some (.heap addr)) s').held r = w.held r :=
    fun r other => Function.update_of_ne other _ _
  have heldNew : (w.grant (some (.heap addr)) s').held (.heap addr) = 1 := by
    rw [World.grant]
    simp [unused]
  refine forest.replace static top added.represents (Tree.small_attach (forest.small root static)) n.le_succ
    (old root (mine root static)) (fun x known => ?_) (fun other r static' different member => ?_)
    (fun r member notRoot => ?_) (fun r held => ?_) (fun a b left right sharedA sharedB starts ranges => ?_)
    (fun r member => ?_)
  · obtain ⟨other, static', ⟨different, node⟩ | rfl⟩ := known
    · refine spared x (forest.elsewhere static static' different x node) ?_ ?_
      · rintro rfl
        exact forest.fresh unused static' (node_mem node)
      · rintro rfl
        exact forest.fresh unused static' node
    · exact spared _ (forest.root_unlisted static static') (fun same => mine other static' (Link.siblings.inj same))
        Link.noConfusion
  · have notNew : r ≠ .heap addr := fun same => forest.fresh unused static' (same ▸ member)
    refine ⟨old r notNew, heldOld r notNew, fun inside => ?_⟩
    rcases Tree.mem_attach.mp inside with before | same
    · exact different (forest.apart other root r static' static member before)
    · exact notNew same
  · rcases Tree.mem_attach.mp member with before | rfl
    · have notNew : r ≠ .heap addr := fun same => added.fresh (same ▸ before)
      have held := (forest.members r).mpr ⟨root, static, before, notRoot⟩
      rw [heldOld r notNew]
      change 0 < w.held r ∧ (s'.resource r).refcount.toNat = w.held r
      rw [old r notNew]
      exact ⟨held, forest.count r held⟩
    · rw [heldNew]
      change 0 < 1 ∧ (s'.resource (.heap addr)).refcount.toNat = 1
      rw [new]
      exact ⟨Nat.one_pos, rfl⟩
  · by_cases same : r = .heap addr
    · exact .inl ⟨Tree.mem_attach.mpr (.inr same), fun isRoot => mine root static (isRoot.symm.trans same)⟩
    · rw [heldOld r same] at held
      obtain ⟨other, static', member, notRoot⟩ := (forest.members r).mp held
      by_cases different : other = root
      · subst different
        exact .inl ⟨Tree.mem_attach.mpr (.inl member), notRoot⟩
      · exact .inr ⟨other, static', different, member, notRoot⟩
  · exact forest.unique_new static alone old new (Tree.mem_attach.mp left) (Tree.mem_attach.mp right) sharedA sharedB starts
      ranges
  · change ¬ (s'.resource r).Crosses _
    rcases Tree.mem_attach.mp member with before | rfl
    · rw [old r fun same => added.fresh (same ▸ before)]
      exact forest.inside root static r before
    · have free := clear root (forest.mem_root static)
      rw [forest.static root static] at free
      rw [new]
      rintro ⟨low, high⟩
      simp [conflicts, low, high] at free

theorem Forest.parent (forest : Forest w trees n) {r : Rid} (held : 0 < w.held r) :
    ∃ root q, IsRoot root ∧ r ≠ root ∧ r ∈ (trees root).kids q ∧ (w.state.resource r).parent = some q := by
  obtain ⟨root, static, member, notRoot⟩ := (forest.members r).mp held
  rcases Tree.mem_cases member with isRoot | ⟨q, _, child⟩
  · exact absurd (isRoot.trans (forest.top root static)) notRoot
  · exact ⟨root, q, static, notRoot, child, (forest.represents root static).parents q r child⟩

/-- A region is under the root that its parent is under. -/
theorem Forest.under_parent (forest : Forest w trees n) {root q r : Rid} (held : 0 < w.held r) (static : IsRoot root)
    (parent : (w.state.resource r).parent = some q) (above : w.state.Under root q) : w.state.Under root r := by
  obtain ⟨root', p, static', _, child, parent'⟩ := forest.parent held
  obtain rfl := Option.some.inj (parent'.symm.trans parent)
  have member := (forest.under_iff static).mp above
  obtain rfl := forest.apart root root' p static static' member ((trees root').reached child)
  exact (forest.under_iff static).mpr (Tree.mem_kid child)

/-- A release changes the rings of the region and of its parent. -/
private theorem detach_nodes {t : Base.Tree Rid} {q r : Rid} (child : r ∈ t.kids q) :
    ∀ x ∈ .children r :: nodes (t.kids r) ++ .children q :: nodes (t.kids q), Node t x := by
  intro x onRing
  simp only [nodes, List.cons_append, List.mem_cons, List.mem_append, List.mem_map] at onRing
  rcases onRing with rfl | ⟨k, inner, rfl⟩ | rfl | ⟨k, inner, rfl⟩
  · exact Tree.mem_kid child
  · exact ⟨r, inner⟩
  · exact t.reached child
  · exact ⟨q, inner⟩

private theorem Forest.released_unique (forest : Forest w trees n) {root q r : Rid} (static : IsRoot root) {s' : State}
    (fields : ∀ x, s'.resource x = if x = r then { w.state.resource r with refcount := 0 }
      else if x ∈ (trees root).kids r then { w.state.resource x with parent := some q } else w.state.resource x)
    {a b : Rid} (oldA : (trees root).Mem a) (oldB : (trees root).Mem b) (otherA : a ≠ r) (otherB : b ≠ r)
    (sharedA : flagSet (s'.resource a).flags kShared = true) (sharedB : flagSet (s'.resource b).flags kShared = true)
    (starts : (s'.resource a).start = (s'.resource b).start) (ranges : (s'.resource a).range = (s'.resource b).range) :
    a = b := by
  obtain ⟨startA, rangeA, flagsA, _⟩ := released_same fields otherA
  obtain ⟨startB, rangeB, flagsB, _⟩ := released_same fields otherB
  rw [startA, startB] at starts
  rw [rangeA, rangeB] at ranges
  rw [flagsA] at sharedA
  rw [flagsB] at sharedB
  exact forest.unique root static a b oldA oldB sharedA sharedB starts ranges

/-- A region whose last handle is released leaves its tree. -/
theorem Forest.released (forest : Forest w trees n) {root q r : Rid} {xs ys : List Rid} (static : IsRoot root)
    (here : (trees root).kids q = xs ++ r :: ys) (one : w.held r = 1) {s' : State}
    (represents : Represents s' ((trees root).detach q r xs ys here))
    (kept : AgreeOff (.children r :: nodes ((trees root).kids r) ++ .children q :: nodes ((trees root).kids q))
      w.state.links s'.links)
    (fields : ∀ x, s'.resource x = if x = r then { w.state.resource r with refcount := 0 }
      else if x ∈ (trees root).kids r then { w.state.resource x with parent := some q } else w.state.resource x) :
    Forest ⟨s', Function.update w.held r (w.held r - 1)⟩
      (Function.update trees root ((trees root).detach q r xs ys here)) n := by
  have top := forest.top root static
  have child : r ∈ (trees root).kids q := by simp [here]
  have member := Tree.mem_kid child
  have notRoot : root ≠ r := by
    intro isRoot
    have topmost : (trees root).root = r := top.trans isRoot
    exact (trees root).top q (topmost ▸ child)
  have left : ∀ x, x ≠ r → Function.update w.held r (w.held r - 1) x = w.held x :=
    fun x other => Function.update_of_ne other _ _
  have touched := detach_nodes child
  refine forest.replace static top represents (Tree.small_detach (forest.small root static)) (Nat.le_refl n) ?_
    (fun x known => kept x fun onRing => ?_) (fun other x static' different inside => ?_) (fun x inside notTop => ?_)
    (fun x held => ?_) (fun a b first second sharedA sharedB starts ranges => ?_) (fun x member => ?_)
  · have outside : root ∉ (trees root).kids r := fun inner => (trees root).top r (by rwa [top])
    change s'.resource root = w.state.resource root
    rw [fields, if_neg notRoot, if_neg outside]
  · have node := touched x onRing
    obtain ⟨other, static', ⟨different, mine⟩ | rfl⟩ := known
    · exact forest.elsewhere static static' different x mine node
    · exact forest.root_unlisted static static' node
  · have notR : x ≠ r := fun this => different (forest.apart other root x static' static inside (this ▸ member))
    have notKid : x ∉ (trees root).kids r :=
      fun inner => different (forest.apart other root x static' static inside (Tree.mem_kid inner))
    refine ⟨?_, left x notR, fun detached => ?_⟩
    · change s'.resource x = w.state.resource x
      rw [fields, if_neg notR, if_neg notKid]
    · exact different (forest.apart other root x static' static inside (Tree.mem_detach.mp detached).1)
  · obtain ⟨old, other⟩ := Tree.mem_detach.mp inside
    have held := (forest.members x).mpr ⟨root, static, old, notTop⟩
    change 0 < Function.update w.held r (w.held r - 1) x ∧
      (s'.resource x).refcount.toNat = Function.update w.held r (w.held r - 1) x
    rw [left x other, (released_same fields other).2.2.2]
    exact ⟨held, forest.count x held⟩
  · change 0 < Function.update w.held r (w.held r - 1) x at held
    have other : x ≠ r := by
      rintro rfl
      simp [one] at held
    rw [left x other] at held
    obtain ⟨root', static', inside, notTop⟩ := (forest.members x).mp held
    by_cases different : root' = root
    · subst different
      exact .inl ⟨Tree.mem_detach.mpr ⟨inside, other⟩, notTop⟩
    · exact .inr ⟨root', static', different, inside, notTop⟩
  · obtain ⟨oldA, otherA⟩ := Tree.mem_detach.mp first
    obtain ⟨oldB, otherB⟩ := Tree.mem_detach.mp second
    exact forest.released_unique static fields oldA oldB otherA otherB sharedA sharedB starts ranges
  · obtain ⟨old, other⟩ := Tree.mem_detach.mp member
    obtain ⟨start, range, _, _⟩ := released_same fields other
    change ¬ (s'.resource x).Crosses _
    rw [Resource.Crosses, start, range]
    exact forest.inside root static x old

/-- Activation sets a mark and nothing else. -/
theorem Forest.marked (forest : Forest w trees n) {r : Rid} (held : 0 < w.held r) :
    Forest ⟨w.state.setResource r { w.state.resource r with flags := (w.state.resource r).flags ||| kMapped }, w.held⟩
      trees n := by
  have shared : flagSet ((w.state.resource r).flags ||| kMapped) kShared = flagSet (w.state.resource r).flags kShared := by
    have split : ((w.state.resource r).flags ||| kMapped) &&& kShared =
        ((w.state.resource r).flags &&& kShared) ||| (kMapped &&& kShared) :=
      UInt32.toBitVec_inj.mp BitVec.and_or_distrib_right
    rw [flagSet, split, show kMapped &&& kShared = 0 by decide, UInt32.or_zero, flagSet]
  have notRoot : ∀ root, IsRoot root → root ≠ r := by
    rintro root static rfl
    obtain ⟨other, static', member, different⟩ := (forest.members root).mp held
    exact different (forest.root_unique static' static member)
  refine forest.kept (fun x _ => ⟨rfl, rfl⟩) (fun root static => Function.update_of_ne (notRoot root static) _ _)
    (fun x _ => ?_) (fun x => Iff.rfl) (fun x left => ?_)
  · simp only [State.setResource, Function.update_apply]
    by_cases this : x = r
    · simp [this, shared]
    · simp [this]
  · have count := forest.count x left
    simp only [State.setResource, Function.update_apply]
    by_cases this : x = r
    · subst this
      simpa using count
    · simpa [this] using count

private theorem root_unshared {root : Rid} (static : IsRoot root) : flagSet (boot.resource root).flags kShared = false := by
  rcases static with rfl | rfl <;> decide

/-- A shared request is answered with a child of the root, under which a region of its
interval lies. -/
theorem Forest.hit (forest : Forest w trees n) {root hit : Rid} (static : IsRoot root) {start range : PhysAddr}
    (answers : Answers w.state (trees root) (matchesShared start range) (trees root).root (some hit)) :
    hit ∈ (trees root).kids root ∧ ∃ x, Reach (trees root).kids hit x ∧
      matchesShared start range (w.state.resource x) = true := by
  rw [forest.top root static] at answers
  rcases answers with ⟨_, passes⟩ | found
  · have plain := root_unshared static
    rw [← forest.static root static] at plain
    simp [matchesShared, plain] at passes
  · exact found

theorem Forest.request (forest : Forest w trees n) (enough : n ≤ limit) {start size : UInt64} {flags : Flags} {addr : Nat}
    (unused : w.held (.heap addr) = 0) (few : flagSet flags kShared = true → ∀ hit,
      findShared limit w.state (rootFor flags) start (start + size) = some (some hit) → w.held hit + 1 < 2 ^ 32)
    {answer : Option Rid} {w' : World} (ran : (Event.request start size flags addr).exec limit w = some (answer, w')) :
    ∃ trees', Forest w' trees' (n + 1) := by
  have static := rootFor_isRoot flags
  have top := forest.top _ static
  obtain ⟨⟨granted, s'⟩, requested, ran⟩ := Option.bind_eq_some_iff.mp ran
  cases ran
  rcases requestRegion_cases start size (forest.represents _ static) (forest.small _ static) enough
    (forest.fresh unused static) top.symm with ⟨_, stuck⟩ | ⟨answer', s1, ran, outcome, spared, _⟩
  · rw [stuck (by rw [top]; exact (forest.ends _ static).1)] at requested
    cases requested
  · rw [ran] at requested
    cases requested
    cases outcome with
    | @shared hit wanted found answers =>
      have child := (forest.hit static answers).1
      have notRoot : hit ≠ rootFor flags := by
        rintro rfl
        exact Tree.not_mem_kids_self child
      have held := (forest.members hit).mpr ⟨_, static, Tree.mem_kid child, notRoot⟩
      have count := forest.count hit held
      refine ⟨trees, (forest.recount held (Nat.succ_pos _) ?_).mono n.le_succ⟩
      rw [UInt32.toNat_add, count, UInt32.toNat_one, Nat.mod_eq_of_lt (few wanted hit (top ▸ found))]
    | refused => exact ⟨trees, (forest.refused unused start (start + size) flags).mono n.le_succ⟩
    | granted alone clear _ added => exact ⟨_, forest.granted unused static alone clear added spared⟩

/-- With more handles than one, a release counts down. -/
theorem Forest.counts_down (forest : Forest w trees n) (limit : Nat) {r : Rid} (held : 0 < w.held r)
    (more : 1 < (w.state.resource r).refcount) :
    releaseRegion limit w.state r = some (some r, w.state.setRefcount r ((w.state.resource r).refcount - 1)) := by
  obtain ⟨_, _, _, _, _, parent⟩ := forest.parent held
  have bound := UInt32.lt_iff_toNat_lt.mp more
  rw [UInt32.toNat_one] at bound
  have many : ¬ (w.state.resource r).refcount < 2 := by
    rw [UInt32.lt_iff_toNat_lt, show (2 : UInt32).toNat = 2 from rfl]
    omega
  have left : (w.state.resource r).refcount - 1 ≠ 0 := by
    intro zero
    have value := congrArg UInt32.toNat zero
    rw [UInt32.toNat_sub_of_le _ _ (by
      rw [UInt32.le_iff_toNat_le, UInt32.toNat_one]
      omega), UInt32.toNat_one, UInt32.toNat_zero] at value
    omega
  simp [releaseRegion, releaseResource, parent, many, State.setRefcount, State.setResource, left]

/-- Where a region has exactly one child, its last release leaves the child on no list. -/
theorem Forest.release (forest : Forest w trees n) (enough : n ≤ limit) {r : Rid} (held : 0 < w.held r)
    (several : (w.state.resource r).refcount < 2 → ¬ OneChild w.state r) :
    ∃ answer w' trees', (Event.release r).exec limit w = some (answer, w') ∧ Forest w' trees' n := by
  obtain ⟨root, q, static, notRoot, child, parent⟩ := forest.parent held
  have count := forest.count r held
  have represents := forest.represents root static
  by_cases last : (w.state.resource r).refcount < 2
  · have one : w.held r = 1 := held_one count held last
    have plural : ((trees root).kids r).length ≠ 1 :=
      fun one => several last ((oneChild_iff represents (Tree.mem_kid child)).mpr one)
    obtain ⟨s', xs, ys, here, ran, represents', kept, fields⟩ :=
      releaseResource_spec represents (forest.small root static) enough child last plural
    have gone : (s'.resource r).refcount = 0 := by simp [fields]
    refine ⟨none, _, _, ?_, forest.released static here one represents' kept fields⟩
    simp [Event.exec, releaseRegion, ran, gone]
  · have many := UInt32.not_lt.mp last
    rw [UInt32.le_iff_toNat_le, show (2 : UInt32).toNat = 2 from rfl] at many
    have more : 1 < (w.state.resource r).refcount := by
      rw [UInt32.lt_iff_toNat_lt, UInt32.toNat_one]
      omega
    have less : ((w.state.resource r).refcount - 1).toNat = w.held r - 1 := by
      rw [UInt32.toNat_sub_of_le _ _ (by
        rw [UInt32.le_iff_toNat_le, UInt32.toNat_one]
        omega), UInt32.toNat_one, count]
    refine ⟨some r, _, trees, ?_, forest.recount held (by omega : 0 < w.held r - 1) less⟩
    simp [Event.exec, forest.counts_down limit held more]

end Steps

section Runs

variable {σ : Type} {pages : Virtmm.PageSource σ} {limit n : Nat} {trees : Rid → Base.Tree Rid} {x x' : System σ}

/-- What callers and `new` keep to, and the two steps after which the regions are no
trees with counts any more: the last release of a region with exactly one child, and
a shared request that makes the count of the region it is answered with wrap. -/
def Action.Clean (x : System σ) : Action → Prop
  | .call (.request start size flags addr) =>
    x.world.held (.heap addr) = 0 ∧ (flagSet flags kShared = true → ∀ limit hit,
      findShared limit x.world.state (rootFor flags) start (start + size) = some (some hit) →
      x.world.held hit + 1 < 2 ^ 32)
  | .call (.release r) =>
    0 < x.world.held r ∧ ((x.world.state.resource r).refcount < 2 → ¬ OneChild x.world.state r)
  | .activate r => 0 < x.world.held r

private theorem activate_state {s : State} {v : Virtmm.State σ} {r : Rid} {result : Activated σ}
    (ran : activateRegion pages limit s v r = some result) :
    result.state = s ∨ result.state = s.setResource r { s.resource r with flags := (s.resource r).flags ||| kMapped } := by
  unfold activateRegion at ran
  simp only at ran
  split at ran
  next =>
    cases ran
    exact .inl rfl
  next =>
    obtain ⟨mapped, _, ran⟩ := Option.bind_eq_some_iff.mp ran
    split at ran
    all_goals
      obtain ⟨window, _, ran⟩ := Option.bind_eq_some_iff.mp ran
      cases ran
      exact .inr rfl

theorem Forest.step (forest : Forest x.world trees n) (enough : n ≤ limit) {action : Action} (clean : action.Clean x)
    {answer : Bool} (ran : action.exec pages limit x = some (answer, x')) : ∃ trees', Forest x'.world trees' (n + 1) := by
  cases action with
  | call event =>
    obtain ⟨⟨granted, w'⟩, called, same⟩ := Option.map_eq_some_iff.mp ran
    cases same
    cases event with
    | request start size flags addr => exact forest.request enough clean.1 (fun wanted => clean.2 wanted limit) called
    | release r =>
      obtain ⟨answer', w1, trees', ran', forest'⟩ := forest.release enough clean.1 clean.2
      rw [ran'] at called
      cases called
      exact ⟨trees', forest'.mono n.le_succ⟩
  | activate r =>
    obtain ⟨result, activated, same⟩ := Option.map_eq_some_iff.mp ran
    cases same
    rcases activate_state activated with unchanged | marked
    · exact ⟨trees, by rw [unchanged]; exact forest.mono n.le_succ⟩
    · exact ⟨trees, by rw [marked]; exact (forest.marked clean).mono n.le_succ⟩

private theorem forest_initial : ∃ trees, Forest .initial trees 1 := by
  have valid : ∀ root, IsRoot root → Valid root .initial (Tree.leaf root) 1 := fun root static => initial_valid static
  have only : ∀ root r, (Tree.leaf root : Base.Tree Rid).Mem r → r = root := by
    intro root r member
    rcases Tree.mem_cases member with rfl | ⟨p, _, child⟩
    · rfl
    · exact absurd child List.not_mem_nil
  refine ⟨Tree.leaf, fun root _ => rfl, fun root static => (valid root static).represents,
    fun root static => (valid root static).small, fun a b r _ _ left right => (only a r left).symm.trans (only b r right),
    fun r => ⟨fun held => absurd held (Nat.lt_irrefl 0), ?_⟩, fun r held => absurd held (Nat.lt_irrefl 0),
      fun root _ => rfl,
    fun root static => ?_, fun root _ a b left right _ _ _ _ => (only root a left).trans (only root b right).symm,
    fun root _ r member crosses => ?_⟩
  · rintro ⟨root, _, member, notRoot⟩
    exact absurd (only root r member) notRoot
  · rcases static with rfl | rfl <;> exact ⟨rfl, rfl⟩
  · rw [only root r member] at crosses
    exact UInt64.lt_irrefl _ crosses.2

/-- Every run of clean steps ends in a forest. -/
theorem run_forest {virt : Virtmm.State σ} {actions : List Action} (enough : actions.length < limit)
    (clean : EachStep (Action.exec pages limit) Action.Clean ⟨.initial, virt⟩ actions)
    (reached : runCalls (Action.exec pages limit) ⟨.initial, virt⟩ actions = some x) :
    ∃ trees, Forest x.world trees (actions.length + 1) := by
  have kept : ∀ n (x : System σ) (action : Action) answer x', n < limit → (∃ trees, Forest x.world trees n) →
      action.Clean x → action.exec pages limit x = some (answer, x') → ∃ trees, Forest x'.world trees (n + 1) := by
    rintro n x action answer x' enough ⟨trees, forest⟩ clean ran
    exact forest.step (Nat.le_of_lt enough) clean ran
  have start : ∃ trees, Forest (⟨.initial, virt⟩ : System σ).world trees 1 := forest_initial
  have counted := run_counts kept start (by omega) clean reached
  rwa [Nat.add_comm] at counted

/-- What is left of `Clean` while no count can wrap yet. -/
def Action.Tame (x : System σ) : Action → Prop
  | .call (.request _ _ _ addr) => x.world.held (.heap addr) = 0
  | .call (.release r) => 0 < x.world.held r ∧ ((x.world.state.resource r).refcount < 2 → ¬ OneChild x.world.state r)
  | .activate r => 0 < x.world.held r

instance (x : System σ) : (action : Action) → Decidable (action.Tame x)
  | .call (.request ..) => inferInstanceAs (Decidable (_ = _))
  | .call (.release _) => inferInstanceAs (Decidable (_ ∧ _))
  | .activate _ => inferInstanceAs (Decidable (_ < _))

private theorem exec_held_le {action : Action} {answer : Bool} (ran : action.exec pages limit x = some (answer, x'))
    (few : ∀ r, x.world.held r ≤ n) (r : Rid) : x'.world.held r ≤ n + 1 := by
  have before := few r
  cases action with
  | call event =>
    obtain ⟨result, called, same⟩ := Option.map_eq_some_iff.mp ran
    cases same
    cases event with
    | request start size flags addr =>
      obtain ⟨⟨granted, s'⟩, _, same⟩ := Option.bind_eq_some_iff.mp called
      cases same
      cases granted with
      | none => exact before.trans n.le_succ
      | some hit =>
        simp only [World.grant, Function.update_apply]
        split
        next this => exact this ▸ Nat.succ_le_succ before
        next => exact before.trans n.le_succ
    | release m =>
      obtain ⟨⟨handle, s'⟩, _, same⟩ := Option.bind_eq_some_iff.mp called
      cases same
      simp only [Function.update_apply]
      split
      next this =>
        subst this
        omega
      next => exact before.trans n.le_succ
  | activate m =>
    obtain ⟨result, _, same⟩ := Option.map_eq_some_iff.mp ran
    cases same
    exact before.trans n.le_succ

theorem clean_of_short {actions : List Action} (few : ∀ r, x.world.held r ≤ n) (short : n + actions.length < 2 ^ 32)
    (tame : EachStep (Action.exec pages limit) Action.Tame x actions) :
    EachStep (Action.exec pages limit) Action.Clean x actions := by
  induction actions generalizing x n with
  | nil => trivial
  | cons action actions ih =>
    obtain ⟨first, rest⟩ := tame
    rw [List.length_cons] at short
    refine ⟨?_, ?_⟩
    · cases action with
      | call event =>
        cases event with
        | request start size flags addr =>
          refine ⟨first, fun _ _ hit _ => ?_⟩
          have before := few hit
          omega
        | release r => exact first
      | activate r => exact first
    · cases ran : action.exec pages limit x with
      | none => trivial
      | some result =>
        rw [ran] at rest
        exact ih (exec_held_le ran few) (by omega) rest

end Runs

end Hotarubi.Memory.Mmio
