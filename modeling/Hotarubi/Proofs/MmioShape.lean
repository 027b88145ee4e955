import Hotarubi.Proofs.MmioExclusive

/-! The shape of the resource tree under requests: every region lies inside its
parent and siblings share no address. Both hold as long as the walk along first
children leads to the innermost region around the request. -/

namespace Hotarubi.Memory.Mmio
open Base Ring Include

def contains (n : Resource) (start range : PhysAddr) : Prop := n.start ≤ start ∧ range ≤ n.range

/-- The intervals share nothing, not even an end point. -/
def apart (n : Resource) (start range : PhysAddr) : Prop := range < n.start ∨ n.range < start

/-- One interval ends where the other begins. -/
def touches (n : Resource) (start range : PhysAddr) : Prop := n.range = start ∨ range = n.start

instance (n : Resource) (start range : PhysAddr) : Decidable (contains n start range) :=
  inferInstanceAs (Decidable (_ ∧ _))

instance (n : Resource) (start range : PhysAddr) : Decidable (apart n start range) :=
  inferInstanceAs (Decidable (_ ∨ _))

/-- Every region lies inside its parent, and siblings share no address. -/
structure World.Shaped (w : World) : Prop where
  nested : ∀ r, 0 < w.held r → ∃ p, (w.state.resource r).parent = some p ∧
    contains (w.state.resource p) (w.state.resource r).start (w.state.resource r).range
  disjoint : ∀ r k, 0 < w.held r → 0 < w.held k → r ≠ k → (w.state.resource r).parent = (w.state.resource k).parent →
    ¬ overlaps (w.state.resource r) (w.state.resource k).start (w.state.resource k).range

/-- `r` lies below `p` in the tree that the parent pointers make. -/
def State.Descends (s : State) (r p : Rid) : Prop :=
  Relation.TransGen (fun child parent => (s.resource child).parent = some parent) r p

/-- Where a region that a request creates belongs: below every region around the
request, and beside a region it touches if the parent of that region is the innermost one. -/
structure World.Placed (root : Rid) (w : World) (start range : PhysAddr) (new : Rid) (s' : State) : Prop where
  below : ∀ m, m = root ∨ 0 < w.held m → contains (w.state.resource m) start range → s'.Descends new m
  beside : ∀ m p, 0 < w.held m → touches (w.state.resource m) start range → (w.state.resource m).parent = some p →
    contains (w.state.resource p) start range →
    (∀ k, 0 < w.held k → (w.state.resource k).parent = some p → ¬ contains (w.state.resource k) start range) →
    (s'.resource new).parent = (s'.resource m).parent

def Event.WellPlaced (limit : Nat) (root : Rid) (w : World) : Event → Prop
  | .request start size flags addr => ∀ w',
    (Event.request start size flags addr).exec limit w = some (some (.heap addr), w') →
      w.Placed root start (start + size) (.heap addr) w'.state
  | .release _ => True

/-- A request that gets a new region finds, in every region around it that has
children, either that the first child is around it as well, or that the first child
is apart from it and no other child is around it. -/
def Event.Fits (root : Rid) (w : World) : Event → Prop
  | .request start size flags _ =>
    (∀ x, x = root ∨ 0 < w.held x → conflicts start (start + size) (w.state.resource x) = false) →
    (flagSet flags kShared = true → ∀ x, 0 < w.held x → matchesShared start (start + size) (w.state.resource x) = false) →
    ∀ p c, p = root ∨ 0 < w.held p → contains (w.state.resource p) start (start + size) →
      w.state.links.next (.children p) = some (.siblings c) →
      contains (w.state.resource c) start (start + size) ∨
      apart (w.state.resource c) start (start + size) ∧
        ∀ k, 0 < w.held k → (w.state.resource k).parent = some p →
          ¬ contains (w.state.resource k) start (start + size)
  | .release _ => False

/-- The shape of the tree itself. -/
structure Nested (s : State) (t : Base.Tree Rid) : Prop where
  inside : ∀ p k, k ∈ t.kids p → contains (s.resource p) (s.resource k).start (s.resource k).range
  disjoint : ∀ p k k', k ∈ t.kids p → k' ∈ t.kids p → k ≠ k' →
    ¬ overlaps (s.resource k) (s.resource k').start (s.resource k').range

theorem contains_trans {a b : Resource} {start range : PhysAddr} (outer : contains a b.start b.range)
    (inner : contains b start range) : contains a start range := by
  obtain ⟨low, high⟩ := outer
  obtain ⟨low', high'⟩ := inner
  exact ⟨UInt64.le_trans low low', UInt64.le_trans high' high⟩

private theorem overlaps_of_contains {a b : Resource} {start range : PhysAddr} (order : start < range)
    (left : contains a start range) (right : contains b start range) : overlaps a b.start b.range := by
  simp only [contains, overlaps, UInt64.lt_iff_toNat_lt, UInt64.le_iff_toNat_le] at *
  omega

private theorem contains_of_overlap {n : Resource} {start range : PhysAddr} (overlap : overlaps n start range)
    (clear : conflicts start range n = false) : contains n start range := by
  obtain ⟨left, right⟩ := overlap
  simp only [conflicts, contains, Bool.or_eq_false_iff, Bool.and_eq_false_iff, decide_eq_false_iff_not, gt_iff_lt,
    UInt64.lt_iff_toNat_lt, UInt64.le_iff_toNat_le] at *
  omega

private theorem overlaps_symm {a b : Resource} (overlap : overlaps a b.start b.range) : overlaps b a.start a.range :=
  ⟨overlap.2, overlap.1⟩

section Tree

variable {s : State} {t : Base.Tree Rid} {start range : PhysAddr}

theorem Nested.reach (nested : Nested s t) {p x : Rid} (reach : Reach t.kids p x)
    (inner : contains (s.resource x) start range) : contains (s.resource p) start range := by
  induction reach with
  | refl => exact inner
  | tail _ child ih => exact ih (contains_trans (nested.inside _ _ child) inner)

theorem Nested.congr (nested : Nested s t) {s' : State} (same : ∀ x, t.Mem x →
    (s'.resource x).start = (s.resource x).start ∧ (s'.resource x).range = (s.resource x).range) : Nested s' t := by
  constructor
  · intro p k child
    rw [contains, (same p (t.reached child)).1, (same p (t.reached child)).2, (same k (Tree.mem_kid child)).1,
      (same k (Tree.mem_kid child)).2]
    exact nested.inside p k child
  · intro p k k' child child' other
    rw [overlaps, (same k (Tree.mem_kid child)).1, (same k (Tree.mem_kid child)).2,
      (same k' (Tree.mem_kid child')).1, (same k' (Tree.mem_kid child')).2]
    exact nested.disjoint p k k' child child' other

/-- The condition of a request at one region of the tree. -/
def Chosen (s : State) (t : Base.Tree Rid) (start range : PhysAddr) (p : Rid) : Prop :=
  ∀ c rest, t.kids p = c :: rest → contains (s.resource c) start range ∨
    apart (s.resource c) start range ∧ ∀ k ∈ t.kids p, ¬ contains (s.resource k) start range

/-- The walk ends at the innermost region around the request: it is around it, none
of its children is, and every other region around the request is above it. -/
private theorem lands_innermost (nested : Nested s t) (order : start < range) {created : State} {new : Rid}
    (same : ∀ x, t.Mem x → created.resource x = s.resource x) (request : (created.resource new).start = start)
    (bound : (created.resource new).range = range)
    (chosen : ∀ p, t.Mem p → contains (s.resource p) start range → Chosen s t start range p) {p q : Rid}
    (member : t.Mem p) (around : contains (s.resource p) start range) (lands : Lands created t new p q) :
    contains (s.resource q) start range ∧ (∀ k ∈ t.kids q, ¬ contains (s.resource k) start range) ∧
      ∀ x, Reach t.kids p x → contains (s.resource x) start range → Reach t.kids x q := by
  induction lands with
  | @beside p q sibling child =>
    exfalso
    rw [possibleSibling, same p member, request, bound] at sibling
    simp only [contains, Bool.or_eq_true, decide_eq_true_eq, gt_iff_lt, UInt64.lt_iff_toNat_lt,
      UInt64.le_iff_toNat_le] at *
    omega
  | @first p inner empty =>
    refine ⟨around, fun k child => ?_, fun x reach _ => ?_⟩
    · rw [empty] at child
      cases child
    · rcases Relation.ReflTransGen.cases_head reach with rfl | ⟨k, child, _⟩
      · exact .refl
      · rw [empty] at child
        cases child
  | @deeper p c q rest inner kids lands ih =>
    have child : c ∈ t.kids p := kids ▸ List.mem_cons_self
    have kid := Tree.mem_kid child
    rcases chosen p member around c rest kids with holds | ⟨away, none⟩
    · obtain ⟨target, innermost, above⟩ := ih kid holds
      refine ⟨target, innermost, fun x reach holder => ?_⟩
      rcases Relation.ReflTransGen.cases_head reach with rfl | ⟨k, child', rest'⟩
      · exact .head child (above c .refl holds)
      · have through : k = c := by
          by_contra other
          exact nested.disjoint p k c child' child other
            (overlaps_of_contains order (nested.reach rest' holder) holds)
        exact above x (through ▸ rest') holder
    · have sibling : possibleSibling (created.resource c) (created.resource new) = true := by
        simpa [possibleSibling, same c kid, request, bound, apart] using away
      have here : q = p := by
        cases lands with
        | beside _ child' => exact t.single child' child
        | first inner' _ =>
          rw [sibling] at inner'
          cases inner'
        | deeper inner' _ _ =>
          rw [sibling] at inner'
          cases inner'
      subst here
      refine ⟨around, none, fun x reach holder => ?_⟩
      rcases Relation.ReflTransGen.cases_head reach with rfl | ⟨k, child', rest'⟩
      · exact .refl
      · exact absurd (nested.reach rest' holder) (none k child')

private theorem descends_of_reach (represents : Represents s t) {p x r : Rid} (reach : Reach t.kids p x)
    (child : r ∈ t.kids x) :
    s.Descends r p := by
  induction reach generalizing r with
  | refl => exact .single (represents.parents _ _ child)
  | tail _ step ih => exact .head (represents.parents _ _ child) (ih step)

end Tree

section Requests

variable {root : Rid} {w : World} {t : Base.Tree Rid} {n limit : Nat} {start size : UInt64} {flags : Flags} {addr : Nat}

/-- In terms of the regions that are held, the children of a region are those
whose parent pointer names it. -/
private theorem Valid.kid_iff (valid : Valid root w t n) {p k : Rid} :
    k ∈ t.kids p ↔ 0 < w.held k ∧ (w.state.resource k).parent = some p := by
  constructor
  · intro child
    refine ⟨(valid.members k).mpr ⟨Tree.mem_kid child, ?_⟩, valid.represents.parents p k child⟩
    rintro rfl
    exact t.top p (valid.top ▸ child)
  · rintro ⟨held, parent⟩
    obtain ⟨member, notRoot⟩ := (valid.members k).mp held
    rcases Tree.mem_cases member with isRoot | ⟨q, _, child⟩
    · exact absurd (isRoot.trans valid.top) notRoot
    · rw [valid.represents.parents q k child] at parent
      cases parent
      exact child

theorem Valid.mem_iff (valid : Valid root w t n) {r : Rid} : t.Mem r ↔ r = root ∨ 0 < w.held r := by
  rw [valid.members r]
  by_cases same : r = root
  · simp [same, valid.top ▸ t.mem_root]
  · simp [same]

private theorem shaped_of_nested (valid : Valid root w t n) (nested : Nested w.state t) : w.Shaped := by
  constructor
  · intro r held
    obtain ⟨member, notRoot⟩ := (valid.members r).mp held
    rcases Tree.mem_cases member with isRoot | ⟨p, _, child⟩
    · exact absurd (isRoot.trans valid.top) notRoot
    · exact ⟨p, valid.represents.parents p r child, nested.inside p r child⟩
  · intro r k held held' other siblings
    obtain ⟨member, notRoot⟩ := (valid.members r).mp held
    rcases Tree.mem_cases member with isRoot | ⟨p, _, child⟩
    · exact absurd (isRoot.trans valid.top) notRoot
    · rw [valid.represents.parents p r child] at siblings
      exact nested.disjoint p r k child (valid.kid_iff.mpr ⟨held', siblings.symm⟩) other

private theorem chosen_of_fits (valid : Valid root w t n) (fits : (Event.request start size flags addr).Fits root w)
    (clear : ∀ x, t.Mem x → conflicts start (start + size) (w.state.resource x) = false)
    (alone : flagSet flags kShared = true → ∀ x, t.Mem x →
      matchesShared start (start + size) (w.state.resource x) = false) {p : Rid} (member : t.Mem p)
    (around : contains (w.state.resource p) start (start + size)) : Chosen w.state t start (start + size) p := by
  intro c rest kids
  have first : w.state.links.next (.children p) = some (.siblings c) := by
    have next := path_next (valid.represents.rings p member).path
    rwa [kids] at next
  rcases fits (fun x live => clear x (valid.mem_iff.mpr live))
    (fun wanted x held => alone wanted x (valid.mem_iff.mpr (.inr held))) p c (valid.mem_iff.mp member) around first with
    holds | ⟨away, none⟩
  · exact .inl holds
  · refine .inr ⟨away, fun k child => ?_⟩
    obtain ⟨held, parent⟩ := valid.kid_iff.mp child
    exact none k held parent

private theorem nested_granted (nested : Nested w.state t) {q : Rid} {xs ys : List Rid} {range : PhysAddr} {s' : State}
    (clear : ∀ x, t.Mem x → conflicts start range (w.state.resource x) = false)
    (around : contains (w.state.resource q) start range)
    (innermost : ∀ k ∈ t.kids q, ¬ contains (w.state.resource k) start range)
    (added : Added (newResource w.state (.heap addr) start range flags) t (.heap addr) q xs ys s') :
    Nested s' (t.attach q xs ys (.heap addr) added.here added.member added.fresh) := by
  have self : s'.resource (.heap addr) = ⟨start, range, flags &&& ~~~kMapped, 1, some q⟩ := by
    rw [added.fields, if_pos rfl]
  have old : ∀ x, t.Mem x → s'.resource x = w.state.resource x := by
    intro x member
    rw [added.fields, if_neg]
    rintro rfl
    exact added.fresh member
  have beside : ∀ k ∈ t.kids q, ¬ overlaps (w.state.resource k) start range := by
    intro k child overlap
    exact innermost k child (contains_of_overlap overlap (clear k (Tree.mem_kid child)))
  constructor
  · intro p k child
    rcases Tree.mem_kids_attach.mp child with kid | ⟨rfl, rfl⟩
    · rw [old p (t.reached kid), old k (Tree.mem_kid kid)]
      exact nested.inside p k kid
    · rw [old p added.member, self]
      exact around
  · intro p k k' child child' other overlap
    rcases Tree.mem_kids_attach.mp child with kid | ⟨rfl, rfl⟩
    · rcases Tree.mem_kids_attach.mp child' with kid' | ⟨rfl, rfl⟩
      · rw [old k (Tree.mem_kid kid), old k' (Tree.mem_kid kid')] at overlap
        exact nested.disjoint p k k' kid kid' other overlap
      · rw [old k (Tree.mem_kid kid), self] at overlap
        exact beside k kid overlap
    · rcases Tree.mem_kids_attach.mp child' with kid' | ⟨_, rfl⟩
      · have turned := overlaps_symm overlap
        rw [old k' (Tree.mem_kid kid'), self] at turned
        exact beside k' kid' turned
      · exact other rfl

private theorem placed_granted (valid : Valid root w t n) (nested : Nested w.state t) {q : Rid} {xs ys : List Rid}
    {range : PhysAddr} {s' : State} (around : contains (w.state.resource q) start range)
    (above : ∀ x, t.Mem x → contains (w.state.resource x) start range → Reach t.kids x q)
    (added : Added (newResource w.state (.heap addr) start range flags) t (.heap addr) q xs ys s') :
    w.Placed root start range (.heap addr) s' := by
  have grows : ∀ {x}, Reach t.kids x q →
      Reach (t.attach q xs ys (.heap addr) added.here added.member added.fresh).kids x q :=
    reach_mono fun a b old => Tree.mem_kids_attach.mpr (.inl old)
  constructor
  · intro m live holder
    have reach := above m (valid.mem_iff.mpr live) holder
    exact descends_of_reach added.represents (grows reach) (Tree.mem_kids_attach.mpr (.inr ⟨rfl, rfl⟩))
  · intro m p held _ parent holder none
    have child := valid.kid_iff.mpr ⟨held, parent⟩
    have here : p = q := by
      rcases Relation.ReflTransGen.cases_head (above p (t.reached child) holder) with same | ⟨k, step, rest⟩
      · exact same
      · obtain ⟨held', parent'⟩ := valid.kid_iff.mp step
        exact absurd (nested.reach rest around) (none k held' parent')
    subst here
    have other : m ≠ .heap addr := by
      rintro rfl
      exact added.fresh (Tree.mem_kid child)
    rw [added.fields, added.fields, if_pos rfl, if_neg other, parent]

private theorem request_shaped (valid : Valid root w t n) (nested : Nested w.state t) (enough : n < limit)
    (promised : (Event.request start size flags addr).Promised root w)
    (fits : (Event.request start size flags addr).Fits root w) :
    ∃ answer w', (Event.request start size flags addr).exec limit w = some (answer, w') ∧
      (∃ t, Valid root w' t (n + 1) ∧ Nested w'.state t) ∧
        (Event.request start size flags addr).WellPlaced limit root w := by
  have unused := promised.2.2.2.2.2
  have fresh := valid.fresh unused
  have order := end_after_start promised.2.1 promised.2.2.1
  have untouched : ∀ x, t.Mem x →
      (newResource w.state (.heap addr) start (start + size) flags).resource x = w.state.resource x := by
    intro x member
    refine newResource_other ?_ _ _ _
    rintro rfl
    exact fresh member
  obtain ⟨answer, s', ran, outcome⟩ := requestRegion_spec valid (Nat.le_of_lt enough) promised
  have executed : (Event.request start size flags addr).exec limit w = some (answer, w.grant answer s') := by
    simp [Event.exec, ran]
  refine ⟨answer, w.grant answer s', executed, ?_⟩
  have given : ∀ w', (Event.request start size flags addr).exec limit w = some (some (.heap addr), w') →
      answer = some (.heap addr) ∧ w'.state = s' := by
    intro w' again
    rw [executed] at again
    cases again
    exact ⟨rfl, rfl⟩
  cases outcome with
  | @shared hit _ _ answers =>
    have child := (shared_hit valid answers).1
    have member := Tree.mem_kid child
    have other : hit ≠ root := fun same => t.top root (by rw [valid.top]; exact same ▸ child)
    refine ⟨⟨t, (valid.recount (by simp [member, other])).mono n.le_succ, nested.congr fun x _ => ?_⟩, fun w' again => ?_⟩
    · simp only [World.grant, State.setRefcount, State.setResource, Function.update_apply]
      split
      next same =>
        rw [same]
        exact ⟨rfl, rfl⟩
      next => exact ⟨rfl, rfl⟩
    · obtain ⟨same, _⟩ := given w' again
      cases same
      exact absurd member fresh
  | refused =>
    refine ⟨⟨t, (valid.refused fresh _).mono n.le_succ, nested.congr fun x member => ?_⟩, fun w' again => ?_⟩
    · exact ⟨congrArg Resource.start (untouched x member), congrArg Resource.range (untouched x member)⟩
    · cases (given w' again).1
  | @granted q xs ys s' alone clear lands added =>
    have inside : contains (w.state.resource root) start (start + size) := ⟨promised.2.2.2.1, promised.2.2.2.2.1⟩
    have self := newResource_self w.state (.heap addr) start (start + size) flags
    obtain ⟨around, innermost, above⟩ := lands_innermost nested order untouched (by rw [self]) (by rw [self])
      (fun p member holder => chosen_of_fits valid fits clear alone member holder) t.mem_root
      (valid.top ▸ inside) lands
    refine ⟨⟨_, valid.granted unused order added, nested_granted nested clear around innermost added⟩, fun w' again => ?_⟩
    rw [(given w' again).2]
    exact placed_granted valid nested around (fun x member holder => above x member holder) added

end Requests

/-- In every run of requests that fit, the regions are nested and siblings are
disjoint, and a new region is where it belongs. -/
theorem tree_shape {root : Rid} (static : root = .memRoot ∨ root = .portRoot) {limit : Nat} {events : List Event}
    {event : Event} (enough : events.length + 1 < limit)
    (permitted : EachStep (Event.exec limit) (fun w event => event.Promised root w ∧ event.Fits root w) .initial
      (events ++ [event])) :
    ∃ w, run limit .initial events = some w ∧ w.Shaped ∧
      (∃ answer w', event.exec limit w = some (answer, w') ∧ w'.Shaped) ∧ event.WellPlaced limit root w := by
  have step : ∀ n w (event : Event), n < limit → (∃ t, Valid root w t n ∧ Nested w.state t) →
      event.Promised root w ∧ event.Fits root w → ∃ answer w', event.exec limit w = some (answer, w') ∧
        (∃ t, Valid root w' t (n + 1) ∧ Nested w'.state t) ∧ event.WellPlaced limit root w := by
    rintro n w event enough ⟨t, valid, nested⟩ ⟨promised, fits⟩
    cases event with
    | request start size flags addr => exact request_shaped valid nested enough promised fits
    | release r => exact fits.elim
  have start : ∃ t, Valid root .initial t 1 ∧ Nested World.initial.state t :=
    ⟨_, initial_valid static, fun _ _ child => absurd child List.not_mem_nil,
      fun _ _ _ child => absurd child List.not_mem_nil⟩
  obtain ⟨w, reached, ⟨t, valid, nested⟩, allowed⟩ := run_total
    (fun n w event enough invariant kept => by
      obtain ⟨answer, w', ran, invariant', _⟩ := step n w event enough invariant kept
      exact ⟨answer, w', ran, invariant'⟩) start (by omega) permitted
  obtain ⟨answer, w', ran, ⟨t', valid', nested'⟩, placed⟩ := step _ w event (by omega) ⟨t, valid, nested⟩ allowed
  exact ⟨w, reached, shaped_of_nested valid nested, ⟨answer, w', ran, shaped_of_nested valid' nested'⟩, placed⟩

private theorem fits_initial {root : Rid} (static : root = .memRoot ∨ root = .portRoot) (start size : UInt64)
    (flags : Flags)
    (addr : Nat) : (Event.request start size flags addr).Fits root .initial := by
  intro _ _ p c live _ first
  rcases live with rfl | held
  · rcases static with rfl | rfl <;> cases first
  · cases held

private theorem held_of_exec {limit : Nat} {w w' : World} {start size : UInt64} {flags : Flags} {addr : Nat}
    {answer : Option Rid} (ran : (Event.request start size flags addr).exec limit w = some (answer, w')) :
    w'.held = (w.grant answer w'.state).held := by
  simp only [Event.exec, Option.bind_eq_bind, Option.bind_eq_some_iff, Option.some.injEq, Prod.mk.injEq] at ran
  obtain ⟨_, _, rfl, rfl⟩ := ran
  rfl

/-- A region inside the first one is requested next. -/
theorem tree_shape_witness :
    let outer : Event := .request 0 0x1000 kIOMem 1
    let inner : Event := .request 0x100 0x100 (kIOMem ||| kBusy) 2
    ∃ w, run 9 .initial [outer] = some w ∧ w.Shaped ∧
      (∃ answer w', inner.exec 9 w = some (answer, w') ∧ w'.Shaped) ∧ inner.WellPlaced 9 .memRoot w := by
  intro outer inner
  refine tree_shape (.inl rfl) (by decide) ⟨⟨by decide +kernel, fits_initial (.inl rfl) _ _ _ _⟩, ?_⟩
  have promised : EachStep (Event.exec 9) (fun w event => event.Promised .memRoot w) .initial [outer, inner] := by
    decide +kernel
  have links : (outer.exec 9 .initial).map (fun result => (result.1, result.2.state.links.next (.children .memRoot),
      result.2.state.links.next (.children (.heap 1)), decide (contains (result.2.state.resource (.heap 1)) 0x100 0x200))) =
      some (some (.heap 1), some (.siblings (.heap 1)), some (.children (.heap 1)), true) := by decide +kernel
  obtain ⟨⟨answer, w⟩, ran, facts⟩ := Option.map_eq_some_iff.mp links
  simp only [Prod.mk.injEq, decide_eq_true_eq] at facts
  obtain ⟨rfl, ofRoot, ofOuter, around⟩ := facts
  have second := promised.2
  rw [ran] at second ⊢
  refine ⟨⟨second.1, ?_⟩, ?_⟩
  · intro _ _ p c live _ first
    have only : p = .memRoot ∨ p = .heap 1 := by
      apply live.imp_right
      intro held
      by_contra other
      rw [held_of_exec ran] at held
      simp [World.grant, World.initial, Function.update_of_ne other] at held
    rcases only with rfl | rfl
    · rw [ofRoot] at first
      cases first
      exact .inl around
    · rw [ofOuter] at first
      cases first
  · cases inner.exec 9 w <;> trivial

/-- Where one interval ends the next one begins: the second region becomes a child of the first. -/
theorem tree_shape_broken : ¬ ∀ (limit : Nat) (events : List Event) (w : World),
    EachStep (Event.exec limit) (fun w event => event.Promised .memRoot w) .initial events →
      run limit .initial events = some w →
      w.Shaped := by
  intro claim
  let events : List Event := [.request 0 0x1000 kIOMem 1, .request 0x1000 0x1000 kIOMem 2]
  have permitted : EachStep (Event.exec 9) (fun w event => event.Promised .memRoot w) .initial events := by decide +kernel
  let w := (run 9 .initial events).get (by decide +kernel)
  have shaped := claim 9 events w permitted (Option.some_get _).symm
  obtain ⟨p, parent, inside⟩ := shaped.nested (.heap 2) (by decide +kernel)
  have wrong : (w.state.resource (.heap 2)).parent = some (.heap 1) := by decide +kernel
  rw [wrong] at parent
  cases parent
  exact absurd inside (by decide +kernel)

end Hotarubi.Memory.Mmio
