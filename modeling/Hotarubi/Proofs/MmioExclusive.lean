import Hotarubi.Proofs.MmioRuns

/-! Exclusive claims. The overlap test sees every region below the root, so a
busy region stays protected as long as every step keeps every held region there. -/

namespace Hotarubi.Memory.Mmio
open Base Ring Include

/-- The intervals share an address. -/
def overlaps (n : Resource) (start range : PhysAddr) : Prop := start < n.range ∧ n.start < range

instance (n : Resource) (start range : PhysAddr) : Decidable (overlaps n start range) :=
  inferInstanceAs (Decidable (_ ∧ _))

/-- A busy region that was granted and has not been released. -/
def World.Claimed (w : World) (b : Rid) : Prop := 0 < w.held b ∧ flagSet (w.state.resource b).flags kBusy = true

/-- A request is not granted a region other than the busy one it overlaps. -/
def Event.Exclusive (limit : Nat) (w : World) : Event → Prop
  | .request start size flags addr => ∀ granted w',
    (Event.request start size flags addr).exec limit w = some (some granted, w') →
      ∀ b, w.Claimed b → overlaps (w.state.resource b) start (start + size) → granted = b
  | .release _ => True

/-- The steps that keep the claims: the last handle of a region is not released
while the region has exactly one child, and a shared request whose interval is that
of a live shared region meets no busy region but that one, which then lies directly
below the root; a region is handed out at most `2 ^ 32 - 1` times. -/
def Event.Careful (limit : Nat) (root : Rid) (w : World) : Event → Prop
  | .request start size flags _ => flagSet flags kShared = true →
    (∀ m, 0 < w.held m → matchesShared start (start + size) (w.state.resource m) = true →
      ∀ b, w.Claimed b → overlaps (w.state.resource b) start (start + size) →
        b = m ∧ (w.state.resource b).parent = some root) ∧
    ∀ hit, findShared limit w.state root start (start + size) = some (some hit) → w.held hit + 1 < 2 ^ 32
  | .release r => (w.state.resource r).refcount < 2 → ¬ OneChild w.state r

/-- The regions are a tree and each counts its handles. -/
structure Counted (root : Rid) (w : World) (t : Base.Tree Rid) (n : Nat) : Prop where
  valid : Valid root w t n
  count : ∀ r, t.Mem r → r ≠ root → (w.state.resource r).refcount.toNat = w.held r

private theorem conflicts_of_overlap {n : Resource} {start range : PhysAddr} (busy : flagSet n.flags kBusy = true)
    (overlap : overlaps n start range) :
    conflicts start range n = true := by
  obtain ⟨left, right⟩ := overlap
  simp only [conflicts, busy, Bool.and_true, Bool.or_eq_true, Bool.and_eq_true, decide_eq_true_eq, gt_iff_lt, ge_iff_le,
    UInt64.lt_iff_toNat_lt, UInt64.le_iff_toNat_le] at *
  omega

section Steps

variable {root : Rid} {w : World} {t : Base.Tree Rid} {n limit : Nat}

theorem end_after_start {start size : UInt64} (positive : 0 < size) (straight : start.toNat + size.toNat < 2 ^ 64) :
    start < start + size := by
  rw [UInt64.lt_iff_toNat_lt] at positive ⊢
  rw [UInt64.toNat_add, Nat.mod_eq_of_lt straight]
  have : (0 : UInt64).toNat = 0 := rfl
  omega

theorem child_of_root (top : t.root = root) {hit x : Rid} (first : hit ∈ t.kids root) (second : x ∈ t.kids root)
    (reach : Reach t.kids hit x) : hit = x := by
  cases reach with
  | refl => rfl
  | tail above child =>
    obtain rfl := t.single child second
    exfalso
    cases above with
    | refl => exact t.top _ (top ▸ first)
    | tail _ below => exact t.top _ (top ▸ below)

private theorem Counted.fresh_kept (counted : Counted root w t n) {s' : State} {r : Rid} (member : t.Mem r)
    (other : r ≠ root)
    (same : s'.resource r = w.state.resource r) : (s'.resource r).refcount.toNat = w.held r := by
  rw [same]
  exact counted.count r member other

private theorem request_counted {start size : UInt64} {flags : Flags} {addr : Nat} (enough : n < limit)
    (counted : Counted root w t n) (promised : (Event.request start size flags addr).Promised root w)
    (careful : (Event.request start size flags addr).Careful limit root w) :
    ∃ answer w', (Event.request start size flags addr).exec limit w = some (answer, w') ∧
      ∃ t, Counted root w' t (n + 1) := by
  have valid := counted.valid
  have unused := promised.2.2.2.2.2
  have fresh := valid.fresh unused
  have order := end_after_start promised.2.1 promised.2.2.1
  have untouched : ∀ r, t.Mem r → r ≠ .heap addr := by
    rintro r member rfl
    exact fresh member
  obtain ⟨answer, s', ran, outcome⟩ := requestRegion_spec valid (Nat.le_of_lt enough) promised
  refine ⟨answer, w.grant answer s', by simp [Event.exec, ran], ?_⟩
  cases outcome with
  | @shared hit wanted found answers =>
    have child := (shared_hit valid answers).1
    have member := Tree.mem_kid child
    have other : hit ≠ root := fun same => t.top root (by rw [valid.top]; exact same ▸ child)
    refine ⟨t, (valid.recount ?_).mono n.le_succ, fun r inside notRoot => ?_⟩
    · simp [member, other]
    · simp only [World.grant, State.setRefcount, State.setResource, Function.update_apply]
      by_cases same : r = hit
      · subst same
        have bound := (careful wanted).2 r (by rw [← valid.top]; exact found)
        have value := counted.count r inside notRoot
        rw [if_pos rfl, if_pos rfl, UInt32.toNat_add, value, UInt32.toNat_one,
          Nat.mod_eq_of_lt bound]
      · rw [if_neg same, if_neg same]
        exact counted.count r inside notRoot
  | refused =>
    refine ⟨t, (valid.refused fresh _).mono n.le_succ, fun r inside notRoot => ?_⟩
    exact counted.fresh_kept inside notRoot (newResource_other (untouched r inside) _ _ _)
  | granted _ _ _ added =>
    refine ⟨_, valid.granted unused order added, fun r inside notRoot => ?_⟩
    simp only [World.grant, added.fields, Function.update_apply]
    rcases Tree.mem_attach.mp inside with old | rfl
    · rw [if_neg (untouched r old), if_neg (untouched r old)]
      exact counted.count r old notRoot
    · rw [if_pos rfl, if_pos rfl, unused]
      rfl

theorem held_one {r : Rid} (count : (w.state.resource r).refcount.toNat = w.held r) (positive : 0 < w.held r)
    (last : (w.state.resource r).refcount < 2) : w.held r = 1 := by
  have bound := UInt32.lt_iff_toNat_lt.mp last
  rw [show (2 : UInt32).toNat = 2 from rfl] at bound
  omega

private theorem release_counted {r : Rid} (enough : n < limit) (counted : Counted root w t n)
    (promised : (Event.release r).Promised root w) (careful : (Event.release r).Careful limit root w) :
    ∃ answer w', (Event.release r).exec limit w = some (answer, w') ∧ ∃ t, Counted root w' t (n + 1) := by
  have valid := counted.valid
  obtain ⟨member, notRoot⟩ := (valid.members r).mp promised
  have count := counted.count r member notRoot
  have positive : 0 < w.held r := promised
  by_cases last : (w.state.resource r).refcount < 2
  · have one : w.held r = 1 := held_one count positive last
    obtain ⟨s', t', ran, valid', fields⟩ := valid.released (Nat.le_of_lt enough) one last (careful last)
    refine ⟨none, _, by simp [Event.exec, ran], t', valid'.mono n.le_succ, fun x inside other => ?_⟩
    obtain ⟨old, different, same⟩ := fields x inside
    simp only [Function.update_of_ne different, same]
    exact counted.count x old other
  · have ran := releaseRegion_shared limit valid member notRoot last
    have many : 2 ≤ (w.state.resource r).refcount.toNat := by
      have bound := UInt32.not_lt.mp last
      rwa [UInt32.le_iff_toNat_le] at bound
    refine ⟨some r, ⟨w.state.setRefcount r ((w.state.resource r).refcount - 1), Function.update w.held r (w.held r - 1)⟩,
      by simp [Event.exec, ran], t, (valid.recount ?_).mono n.le_succ, fun x inside other => ?_⟩
    · simp only [member, ne_eq, notRoot, not_false_eq_true, and_self, iff_true]
      omega
    · simp only [State.setRefcount, State.setResource, Function.update_apply]
      by_cases same : x = r
      · subst same
        rw [if_pos rfl, if_pos rfl, UInt32.toNat_sub_of_le _ _ (by
          rw [UInt32.le_iff_toNat_le, UInt32.toNat_one]
          omega), UInt32.toNat_one, count]
      · rw [if_neg same, if_neg same]
        exact counted.count x inside other

private theorem counted_exclusive {event : Event} (enough : n < limit) (counted : Counted root w t n)
    (promised : event.Promised root w) (careful : event.Careful limit root w) : event.Exclusive limit w := by
  cases event with
  | release r => trivial
  | request start size flags addr =>
    have valid := counted.valid
    have top := valid.top
    intro granted w' executed b claimed overlap
    obtain ⟨answer, s', ran, outcome⟩ := requestRegion_spec valid (Nat.le_of_lt enough) promised
    obtain rfl : answer = some granted := by
      simp only [Event.exec, ran, Option.bind_eq_bind, Option.bind_some, Option.some.injEq, Prod.mk.injEq] at executed
      exact executed.1
    obtain ⟨inside, notRoot⟩ := (valid.members b).mp claimed.1
    cases outcome with
    | shared wanted _ answers =>
      obtain ⟨child, x, reach, matched⟩ := shared_hit valid answers
      have member : t.Mem x := Relation.ReflTransGen.trans (Tree.mem_kid child) reach
      have other : x ≠ root := by
        rintro rfl
        cases reach with
        | refl => exact t.top _ (top ▸ child)
        | tail _ step => exact t.top _ (top ▸ step)
      obtain ⟨rfl, parent⟩ := (careful wanted).1 x ((valid.members x).mpr ⟨member, other⟩) matched b claimed overlap
      rcases Tree.mem_cases member with isRoot | ⟨p, _, below⟩
      · exact absurd (isRoot.trans top) other
      · rw [valid.represents.parents p b below] at parent
        cases parent
        exact child_of_root top child below reach
    | granted _ clear _ _ =>
      have conflict := conflicts_of_overlap claimed.2 overlap
      rw [clear b inside] at conflict
      cases conflict

end Steps

private theorem exec_counted {root : Rid} {limit n : Nat} {w : World} {event : Event} (enough : n < limit)
    (counted : ∃ t, Counted root w t n) (careful : event.Promised root w ∧ event.Careful limit root w) :
    ∃ answer w', event.exec limit w = some (answer, w') ∧ ∃ t, Counted root w' t (n + 1) := by
  obtain ⟨t, counted⟩ := counted
  cases event with
  | request start size flags addr => exact request_counted enough counted careful.1 careful.2
  | release r => exact release_counted enough counted careful.1 careful.2

theorem run_counted {root : Rid} (static : root = .memRoot ∨ root = .portRoot) {limit : Nat} {events : List Event}
    {event : Event} (enough : events.length < limit)
    (permitted : EachStep (Event.exec limit) (fun w event => event.Promised root w ∧ event.Careful limit root w) .initial
      (events ++ [event])) :
    ∃ w, run limit .initial events = some w ∧ (∃ t, Counted root w t (1 + events.length)) ∧
      event.Promised root w ∧ event.Careful limit root w := by
  have start : ∃ t, Counted root .initial t 1 := by
    refine ⟨_, initial_valid static, fun r member other => ?_⟩
    rcases Tree.mem_cases member with same | ⟨p, _, child⟩
    · exact absurd same other
    · exact absurd child List.not_mem_nil
  exact run_total (fun _ _ _ => exec_counted) start (by omega) permitted

/-- In every run of careful calls a busy region that was granted and not released
is the only region that a request for an overlapping interval may be granted. -/
theorem exclusive_claims {root : Rid} (static : root = .memRoot ∨ root = .portRoot) {limit : Nat} {events : List Event}
    {event : Event} (enough : events.length + 1 < limit)
    (permitted : EachStep (Event.exec limit) (fun w event => event.Promised root w ∧ event.Careful limit root w) .initial
      (events ++ [event])) :
    ∃ w, run limit .initial events = some w ∧ (∃ answer w', event.exec limit w = some (answer, w')) ∧
      event.Exclusive limit w := by
  obtain ⟨w, reached, counted, promised, careful⟩ := run_counted static (by omega) permitted
  obtain ⟨answer, w', ran, _⟩ := exec_counted (by omega) counted ⟨promised, careful⟩
  obtain ⟨t, counted⟩ := counted
  exact ⟨w, reached, ⟨answer, w', ran⟩, counted_exclusive (by omega) counted promised careful⟩

/-- The condition for callers that share nothing. -/
def Event.Separate (w : World) : Event → Prop
  | .request _ _ flags _ => flagSet flags kShared = false
  | .release r => ¬ OneChild w.state r

instance (w : World) (event : Event) : Decidable (event.Separate w) :=
  match event with
  | .request .. => inferInstanceAs (Decidable (_ = _))
  | .release _ => inferInstanceAs (Decidable (¬ _))

theorem careful_of_separate {limit : Nat} {root : Rid} {w : World} {event : Event} (separate : event.Separate w) :
    event.Careful limit root w := by
  cases event with
  | request start size flags addr =>
    intro wanted
    rw [show flagSet flags kShared = false from separate] at wanted
    cases wanted
  | release r => exact fun _ => separate

/-- A region with two children is released, and both of them stay protected. -/
theorem exclusive_claims_witness :
    let events : List Event := [.request 0 0x1000 kIOMem 1, .request 0 0x800 (kIOMem ||| kBusy) 2,
      .request 0x900 0x100 (kIOMem ||| kBusy) 3, .release (.heap 1)]
    ∃ w, run 9 .initial events = some w ∧
      (∃ answer w', (Event.request 0x940 0x10 (kIOMem ||| kBusy) 4).exec 9 w = some (answer, w')) ∧
        (Event.request 0x940 0x10 (kIOMem ||| kBusy) 4).Exclusive 9 w := by
  intro events
  have each : EachStep (Event.exec 9) (fun w event => event.Promised .memRoot w ∧ event.Separate w) .initial
      (events ++ [.request 0x940 0x10 (kIOMem ||| kBusy) 4]) := by decide +kernel
  exact exclusive_claims (.inl rfl) (by decide)
    (each.mono fun w event kept => ⟨kept.1, careful_of_separate kept.2⟩)

/-- The list of children is spliced only if it has at least two elements: the
single child of a released region is lost, and its interval is granted again. -/
theorem exclusive_claims_broken : ¬ ∀ (limit : Nat) (events : List Event) (event : Event) (w : World),
    EachStep (Event.exec limit) (fun w event => event.Promised .memRoot w) .initial (events ++ [event]) →
      run limit .initial events = some w → event.Exclusive limit w := by
  intro claim
  let events : List Event :=
    [.request 0 0x1000 kIOMem 1, .request 0 0x800 (kIOMem ||| kBusy) 2, .release (.heap 1)]
  let again : Event := .request 0 0x800 (kIOMem ||| kBusy) 3
  have permitted : EachStep (Event.exec 9) (fun w event => event.Promised .memRoot w) .initial (events ++ [again]) := by
    decide +kernel
  let w := (run 9 .initial events).get (by decide +kernel)
  have answered : (again.exec 9 w).map Prod.fst = some (some (.heap 3)) := by decide +kernel
  obtain ⟨⟨answer, w'⟩, executed, rfl⟩ := Option.map_eq_some_iff.mp answered
  have same : Rid.heap 3 = .heap 2 := claim 9 events again w permitted (Option.some_get _).symm _ w' executed
    (.heap 2) ⟨by decide +kernel, by decide +kernel⟩ (by decide +kernel)
  cases same

end Hotarubi.Memory.Mmio
