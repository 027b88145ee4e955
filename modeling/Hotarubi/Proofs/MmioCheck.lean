import Hotarubi.Proofs.MmioExclusive

/-! The overlap test. Its three comparisons are all there is to two intervals that are
neither apart nor one inside the other. -/

namespace Hotarubi.Memory.Mmio
open Base

/-- A resource does not stand in the way of a request: they share no address, or the
request lies inside it and it is not busy. -/
def Resource.Clear (n : Resource) (start range : PhysAddr) : Prop :=
  (range ≤ n.start ∨ n.range ≤ start) ∨ n.start ≤ start ∧ range ≤ n.range ∧ flagSet n.flags kBusy = false

private theorem conflicts_eq_false_iff {n : Resource} {start range : PhysAddr} (nonempty : n.start < n.range)
    (order : start < range) :
    conflicts start range n = false ↔ n.Clear start range := by
  rw [UInt64.lt_iff_toNat_lt] at nonempty order
  simp only [conflicts, Resource.Clear, Bool.or_eq_false_iff, Bool.and_eq_false_iff, decide_eq_false_iff_not, gt_iff_lt,
    ge_iff_le, UInt64.lt_iff_toNat_lt, UInt64.le_iff_toNat_le]
  cases flagSet n.flags kBusy with
  | false =>
    simp only [or_true, and_true]
    omega
  | true =>
    simp only [Bool.true_eq_false, or_false, and_false]
    omega

/-- `_check_resource` answers with null if and only if no resource of the tree stands in
the way, and else with its start or the child of it under which one does. -/
theorem check_resource_iff {s : State} {t : Base.Tree Rid} (represents : Represents s t) {n limit : Nat} (small : t.Small n)
    (enough : n ≤ limit) (nonempty : ∀ r, t.Mem r → (s.resource r).start < (s.resource r).range) {start range : PhysAddr}
    (order : start < range) :
    ∃ answer, checkResource limit s t.root start range = some answer ∧
      (answer = none ↔ ∀ r, t.Mem r → (s.resource r).Clear start range) ∧
      ∀ c, answer = some c → (c = t.root ∧ ¬(s.resource t.root).Clear start range) ∨
        c ∈ t.kids t.root ∧ ∃ r, Reach t.kids c r ∧ ¬(s.resource r).Clear start range := by
  have clear : ∀ r, t.Mem r → (conflicts start range (s.resource r) = false ↔ (s.resource r).Clear start range) :=
    fun r member => conflicts_eq_false_iff (nonempty r member) order
  have shallow := Tree.shallow_mono enough small.shallow
  obtain ⟨answer, walked, answers⟩ :=
    walkResources_spec represents small enough (conflicts start range) t.mem_root shallow
  have hit : ∀ r, t.Mem r → conflicts start range (s.resource r) = true → ¬(s.resource r).Clear start range := by
    intro r member conflict free
    rw [(clear r member).mpr free] at conflict
    cases conflict
  refine ⟨answer, walked, ?_, ?_⟩
  · cases answer with
    | none => exact iff_of_true rfl fun r member => (clear r member).mp (answers r member)
    | some c =>
      refine iff_of_false (fun none => nomatch none) fun all => ?_
      rcases answers with ⟨_, conflict⟩ | ⟨child, r, reach, conflict⟩
      · exact hit t.root t.mem_root conflict (all t.root t.mem_root)
      · have member : t.Mem r := Relation.ReflTransGen.trans (Tree.mem_kid child) reach
        exact hit r member conflict (all r member)
  · rintro c rfl
    rcases answers with ⟨same, conflict⟩ | ⟨child, r, reach, conflict⟩
    · exact .inl ⟨same, hit t.root t.mem_root conflict⟩
    · have member : t.Mem r := Relation.ReflTransGen.trans (Tree.mem_kid child) reach
      exact .inr ⟨child, r, reach, hit r member conflict⟩

/-- A region with another region inside of it, which is busy. -/
def nested : World :=
  (run 9 .initial [.request 0x1000 0x4000 kIOMem 1, .request 0x2000 0x1000 (kIOMem ||| kBusy) 2]).get (by decide +kernel)

private theorem nested_tree : ∃ t, Counted .memRoot nested t 3 := by
  let events : List Event := [.request 0x1000 0x4000 kIOMem 1, .request 0x2000 0x1000 (kIOMem ||| kBusy) 2]
  have each : EachStep (Event.exec 9) (fun w event => event.Promised .memRoot w ∧ event.Separate w) .initial
      (events ++ [.request 0x2800 0x100 kIOMem 3]) := by decide +kernel
  obtain ⟨w, reached, counted, _⟩ := run_counted (.inl rfl : Rid.memRoot = .memRoot ∨ Rid.memRoot = .portRoot) (by decide)
    (each.mono fun w event kept => ⟨kept.1, careful_of_separate kept.2⟩)
  have same : nested = w := Option.some.inj ((Option.some_get _).trans reached)
  exact same ▸ counted

/-- Nothing stands in the way at the root or at its child, and the busy region below does. -/
theorem check_resource_iff_witness : ∃ t : Base.Tree Rid, t.root = .memRoot ∧ Represents nested.state t ∧
    checkResource 9 nested.state .memRoot 0x2800 0x2900 = some (some (.heap 1)) ∧
    (nested.state.resource (.heap 1)).Clear 0x2800 0x2900 ∧
    Rid.heap 1 ∈ t.kids .memRoot ∧ ∃ r, Reach t.kids (.heap 1) r ∧ ¬(nested.state.resource r).Clear 0x2800 0x2900 := by
  obtain ⟨t, counted⟩ := nested_tree
  have valid := counted.valid
  have walked : checkResource 9 nested.state .memRoot 0x2800 0x2900 = some (some (.heap 1)) := by decide +kernel
  have order : (0x2800 : PhysAddr) < 0x2900 := by decide
  obtain ⟨answer, ran, _, below⟩ :=
    check_resource_iff valid.represents valid.small (by decide : 3 ≤ 9) valid.nonempty order
  rw [valid.top] at ran below
  obtain rfl := Option.some.inj (walked.symm.trans ran)
  refine ⟨t, valid.top, valid.represents, walked, ?_, (below (.heap 1) rfl).resolve_left fun top => by cases top.1⟩
  exact .inr ⟨by decide +kernel, by decide +kernel, by decide +kernel⟩

end Hotarubi.Memory.Mmio
