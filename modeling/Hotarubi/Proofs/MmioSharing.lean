import Hotarubi.Proofs.MmioExclusive
import Hotarubi.Proofs.MmioForest

/-! Requests for a shared region that is there. The search for it is right, but what it
hands up the tree is the child it went into, not the region it found. -/

namespace Hotarubi.Memory.Mmio
open Base

section Search

variable {w : World} {trees : Rid → Base.Tree Rid} {limit n : Nat}

/-- The search answers with the child of the root that the region lies under. -/
theorem Forest.search_shared (forest : Forest w trees n) (enough : n ≤ limit) {root m : Rid} (static : IsRoot root)
    (member : (trees root).Mem m) {start range : PhysAddr} (found : matchesShared start range (w.state.resource m) = true) :
    ∃ hit, findShared limit w.state root start range = some (some hit) ∧ hit ∈ (trees root).kids root ∧
      Reach (trees root).kids hit m := by
  have small := forest.small root static
  obtain ⟨answer, walked, answers⟩ := walkResources_spec (forest.represents root static) small enough
    (matchesShared start range) (trees root).mem_root (Tree.shallow_mono enough small.shallow)
  have above : Reach (trees root).kids (trees root).root m := member
  cases answer with
  | none =>
    have missed := answers m above
    rw [found] at missed
    cases missed
  | some hit =>
    obtain ⟨child, x, reach, passes⟩ := forest.hit static answers
    rw [forest.top root static] at walked
    refine ⟨hit, walked, child, ?_⟩
    have inside : (trees root).Mem x := Relation.ReflTransGen.trans (Tree.mem_kid child) reach
    simp only [matchesShared, Bool.and_eq_true, decide_eq_true_eq] at found passes
    obtain ⟨⟨starts, ranges⟩, shared⟩ := found
    obtain ⟨⟨starts', ranges'⟩, shared'⟩ := passes
    have same := forest.unique root static x m inside member shared' shared (starts'.symm.trans starts)
      (ranges'.symm.trans ranges)
    exact same ▸ reach

/-- A region is the child it was found under if and only if its parent is the root. -/
theorem Forest.found_iff (forest : Forest w trees n) {root hit m : Rid} (static : IsRoot root)
    (child : hit ∈ (trees root).kids root) (reach : Reach (trees root).kids hit m) :
    hit = m ↔ (w.state.resource m).parent = some root := by
  have represents := forest.represents root static
  have top := forest.top root static
  constructor
  · rintro rfl
    exact represents.parents root hit child
  · intro parent
    have member : (trees root).Mem m := Relation.ReflTransGen.trans (Tree.mem_kid child) reach
    rcases Tree.mem_cases member with isRoot | ⟨q, _, kid⟩
    · rw [isRoot, represents.top] at parent
      cases parent
    · rw [represents.parents q m kid] at parent
      obtain rfl := Option.some.inj parent
      exact child_of_root top child kid reach

end Search

section Runs

variable {σ : Type} {pages : Virtmm.PageSource σ} {virt : Virtmm.State σ} {limit : Nat}
  {actions : List Action} {x x' : System σ}

private theorem held_after_releases {r : Rid} {k : Nat}
    (clean : EachStep (Action.exec pages limit) Action.Clean x (List.replicate k (.call (.release r))))
    (reached : runCalls (Action.exec pages limit) x (List.replicate k (.call (.release r))) = some x') :
    x'.world.held r + k = x.world.held r := by
  induction k generalizing x with
  | zero =>
    cases reached
    rfl
  | succ k ih =>
    rw [List.replicate_succ] at clean reached
    obtain ⟨⟨held, _⟩, rest⟩ := clean
    obtain ⟨⟨answer, x1⟩, ran, later⟩ := Option.bind_eq_some_iff.mp reached
    rw [ran] at rest
    have left := ih rest later
    obtain ⟨result, called, same⟩ := Option.map_eq_some_iff.mp ran
    cases same
    obtain ⟨⟨handle, s'⟩, _, same⟩ := Option.bind_eq_some_iff.mp called
    cases same
    simp only [Function.update_self] at left
    omega

/-- A request for a shared region that is there is answered with it and counted there if
and only if it is a child of the root whose count does not wrap. A region of so many
grants is there before so many releases and gone after them. -/
theorem shared_request_iff (clean : EachStep (Action.exec pages limit) Action.Clean ⟨.initial, virt⟩ actions)
    (reached : runCalls (Action.exec pages limit) ⟨.initial, virt⟩ actions = some x) (enough : actions.length < limit) :
    (∀ (start size : UInt64) (flags : Flags) (addr : Nat) (m : Rid), flagSet flags kShared = true →
      x.world.state.Under (rootFor flags) m → flagSet (x.world.state.resource m).flags kShared = true →
      (x.world.state.resource m).start = start → (x.world.state.resource m).range = start + size →
      ∃ answer s', requestRegion limit x.world.state start size flags (.heap addr) = some (answer, s') ∧
        ((answer = some m ∧ s' = x.world.state.setRefcount m ((x.world.state.resource m).refcount + 1) ∧
            (s'.resource m).refcount.toNat = (x.world.state.resource m).refcount.toNat + 1) ↔
          (x.world.state.resource m).parent = some (rootFor flags) ∧
            (x.world.state.resource m).refcount.toNat + 1 < 2 ^ 32)) ∧
    (∀ r, 0 < x.world.held r → (x.world.state.resource r).refcount.toNat = x.world.held r) ∧
    ∀ r k x', actions.length + k < limit →
      EachStep (Action.exec pages limit) Action.Clean x (List.replicate k (.call (.release r))) →
      runCalls (Action.exec pages limit) x (List.replicate k (.call (.release r))) = some x' →
      ((∃ root, IsRoot root ∧ x'.world.state.Under root r ∧ r ≠ root) ↔ k < x.world.held r) := by
  obtain ⟨trees, forest⟩ := run_forest enough clean reached
  refine ⟨fun start size flags addr m wanted live shared starts ranges => ?_, forest.count,
    fun r k x' enough' released last => ?_⟩
  · have static := rootFor_isRoot flags
    have passes : matchesShared start (start + size) (x.world.state.resource m) = true := by
      simp [matchesShared, shared, starts, ranges]
    obtain ⟨hit, found, child, reach⟩ := forest.search_shared enough static ((forest.under_iff static).mp live) passes
    refine ⟨some hit, x.world.state.setRefcount hit ((x.world.state.resource hit).refcount + 1), ?_, ?_⟩
    · simp [requestRegion, wanted, found]
    rw [← forest.found_iff static child reach]
    constructor
    · rintro ⟨same, _, counted⟩
      obtain rfl := Option.some.inj same
      refine ⟨rfl, ?_⟩
      rw [← counted]
      exact UInt32.toNat_lt _
    · rintro ⟨rfl, room⟩
      refine ⟨rfl, rfl, ?_⟩
      simp only [State.setRefcount, State.setResource, Function.update_self]
      rw [UInt32.toNat_add, UInt32.toNat_one, Nat.mod_eq_of_lt room]
  · have whole := eachStep_append.mpr ⟨clean, fun w same => Option.some.inj (reached.symm.trans same) ▸ released⟩
    have run : runCalls (Action.exec pages limit) ⟨.initial, virt⟩
      (actions ++ List.replicate k (.call (.release r))) = some x' := by
      rw [runCalls_append reached, last]
    obtain ⟨trees', forest'⟩ := run_forest (by simpa using enough') whole run
    have left := held_after_releases released last
    rw [← forest'.live_iff]
    omega

end Runs

section Examples

/-- A shared region below the root, and one more request for it. -/
theorem shared_request_iff_witness :
    let actions : List Action := [.call (.request 0x2000 0x1000 (kIOMem ||| kShared) 1),
      .call (.request 0x2000 0x1000 (kIOMem ||| kShared) 2)]
    ∃ x, runCalls execPhysmm ⟨.initial, windowTables⟩ actions = some x ∧
      (∃ answer s', requestRegion 9 x.world.state 0x2000 0x1000 (kIOMem ||| kShared) (.heap 3) = some (answer, s') ∧
        ((answer = some (.heap 1) ∧
            s' = x.world.state.setRefcount (.heap 1) ((x.world.state.resource (.heap 1)).refcount + 1) ∧
            (s'.resource (.heap 1)).refcount.toNat = (x.world.state.resource (.heap 1)).refcount.toNat + 1) ↔
          (x.world.state.resource (.heap 1)).parent = some .memRoot ∧
            (x.world.state.resource (.heap 1)).refcount.toNat + 1 < 2 ^ 32)) ∧
      ∃ x', runCalls execPhysmm x [.call (.release (.heap 1))] = some x' ∧
        ((∃ root, IsRoot root ∧ x'.world.state.Under root (.heap 1) ∧ .heap 1 ≠ root) ↔ 1 < x.world.held (.heap 1)) := by
  intro actions
  let world := (runCalls execPhysmm ⟨.initial, windowTables⟩ actions).get (by decide +kernel)
  have whole : EachStep execPhysmm Action.Clean ⟨.initial, windowTables⟩ (actions ++ [.call (.release (.heap 1))]) :=
    clean_of_short (fun _ => Nat.le_refl 0) (by decide) (by decide +kernel)
  obtain ⟨clean, later⟩ := eachStep_append.mp whole
  have reached : runCalls execPhysmm ⟨.initial, windowTables⟩ actions = some world := (Option.some_get _).symm
  obtain ⟨requests, _, presence⟩ := shared_request_iff clean reached (by decide)
  obtain ⟨trees, forest⟩ := run_forest (by decide : actions.length < 9) clean reached
  have live := forest.under_parent (r := .heap 1) (by decide +kernel) (.inl rfl : IsRoot .memRoot) (by decide +kernel) .refl
  refine ⟨world, reached, ?_, _, (Option.some_get (by decide +kernel)).symm, ?_⟩
  · apply requests 0x2000 0x1000 (kIOMem ||| kShared) 3 (.heap 1) (by decide) live
    · decide +kernel
    · decide +kernel
    · decide +kernel
  · apply presence (.heap 1) 1 _ (by decide) (later world reached)
    exact (Option.some_get _).symm

/-- A shared region inside another region: the request for it is answered with the outer one. -/
theorem shared_request_misdirected : ¬ ∀ (actions : List Action) (start size : UInt64) (flags : Flags) (addr : Nat)
    (m : Rid) (x : System Physmm.State), actions.length < 9 →
    EachStep execPhysmm Action.Clean ⟨.initial, windowTables⟩ actions →
    runCalls execPhysmm ⟨.initial, windowTables⟩ actions = some x → flagSet flags kShared = true →
    x.world.state.Under (rootFor flags) m → flagSet (x.world.state.resource m).flags kShared = true →
    (x.world.state.resource m).start = start → (x.world.state.resource m).range = start + size →
    ∃ s', requestRegion 9 x.world.state start size flags (.heap addr) = some (some m, s') ∧
      s' = x.world.state.setRefcount m ((x.world.state.resource m).refcount + 1) := by
  intro claim
  let actions : List Action := [.call (.request 0x1000 0x3000 kIOMem 1),
    .call (.request 0x2000 0x1000 (kIOMem ||| kShared) 2)]
  let x := (runCalls execPhysmm ⟨.initial, windowTables⟩ actions).get (by decide +kernel)
  have reached : runCalls execPhysmm ⟨.initial, windowTables⟩ actions = some x := (Option.some_get _).symm
  have clean : EachStep execPhysmm Action.Clean ⟨.initial, windowTables⟩ actions :=
    clean_of_short (fun _ => Nat.le_refl 0) (by decide) (by decide +kernel)
  obtain ⟨trees, forest⟩ := run_forest (by decide : actions.length < 9) clean reached
  have outer := forest.under_parent (r := .heap 1) (by decide +kernel) (.inl rfl : IsRoot .memRoot)
    (by decide +kernel) .refl
  have inner := forest.under_parent (r := .heap 2) (by decide +kernel) (.inl rfl) (by decide +kernel) outer
  obtain ⟨s', ran, _⟩ := claim actions 0x2000 0x1000 (kIOMem ||| kShared) 3 (.heap 2) x (by decide) clean reached
    (by decide)
    inner (by decide +kernel) (by decide +kernel) (by decide +kernel)
  have answered : (requestRegion 9 x.world.state 0x2000 0x1000 (kIOMem ||| kShared) (.heap 3)).map Prod.fst =
      some (some (.heap 1)) := by decide +kernel
  rw [ran] at answered
  cases answered

end Examples

end Hotarubi.Memory.Mmio
