import Hotarubi.Proofs.MmioSharing

/-! Requests for addresses behind the end of the root. Nothing tests for them: they are
refused where a comparison with some resource happens to come out so. -/

namespace Hotarubi.Memory.Mmio
open Base

/-- The request is answered with null and the regions are as before. -/
def Refused (limit : Nat) (s : State) (start size : UInt64) (flags : Flags) (addr : Nat) : Prop :=
  ∃ s', requestRegion limit s start size flags (.heap addr) = some (none, s') ∧
    (∀ r, r ≠ .heap addr → s'.resource r = s.resource r) ∧
    ∀ x, x ≠ .siblings (.heap addr) → x ≠ .children (.heap addr) →
      s'.links.next x = s.links.next x ∧ s'.links.prev x = s.links.prev x

/-- A shared region of this very interval. -/
def State.HasShared (s : State) (root : Rid) (start range : PhysAddr) (flags : Flags) : Prop :=
  flagSet flags kShared = true ∧ ∃ m, s.Under root m ∧ matchesShared start range (s.resource m) = true

section Requests

variable {w : World} {trees : Rid → Base.Tree Rid} {limit n : Nat} {start size : UInt64} {flags : Flags} {addr : Nat}

/-- Any request is refused if it conflicts with a region of the tree and the search for a
shared one does not answer it first, and else not. -/
theorem Forest.refused_iff (forest : Forest w trees n) (enough : n ≤ limit) (unused : w.held (.heap addr) = 0) :
    Refused limit w.state start size flags addr ↔ ¬ w.state.HasShared (rootFor flags) start (start + size) flags ∧
      ∃ m, w.state.Under (rootFor flags) m ∧ conflicts start (start + size) (w.state.resource m) = true := by
  have static := rootFor_isRoot flags
  have top := forest.top _ static
  have under : ∀ m, w.state.Under (rootFor flags) m ↔ (trees (rootFor flags)).Mem m := fun m => forest.under_iff static
  constructor
  · rintro ⟨s', ran, _, _⟩
    refine ⟨?_, ?_⟩
    · rintro ⟨wanted, m, live, passes⟩
      obtain ⟨hit, found, _, _⟩ := forest.search_shared enough static ((under m).mp live) passes
      simp [requestRegion, wanted, found] at ran
    · rcases requestRegion_cases start size (forest.represents _ static) (forest.small _ static) enough
        (forest.fresh unused static) top.symm with ⟨_, stuck⟩ | ⟨answer, s1, ran', outcome, _, _⟩
      · rw [stuck (by rw [top]; exact (forest.ends _ static).1)] at ran
        cases ran
      · rw [ran'] at ran
        cases ran
        cases outcome with
        | refused conflict =>
          obtain ⟨m, member, hits⟩ := conflict
          exact ⟨m, (under m).mpr member, hits⟩
  · rintro ⟨alone, m, live, hits⟩
    rcases requestRegion_cases start size (forest.represents _ static) (forest.small _ static) enough
      (forest.fresh unused static) top.symm with ⟨strays, _⟩ | ⟨answer, s', ran, outcome, _, _⟩
    · have free := strays.clear m ((under m).mp live)
      rw [hits] at free
      cases free
    · cases outcome with
      | @shared hit wanted found answers =>
        obtain ⟨child, x, reach, passes⟩ := forest.hit static answers
        have inside := Relation.ReflTransGen.trans (Tree.mem_kid child) reach
        exact absurd ⟨wanted, x, (under x).mpr inside, passes⟩ alone
      | refused =>
        exact ⟨_, ran, fun r other => newResource_other other _ _ _,
          fun x siblings children => newResource_links w.state start (start + size) flags siblings children⟩
      | granted _ clear =>
        have free := clear m ((under m).mp live)
        rw [hits] at free
        cases free

end Requests

section Runs

variable {σ : Type} {pages : Virtmm.PageSource σ} {virt : Virtmm.State σ} {limit : Nat}
  {actions : List Action} {x : System σ}

private theorem root_start {root : Rid} (static : IsRoot root) : (boot.resource root).start = 0 := by
  rcases static with rfl | rfl <;> rfl

private theorem root_idle {root : Rid} (static : IsRoot root) : flagSet (boot.resource root).flags kBusy = false := by
  rcases static with rfl | rfl <;> decide

private theorem root_conflicts {root : Rid} (static : IsRoot root) (start range : PhysAddr) :
    conflicts start range (boot.resource root) = true ↔
      start < (boot.resource root).range ∧ (boot.resource root).range < range := by
  have below : ¬ start < 0 := by
    rw [UInt64.lt_iff_toNat_lt]
    exact Nat.not_lt_zero _
  simp [conflicts, root_start static, root_idle static, below]

/-- A request that reaches behind the end of the root is refused if and only if it starts
before that end and does not wrap, or it conflicts with a region below the root and is
no request for a shared region that is there. -/
theorem out_of_range_refused_iff (clean : EachStep (Action.exec pages limit) Action.Clean ⟨.initial, virt⟩ actions)
    (reached : runCalls (Action.exec pages limit) ⟨.initial, virt⟩ actions = some x) (enough : actions.length < limit)
    {start size : UInt64} {flags : Flags} {addr : Nat} (unused : x.world.held (.heap addr) = 0)
    (outside : ¬ ((boot.resource (rootFor flags)).start ≤ start ∧
      start.toNat + size.toNat ≤ (boot.resource (rootFor flags)).range.toNat)) :
    Refused limit x.world.state start size flags addr ↔
      start < (boot.resource (rootFor flags)).range ∧ start.toNat + size.toNat < 2 ^ 64 ∨
      ¬ x.world.state.HasShared (rootFor flags) start (start + size) flags ∧ ∃ m, x.world.state.Under (rootFor flags) m ∧
        m ≠ rootFor flags ∧ conflicts start (start + size) (x.world.state.resource m) = true := by
  obtain ⟨trees, forest⟩ := run_forest enough clean reached
  have static := rootFor_isRoot flags
  have fixed := forest.static _ static
  have crossing : start < (boot.resource (rootFor flags)).range ∧ (boot.resource (rootFor flags)).range < start + size ↔
      start < (boot.resource (rootFor flags)).range ∧ start.toNat + size.toNat < 2 ^ 64 := by
    have low : (boot.resource (rootFor flags)).start ≤ start := by
      rw [root_start static, UInt64.le_iff_toNat_le]
      exact Nat.zero_le _
    have beyond : (boot.resource (rootFor flags)).range.toNat < start.toNat + size.toNat := by
      by_contra short
      exact outside ⟨low, Nat.le_of_not_lt short⟩
    have bound := UInt64.toNat_lt size
    rw [UInt64.lt_iff_toNat_lt, UInt64.lt_iff_toNat_lt, UInt64.toNat_add]
    omega
  rw [forest.refused_iff enough unused, ← crossing]
  constructor
  · rintro ⟨alone, m, live, hits⟩
    by_cases isRoot : m = rootFor flags
    · rw [isRoot, fixed] at hits
      exact .inl ((root_conflicts static start (start + size)).mp hits)
    · exact .inr ⟨alone, m, live, isRoot, hits⟩
  · rintro (across | ⟨alone, m, live, _, hits⟩)
    · refine ⟨?_, rootFor flags, .refl, ?_⟩
      · rintro ⟨_, m, live, passes⟩
        apply forest.inside _ static m ((forest.under_iff static).mp live)
        simp only [matchesShared, Bool.and_eq_true, decide_eq_true_eq] at passes
        rw [Resource.Crosses, ← passes.1.1, ← passes.1.2]
        exact across
      · rw [fixed]
        exact (root_conflicts static start (start + size)).mpr across
    · exact ⟨alone, m, live, hits⟩

end Runs

section Examples

/-- A request across 4 GB. -/
theorem out_of_range_refused_iff_witness :
    let actions : List Action := [.call (.request 0x1000 0x1000 kIOMem 1)]
    ∃ x, runCalls execPhysmm ⟨.initial, windowTables⟩ actions = some x ∧
      (Refused 9 x.world.state 0xfffff000 0x2000 kIOMem 2 ↔
        0xfffff000 < (boot.resource (rootFor kIOMem)).range ∧ UInt64.toNat 0xfffff000 + UInt64.toNat 0x2000 < 2 ^ 64 ∨
        ¬ x.world.state.HasShared (rootFor kIOMem) 0xfffff000 (0xfffff000 + 0x2000) kIOMem ∧
          ∃ m, x.world.state.Under (rootFor kIOMem) m ∧ m ≠ rootFor kIOMem ∧
            conflicts 0xfffff000 (0xfffff000 + 0x2000) (x.world.state.resource m) = true) := by
  intro actions
  let world := (runCalls execPhysmm ⟨.initial, windowTables⟩ actions).get (by decide +kernel)
  have reached : runCalls execPhysmm ⟨.initial, windowTables⟩ actions = some world := (Option.some_get _).symm
  have clean : EachStep execPhysmm Action.Clean ⟨.initial, windowTables⟩ actions :=
    clean_of_short (fun _ => Nat.le_refl 0) (by decide) (by decide +kernel)
  exact ⟨world, reached, out_of_range_refused_iff clean reached (by decide) (by decide +kernel) (by decide)⟩

/-- A request for the page at 4 GB follows a null link of the root. -/
theorem out_of_range_strays : ¬ ∀ (actions : List Action) (start size : UInt64) (flags : Flags) (addr : Nat)
    (x : System Physmm.State), actions.length < 9 → EachStep execPhysmm Action.Clean ⟨.initial, windowTables⟩ actions →
    runCalls execPhysmm ⟨.initial, windowTables⟩ actions = some x → x.world.held (.heap addr) = 0 →
    ¬ ((boot.resource (rootFor flags)).start ≤ start ∧
      start.toNat + size.toNat ≤ (boot.resource (rootFor flags)).range.toNat) →
    Refused 9 x.world.state start size flags addr := by
  intro claim
  obtain ⟨s', ran, _⟩ := claim [] 0x100000000 0x1000 kIOMem 1 ⟨.initial, windowTables⟩ (by decide) trivial rfl rfl
    (by decide)
  have stuck : requestRegion 9 World.initial.state 0x100000000 0x1000 kIOMem (.heap 1) = none := by
    have none' : (requestRegion 9 World.initial.state 0x100000000 0x1000 kIOMem (.heap 1)).isNone := by decide +kernel
    exact Option.isNone_iff_eq_none.mp none'
  rw [stuck] at ran
  cases ran

end Examples

end Hotarubi.Memory.Mmio
