import Hotarubi.Proofs.MmioForest

/-! What becomes of the children of a region that is released. The splice compares the
two ends of their list to see whether it is empty, and takes a list of one for an
empty one. -/

namespace Hotarubi.Memory.Mmio
open Base Ring Include

/-- A released region is off all lists, its children have moved up, and all others are
where they were. -/
structure Released (s s' : State) (r : Rid) : Prop where
  regions : ∀ root x, IsRoot root → (s'.Under root x ↔ s.Under root x ∧ x ≠ r)
  parents : ∀ k, s.Lists r k → (s'.resource k).parent = (s.resource r).parent
  children : ∀ k q, s.Lists r k → (s.resource r).parent = some q →
    ∃ xs, IsRing s'.links (.children q) xs ∧ xs.count (.siblings k) = 1
  rings : ∀ root p, IsRoot root → s'.Under root p → ∃ regions, IsRing s'.links (.children p) (nodes regions) ∧ r ∉ regions

section Single

variable {s : State} {t : Base.Tree Rid} {limit n : Nat} {q r c : Rid}

private theorem releaseResource_single (represents : Represents s t) (small : t.Small n) (enough : n ≤ limit)
    (child : r ∈ t.kids q)
    (last : (s.resource r).refcount < 2) (single : t.kids r = [c]) :
    ∃ s', releaseResource limit s r = some s' ∧ ∀ x, t.Mem x → x ≠ r → ∀ k, s'.Lists x k → k ∈ t.kids x ∧ k ≠ r := by
  obtain ⟨xs, ys, here⟩ := List.append_of_mem child
  have inner := represents.rings r (Tree.mem_kid child)
  have outer := represents.rings q (t.reached child)
  have split : nodes (t.kids q) = nodes xs ++ .siblings r :: nodes ys := by simp [nodes, here]
  have unspliced : listSplice s.links (.children r) (.siblings r) = some s.links := by
    have next := path_next inner.path
    have prev := path_prev inner.path
    rw [single] at next prev
    exact listSplice_same (next.trans prev.symm)
  have ring := outer
  rw [split] at ring
  obtain ⟨l, removed, ring', _, _, kept⟩ := listDel_at ring
  refine ⟨State.setRefcount { reparent s q (t.kids r) with links := l } r 0, ?_, fun x member other k listed => ?_⟩
  · rw [releaseResource_eq represents small enough child last, unspliced, Option.bind_some, removed, Option.bind_some]
  · obtain ⟨zs, found, onRing⟩ := listed
    have found' : IsRing l (.children x) zs := found
    have distinct := t.nodup q
    rw [here, List.perm_middle.nodup_iff, List.nodup_cons, List.mem_append, not_or] at distinct
    by_cases same : x = q
    · subst same
      rw [found'.unique ring', ← List.map_append] at onRing
      have among := mem_nodes.mp onRing
      refine ⟨?_, ?_⟩
      · rw [here]
        simp only [List.mem_append, List.mem_cons] at among ⊢
        tauto
      · rintro rfl
        exact (List.mem_append.mp among).elim distinct.1.1 distinct.1.2
    · have ringX : IsRing l (.children x) (nodes (t.kids x)) := by
        refine (represents.rings x member).congr fun y onRing => kept y ?_
        rw [← split]
        rcases List.mem_cons.mp onRing with rfl | kid
        · simp [nodes, same]
        · obtain ⟨m, mine, rfl⟩ := List.mem_map.mp kid
          have foreign : m ∉ t.kids q := fun shared => same (t.single mine shared)
          simp [nodes, foreign]
      rw [found'.unique ringX] at onRing
      have mine := mem_nodes.mp onRing
      exact ⟨mine, fun isR => same (t.single mine (isR ▸ child))⟩

end Single

section Runs

variable {w : World} {trees : Rid → Base.Tree Rid} {limit n : Nat} {r : Rid}

/-- The only child of a region that goes is in none of the lists that are left. -/
private theorem Forest.child_lost (forest : Forest w trees n) {root c : Rid} (static : IsRoot root) (notRoot : r ≠ root)
    (inner : c ∈ (trees root).kids r) {s' : State}
    (lists : ∀ p, (trees root).Mem p → p ≠ r → ∀ x, s'.Lists p x → x ∈ (trees root).kids p ∧ x ≠ r) :
    ¬ s'.Under root c := by
  have never : ∀ x, s'.Under root x → (trees root).Mem x ∧ x ≠ r ∧ x ≠ c := by
    intro x under
    induction under with
    | refl =>
      refine ⟨forest.mem_root static, fun same => notRoot same.symm, fun same => ?_⟩
      have top : (trees root).root = c := (forest.top root static).trans same
      exact (trees root).top r (top ▸ inner)
    | tail _ step ih =>
      obtain ⟨inside, notR, _⟩ := ih
      obtain ⟨kid, notR'⟩ := lists _ inside notR _ step
      exact ⟨Tree.mem_kid kid, notR', fun same => notR ((trees root).single kid (same ▸ inner))⟩
  exact fun under => (never c under).2.2 rfl

private theorem Forest.loses_nobody (forest : Forest w trees n) (enough : n ≤ limit) (held : 0 < w.held r)
    (last : (w.state.resource r).refcount = 1) :
    ∃ handle s', releaseRegion limit w.state r = some (handle, s') ∧ (Released w.state s' r ↔ ¬ OneChild w.state r) := by
  obtain ⟨root, q, static, notRoot, child, parent⟩ := forest.parent held
  have represents := forest.represents root static
  have member := Tree.mem_kid child
  have less : (w.state.resource r).refcount < 2 := by rw [last]; decide
  have one : w.held r = 1 := by rw [← forest.count r held, last]; rfl
  by_cases several : ((trees root).kids r).length = 1
  · obtain ⟨c, single⟩ := List.length_eq_one_iff.mp several
    obtain ⟨s', ran, lists⟩ := releaseResource_single represents (forest.small root static) enough child less single
    refine ⟨_, s', by rw [releaseRegion, ran]; rfl, iff_of_false (fun released => ?_) fun plural => ?_⟩
    · have inner : c ∈ (trees root).kids r := by simp [single]
      have before : w.state.Under root c := (forest.under_iff static).mpr (Tree.mem_kid inner)
      have other : c ≠ r := fun same => Tree.not_mem_kids_self (same ▸ inner)
      have after := (released.regions root c static).mpr ⟨before, other⟩
      exact forest.child_lost static notRoot inner lists after
    · exact plural ((oneChild_iff represents member).mpr several)
  · obtain ⟨s', xs, ys, here, ran, represents', kept, fields⟩ :=
      releaseResource_spec represents (forest.small root static) enough child less several
    have forest' := forest.released static here one represents' kept fields
    have plural := fun single => several ((oneChild_iff represents member).mp single)
    have own : Function.update trees root ((trees root).detach q r xs ys here) root = (trees root).detach q r xs ys here :=
      Function.update_self ..
    refine ⟨_, s', by rw [releaseRegion, ran]; rfl, iff_of_true ⟨fun other x static' => ?_, fun k listed => ?_,
      fun k p listed above => ?_, fun other p static' under => ?_⟩ plural⟩
    · rw [forest'.under_iff static', forest.under_iff static']
      by_cases same : other = root
      · subst same
        rw [own, Tree.mem_detach]
      · rw [Function.update_of_ne same]
        refine ⟨fun inside => ⟨inside, ?_⟩, And.left⟩
        rintro rfl
        exact same (forest.apart other root x static' static inside member)
    · have kid := (lists_iff represents member).mp listed
      have notR : k ≠ r := fun this => Tree.not_mem_kids_self (this ▸ kid)
      rw [fields, if_neg notR, if_pos kid, parent]
    · have kid := (lists_iff represents member).mp listed
      obtain rfl : q = p := Option.some.inj (parent.symm.trans above)
      have notR : k ≠ r := fun this => Tree.not_mem_kids_self (this ▸ kid)
      have upper : q ≠ r := fun this => Tree.not_mem_kids_self (this ▸ child)
      have moved : k ∈ ((trees root).detach q r xs ys here).kids q := Tree.mem_kids_detach.mpr
        ⟨upper, notR, .inr ⟨rfl, kid⟩⟩
      have ring := represents'.rings q (Tree.mem_detach.mpr ⟨(trees root).reached child, upper⟩)
      exact ⟨_, ring, List.count_eq_one_of_mem (List.Nodup.of_cons ring.nodup) (mem_nodes.mpr moved)⟩
    · have inside := (forest'.under_iff static').mp under
      refine ⟨_, (forest'.represents other static').rings p inside, fun listed => ?_⟩
      by_cases same : other = root
      · subst same
        rw [own] at listed
        exact (Tree.mem_kids_detach.mp listed).2.1 rfl
      · rw [Function.update_of_ne same] at listed
        exact same (forest.apart other root r static' static (Tree.mem_kid listed) member)

variable {σ : Type} {pages : Virtmm.PageSource σ} {virt : Virtmm.State σ} {actions : List Action} {x : System σ}

/-- After a run in which no region with exactly one child has gone and no count has
wrapped, the last release of a region loses nobody if and only if it does not have
exactly one child; any other release counts down. -/
theorem release_loses_nobody_iff (enough : actions.length < limit)
    (clean : EachStep (Action.exec pages limit) Action.Clean ⟨.initial, virt⟩ actions)
    (reached : runCalls (Action.exec pages limit) ⟨.initial, virt⟩ actions = some x) {root : Rid} (static : IsRoot root)
    (live : x.world.state.Under root r) (notRoot : r ≠ root) :
    ∃ handle s', releaseRegion limit x.world.state r = some (handle, s') ∧
      ((x.world.state.resource r).refcount = 1 → (Released x.world.state s' r ↔ ¬ OneChild x.world.state r)) ∧
      (1 < (x.world.state.resource r).refcount →
        s' = x.world.state.setRefcount r ((x.world.state.resource r).refcount - 1)) := by
  obtain ⟨trees, forest⟩ := run_forest enough clean reached
  have held : 0 < x.world.held r := forest.live_iff.mpr ⟨root, static, live, notRoot⟩
  by_cases last : (x.world.state.resource r).refcount = 1
  · obtain ⟨handle, s', ran, exact⟩ := forest.loses_nobody enough held last
    refine ⟨handle, s', ran, fun _ => exact, fun more => ?_⟩
    rw [last] at more
    exact absurd more (UInt32.lt_irrefl 1)
  · refine ⟨some r, _, ?_, fun single => absurd single last, fun _ => rfl⟩
    apply forest.counts_down limit held
    have count := forest.count r held
    rw [← UInt32.toNat_inj, UInt32.toNat_one] at last
    rw [UInt32.lt_iff_toNat_lt, UInt32.toNat_one]
    omega

end Runs

section Examples

abbrev runPhysmm : List Action → Option (System Physmm.State) := runCalls execPhysmm ⟨.initial, windowTables⟩

/-- A region below the root with two children. -/
theorem release_loses_nobody_iff_witness :
    let actions : List Action := [.call (.request 0x1000 0x3000 kIOMem 1), .call (.request 0x1800 0x400 kIOMem 2),
      .call (.request 0x2000 0x400 kIOMem 3)]
    ∃ x, runPhysmm actions = some x ∧ ∃ handle s', releaseRegion 9 x.world.state (.heap 1) = some (handle, s') ∧
      ((x.world.state.resource (.heap 1)).refcount = 1 →
        (Released x.world.state s' (.heap 1) ↔ ¬ OneChild x.world.state (.heap 1))) ∧
      (1 < (x.world.state.resource (.heap 1)).refcount →
        s' = x.world.state.setRefcount (.heap 1) ((x.world.state.resource (.heap 1)).refcount - 1)) := by
  intro actions
  have clean : EachStep execPhysmm Action.Clean ⟨.initial, windowTables⟩ actions :=
    clean_of_short (fun _ => Nat.le_refl 0) (by decide) (by decide +kernel)
  have reached : runPhysmm actions = some ((runPhysmm actions).get (by decide +kernel)) := (Option.some_get _).symm
  obtain ⟨trees, forest⟩ := run_forest (by decide) clean reached
  obtain ⟨root, static, live, notRoot⟩ := (forest.live_iff (r := .heap 1)).mp (by decide +kernel)
  exact ⟨_, reached, release_loses_nobody_iff (by decide) clean reached static live notRoot⟩

/-- The one child of a released region is on no list of the tree any more. -/
theorem release_loses_child : ¬ ∀ (actions : List Action) (root r : Rid) (x : System Physmm.State), actions.length < 9 →
    EachStep execPhysmm Action.Clean ⟨.initial, windowTables⟩ actions → runPhysmm actions = some x →
    IsRoot root → x.world.state.Under root r → r ≠ root → (x.world.state.resource r).refcount = 1 →
    ∃ handle s', releaseRegion 9 x.world.state r = some (handle, s') ∧ Released x.world.state s' r := by
  intro claim
  let actions : List Action := [.call (.request 0x1000 0x3000 kIOMem 1), .call (.request 0x1800 0x400 kIOMem 2)]
  have clean : EachStep execPhysmm Action.Clean ⟨.initial, windowTables⟩ actions :=
    clean_of_short (fun _ => Nat.le_refl 0) (by decide) (by decide +kernel)
  have reached : runPhysmm actions = some ((runPhysmm actions).get (by decide +kernel)) := (Option.some_get _).symm
  have single : OneChild ((runPhysmm actions).get (by decide +kernel)).world.state (.heap 1) := by decide +kernel
  have last : (((runPhysmm actions).get (by decide +kernel)).world.state.resource (.heap 1)).refcount = 1 :=
    by decide +kernel
  obtain ⟨trees, forest⟩ := run_forest (by decide) clean reached
  have held : 0 < ((runPhysmm actions).get (by decide +kernel)).world.held (.heap 1) := by decide +kernel
  obtain ⟨root, static, live, notRoot⟩ := forest.live_iff.mp held
  obtain ⟨handle, s', ran, released⟩ := claim actions root (.heap 1) _ (by decide) clean reached static live notRoot last
  obtain ⟨_, s'', ran', exact⟩ := forest.loses_nobody (by decide : actions.length + 1 ≤ 9) held last
  rw [ran] at ran'
  cases ran'
  exact exact.mp released single

end Examples

end Hotarubi.Memory.Mmio
