import Hotarubi.Proofs.CacheRelease
import Mathlib.Algebra.BigOperators.Group.List.Basic
import Mathlib.Algebra.GroupWithZero.Nat

/-! What the ledger of a cache adds up to: every descriptor of its slabs is free or
belongs to an object in use. -/

namespace Hotarubi.Memory.Cache
open Base Ring Chain Include

/-- The descriptors of all slabs. -/
def Ledger.allCells (g : Ledger) : List Nat := g.all.flatMap g.cells

/-- The free ones among them. -/
def Ledger.allAvail (g : Ledger) : List Nat := g.all.flatMap g.avail

/-- Those of the objects in use. -/
def Ledger.out (g : Ledger) : List Nat := g.allCells.filter (· ∉ g.allAvail)

section Balance

variable {c : Config} {s : State} {g : Ledger} {handed : List Nat} {slab b : Nat}

theorem Holds.disjoint (holds : Holds c s g handed) {other : Nat} (member : slab ∈ g.all) (member' : other ∈ g.all)
    (cell : b ∈ g.cells slab) (cell' : b ∈ g.cells other) : slab = other :=
  holds.words slab (holds.mem_all.mp member) other (holds.mem_all.mp member') b (List.mem_cons_of_mem _ cell)
    (List.mem_cons_of_mem _ cell')

private theorem Holds.cells_nodup (holds : Holds c s g handed) : g.allCells.Nodup := by
  refine List.nodup_flatMap.mpr ⟨fun slab member => ?_, holds.all_nodup.pairwise_of_forall_ne
    fun slab member other member' different b cell cell' => different (holds.disjoint member member' cell cell')⟩
  exact (List.nodup_cons.mp (holds.carved slab (holds.mem_all.mp member)).nodup).2

private theorem Holds.avail_inside (holds : Holds c s g handed) (member : slab ∈ g.all) (free : b ∈ g.avail slab) :
    b ∈ g.cells slab := (holds.balanced slab (holds.mem_all.mp member)).inside b free

private theorem Holds.avail_nodup (holds : Holds c s g handed) : g.allAvail.Nodup := by
  refine List.nodup_flatMap.mpr ⟨fun slab member => ?_, holds.all_nodup.pairwise_of_forall_ne
    fun slab member other member' different b free free' => different (holds.disjoint member member'
      (holds.avail_inside member free) (holds.avail_inside member' free'))⟩
  exact (List.nodup_cons.mp (holds.balanced slab (holds.mem_all.mp member)).chain.nodup).2

private theorem Holds.mem_out (holds : Holds c s g handed) :
    b ∈ g.out ↔ ∃ slab ∈ g.all, b ∈ g.cells slab ∧ b ∉ g.avail slab := by
  simp only [Ledger.out, Ledger.allCells, Ledger.allAvail, List.mem_filter, List.mem_flatMap, decide_eq_true_eq]
  constructor
  · rintro ⟨⟨slab, member, cell⟩, free⟩
    exact ⟨slab, member, cell, fun inside => free ⟨slab, member, inside⟩⟩
  · rintro ⟨slab, member, cell, out⟩
    refine ⟨⟨slab, member, cell⟩, ?_⟩
    rintro ⟨other, member', free⟩
    obtain rfl := holds.disjoint member member' cell (holds.avail_inside member' free)
    exact out free

/-- Every descriptor is free or in use. -/
theorem Holds.cells_perm (holds : Holds c s g handed) : g.allCells.Perm (g.allAvail ++ g.out) := by
  have free : (g.allCells.filter (· ∈ g.allAvail)).Perm g.allAvail := by
    apply (List.perm_ext_iff_of_nodup (holds.cells_nodup.filter _) holds.avail_nodup).mpr
    intro b
    rw [List.mem_filter, decide_eq_true_eq]
    refine ⟨fun both => both.2, fun member => ⟨?_, member⟩⟩
    obtain ⟨slab, inside, free⟩ := List.mem_flatMap.mp member
    exact List.mem_flatMap.mpr ⟨slab, inside, holds.avail_inside inside free⟩
  have split := List.filter_append_perm (fun b => decide (b ∈ g.allAvail)) g.allCells
  refine split.symm.trans (free.append ?_)
  simp only [Ledger.out, decide_not, List.Perm.refl]

/-- There are as many of these as objects in use. -/
theorem Holds.out_length (holds : Holds c s g handed) : g.out.length = handed.length := by
  have distinct : (g.out.map (s.objectOf c)).Nodup := by
    refine List.Nodup.map_on (fun b member b' member' same => ?_) (holds.cells_nodup.filter _)
    obtain ⟨slab, inside, cell, _⟩ := holds.mem_out.mp member
    obtain ⟨other, inside', cell', _⟩ := holds.mem_out.mp member'
    exact (holds.object_inj (holds.mem_all.mp inside) (holds.mem_all.mp inside') cell cell' same).2
  have same : (g.out.map (s.objectOf c)).Perm handed := by
    apply (List.perm_ext_iff_of_nodup distinct holds.once).mpr
    intro ptr
    rw [List.mem_map, holds.account]
    constructor
    · rintro ⟨b, member, object⟩
      obtain ⟨slab, inside, cell, out⟩ := holds.mem_out.mp member
      exact ⟨slab, holds.mem_all.mp inside, b, cell, out, object⟩
    · rintro ⟨slab, made, b, cell, out, object⟩
      exact ⟨b, holds.mem_out.mpr ⟨slab, holds.mem_all.mpr made, cell, out⟩, object⟩
  rw [← same.length_eq, List.length_map]

/-- The object map holds the descriptors of a cache that is not compact. -/
theorem Holds.mapped_perm (holds : Holds c s g handed) (external : c.compact = false) : g.mapped.Perm g.allCells := by
  have distinct : g.mapped.Nodup := List.Nodup.of_map _ (List.nodup_cons.mp holds.shelved.map.nodup).2
  apply (List.perm_ext_iff_of_nodup distinct holds.cells_nodup).mpr
  intro b
  rw [holds.mapped, Ledger.allCells, List.mem_flatMap]
  simp only [external, true_and, holds.mem_all]

theorem Holds.all_perm (holds : Holds c s g handed) (distinct : s.made.Nodup) : s.made.Perm g.all :=
  (List.perm_ext_iff_of_nodup distinct holds.all_nodup).mpr fun _ => holds.mem_all.symm

theorem Holds.cells_length (holds : Holds c s g handed) (distinct : s.made.Nodup) :
    g.allCells.length = s.made.length * c.buffers := by
  rw [Ledger.allCells, holds.cells_total fun slab => holds.mem_all.mp, (holds.all_perm distinct).length_eq]

private theorem Holds.refs_total (holds : Holds c s g handed) {slabs : List Nat} (covered : ∀ slab ∈ slabs, slab ∈ s.made) :
    (slabs.map fun slab => (s.refs slab).toNat).sum + (slabs.flatMap g.avail).length = slabs.length * c.buffers := by
  induction slabs with
  | nil => simp
  | cons slab slabs ih =>
    have count := (holds.balanced slab (covered slab List.mem_cons_self)).count
    have rest := ih fun x member => covered x (List.mem_cons_of_mem _ member)
    rw [List.map_cons, List.sum_cons, List.flatMap_cons, List.length_append, List.length_cons, Nat.succ_mul]
    omega

/-- The counters of the slabs add up to the objects in use. -/
theorem Holds.refs_sum (holds : Holds c s g handed) (distinct : s.made.Nodup) :
    (s.made.map fun slab => (s.refs slab).toNat).sum = handed.length := by
  have total := holds.refs_total fun _ member => member
  have free := (holds.all_perm distinct).flatMap_right g.avail
  have cells := holds.cells_perm.length_eq
  rw [holds.cells_length distinct, List.length_append, holds.out_length] at cells
  rw [free.length_eq, ← Ledger.allAvail] at total
  omega

end Balance

end Hotarubi.Memory.Cache
