import Hotarubi.Proofs.PhysmmFrame
import Hotarubi.Proofs.PhysmmOwnership
import Hotarubi.Proofs.PhysmmRange

/-! The page allocator once the direct map is in use: the base offset is the
direct map's base, and the metadata loops select the entries of their own range
and of the page behind it. -/

namespace Hotarubi.Memory.Physmm
open Base Base.Bitmap

section Direct

variable {m : State} {call : Call} {addr : PhysAddr} {len k : Nat}

/-- The kernel runs on the direct map. -/
def State.Direct (m : State) : Prop := m.memoryMapBase = kVMRangePhysMemBase

theorem boundWeight_toNat (addr : PhysAddr) :
    (boundWeight addr).toNat = addr.toNat / 4096 / 32 + addr.toNat / 4096 % 32 := by
  have bound := addr.toNat_lt
  simp only [boundWeight, UInt64.toNat_add, UInt64.toNat_div, UInt64.toNat_mod, pageSize_toNat,
    show (32 : UInt64).toNat = 32 from rfl]
  omega

private theorem dropOffset_lt (direct : m.Direct) (page : UInt64) : (dropOffset m page).toNat < 2 ^ 64 - 2 ^ 46 := by
  have bound := page.toNat_lt
  rw [dropOffset, direct]
  split
  next above =>
    rw [UInt64.toNat_sub_of_le _ _ above, physMemBase_toNat]
    omega
  next below =>
    rw [ge_iff_le, UInt64.le_iff_toNat_le, physMemBase_toNat] at below
    omega

private theorem Call.range_low (direct : m.Direct) (ranged : call.range m = some (addr, len)) :
    addr.toNat / 4096 + len < 2 ^ 38 := by
  have bits : (m.memoryMapSize * 8).toNat < 2 ^ 32 := (m.memoryMapSize * 8).toNat_lt
  cases takes : call.takes with
  | true =>
    obtain ⟨rfl, _, bit, rfl, _, searched, _⟩ := range_alloc takes ranged
    have words := mapWords_eq m
    have size := m.memoryMapSize.toNat_lt
    have reduced := Nat.mod_lt call.pages (by decide : 0 < 2 ^ 20)
    rw [pageAddr_toNat searched]
    unfold State.searched at searched
    omega
  | false =>
    cases call with
    | allocPage flags => cases takes
    | allocPageRange count flags => cases takes
    | freePage page =>
      obtain ⟨rfl, rfl, _, weight⟩ := range_freePage ranged
      rw [UInt64.le_iff_toNat_le, boundWeight_toNat, UInt32.toNat_toUInt64] at weight
      omega
    | freePageRange page count =>
      obtain ⟨rfl, rfl, _, kept⟩ := range_freePageRange ranged
      have weight := (clampCount_spec m (dropOffset m page) (max 1 count.toNat)).resolve_left kept
      have low := dropOffset_lt direct page
      have length := byteLength_toNat (clampCount m (dropOffset m page) (max 1 count.toNat))
      have reduced := Nat.mod_lt (clampCount m (dropOffset m page) (max 1 count.toNat)).toNat (by decide : 0 < 2 ^ 20)
      rw [UInt64.lt_iff_toNat_lt, boundWeight_toNat, UInt32.toNat_toUInt64, UInt64.toNat_add, length,
        Nat.mod_eq_of_lt (by omega)] at weight
      omega

private theorem visited_direct (direct : m.Direct) (low : addr.toNat / 4096 + k < 2 ^ 38) :
    visited m addr k = addr.toNat / 4096 + k := by
  apply visited_physical low
  rw [xpa, direct, if_neg]
  rw [ge_iff_le, UInt64.le_iff_toNat_le, page_address low, physMemBase_toNat]
  omega

theorem Call.mem_visits (direct : m.Direct) (ranged : call.range m = some (addr, len)) (i : Nat) :
    i ∈ call.visits m ↔ (addr / pageSize).toNat ≤ i ∧ i ≤ (addr / pageSize).toNat + len := by
  have low := range_low direct ranged
  have first : (addr / pageSize).toNat = addr.toNat / 4096 := by rw [UInt64.toNat_div, pageSize_toNat]
  rw [visits, ranged, first]
  simp only [List.mem_map, List.mem_range]
  constructor
  · rintro ⟨k, below, rfl⟩
    rw [visited_direct direct (by omega)]
    omega
  · rintro ⟨above, below⟩
    refine ⟨i - addr.toNat / 4096, by omega, ?_⟩
    rw [visited_direct direct (by omega)]
    omega

/-- What an allocation takes: free pages, the first of which lies inside the map. -/
theorem Call.range_take (sound : m.Sound) (takes : call.takes = true) (ranged : call.range m = some (addr, len)) :
    ∃ page, addr = UInt64.ofNat page * pageSize ∧ (addr / pageSize).toNat = page ∧ 0 < page ∧ page < m.mapBits ∧
      page + len ≤ m.mapBits + 1 ∧ ∀ i, page ≤ i → i < page + len → i < m.mapBits → m.used i = false := by
  obtain ⟨rfl, enough, page, rfl, positive, searched, run, first⟩ := range_alloc takes ranged
  have some' : 0 < call.pages := by
    cases call with
    | allocPage flags => exact Nat.zero_lt_one
    | allocPageRange count flags => exact Nat.lt_of_lt_of_le Nat.zero_lt_one (Nat.le_max_left 1 _)
    | freePage page => cases takes
    | freePageRange page count => cases takes
  have all := (freeRun_iff m page call.pages).mp run
  have last := (all (page + call.pages - 1) (by omega) (by omega)).1
  have reduced := Nat.mod_le call.pages (2 ^ 20)
  refine ⟨page, rfl, pageAddr_div searched, positive, ?_, by omega, fun i low high _ => (all i low (by omega)).2⟩
  rcases sound with fits | balanced
  · exact Nat.lt_of_lt_of_le searched (searched_le fits)
  · -- the books show a free page, and the lowest one would have been taken
    obtain ⟨i, bound, clear⟩ := exists_free balanced fun zero => by
      rw [zero, UInt32.toNat_zero] at enough
      omega
    by_contra beyond
    refine first i (by omega) ((freeRun_iff m i call.pages).mpr fun k low high => ?_)
    rw [show k = i by omega]
    exact ⟨Nat.le_of_lt bound, clear⟩

theorem Call.range_give (gives : call.takes = false) (ranged : call.range m = some (addr, len)) :
    0 < (addr / pageSize).toNat := by
  cases call with
  | allocPage flags => cases gives
  | allocPageRange count flags => cases gives
  | freePage page =>
    obtain ⟨rfl, _, kept, _⟩ := range_freePage ranged
    exact pageOf_pos kept
  | freePageRange page count =>
    obtain ⟨rfl, _, kept, _⟩ := range_freePageRange ranged
    exact pageOf_pos kept

end Direct

end Hotarubi.Memory.Physmm
