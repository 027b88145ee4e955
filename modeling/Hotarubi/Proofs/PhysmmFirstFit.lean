import Hotarubi.Proofs.PhysmmAccounting

/-! Whether single-page allocation is a complete first fit. The search walks whole
words of a map whose size is a number of bytes. -/

namespace Hotarubi.Memory.Physmm
open Base Base.Bitmap

/-- The answer of `alloc_page` is the lowest free page of the map, or null when the
number of free pages is zero. -/
def FirstFit (m : State) : Option UInt64 → Prop
  | none => freePageCount m = 0
  | some ptr => ∃ page < m.mapBits, m.used page = false ∧ (∀ i < page, m.used i = true) ∧
      ptr = UInt64.ofNat page * pageSize + m.memoryMapBase

private theorem allocPage_answer (m : State) (flags : Flags) : (allocPage m flags).1 =
    if freePageCount m = 0 ∨ (searchFirstFree m).1 = 0 then none
    else some ((searchFirstFree m).1 + m.memoryMapBase) := by
  simp only [allocPage]
  split
  next empty => rw [if_pos (.inl empty)]
  next enough =>
    split
    next missing => rw [if_pos (.inr missing)]
    next found => rw [if_neg (not_or.mpr ⟨enough, found⟩)]

/-- The lowest page the search meets is the lowest free page of the map, if any page
that it walks over is one. -/
private theorem searchFirstFree_lowest {m : State} {page : Nat} (walked : page < m.searched) (inside : page < m.mapBits)
    (free : m.used page = false) : ∃ bit < m.searched, bit < m.mapBits ∧ m.used bit = false ∧
      (∀ i < bit, m.used i = true) ∧ (searchFirstFree m).1 = UInt64.ofNat bit * pageSize := by
  rw [← peekUsed_inside inside] at free
  rcases searchFirstFree_cases m with ⟨bit, below, clear, earlier, found⟩ | ⟨all, _⟩
  · have lower : bit ≤ page := by
      by_contra above
      rw [earlier page (by omega)] at free
      cases free
    refine ⟨bit, below, by omega, ?_, fun i before => ?_, found⟩
    · rwa [← peekUsed_inside (by omega)]
    · rw [← peekUsed_inside (by omega)]
      exact earlier i before
  · rw [all page walked] at free
    cases free

/-- `alloc_page` is a complete first fit exactly when the number of free pages is zero
or one of the free pages has its bit in a whole word of the map. -/
theorem allocPage_firstFit_iff {m : State} (first : m.used 0 = true) (flags : Flags) :
    FirstFit m (allocPage m flags).1 ↔
      freePageCount m = 0 ∨ ∃ page < 32 * (m.memoryMapSize.toNat / 4), page < m.mapBits ∧ m.used page = false := by
  rw [← mapWords_eq, allocPage_answer]
  by_cases empty : freePageCount m = 0
  · rw [if_pos (.inl empty)]
    exact iff_of_true empty (.inl empty)
  · simp only [empty, false_or]
    constructor
    · intro fits
      split at fits
      next => exact absurd fits empty
      next found =>
        obtain ⟨page, inside, free, _⟩ := fits
        rcases searchFirstFree_cases m with ⟨bit, below, clear, earlier, _⟩ | ⟨_, missing⟩
        · have lower : bit ≤ page := by
            by_contra above
            have taken := earlier page (by omega)
            rw [peekUsed_inside inside, free] at taken
            cases taken
          exact ⟨bit, below, by omega, by rwa [← peekUsed_inside (by omega)]⟩
        · exact absurd missing found
    · rintro ⟨page, walked, inside, free⟩
      obtain ⟨bit, below, inside', free', earlier, found⟩ := searchFirstFree_lowest walked inside free
      have positive : bit ≠ 0 := by
        rintro rfl
        rw [first] at free'
        cases free'
      rw [found, if_neg fun zero => positive ((pageAddr_eq_zero below).mp zero)]
      exact ⟨bit, inside', free', earlier, rfl⟩

/-- The first three pages of a map of two words are in use. -/
theorem allocPage_firstFit_iff_witness :
    FirstFit (setMemoryMap [7, 0] 3) (allocPage (setMemoryMap [7, 0] 3) kActive).1 :=
  (allocPage_firstFit_iff (by decide) kActive).mpr (.inr ⟨3, by decide, by decide, by decide⟩)

/-- The map for memory that ends at 16 MiB and 32 KiB, where only the first page of
the last byte is free. -/
def tailMap : State where
  memoryMapData i := if i < 128 then 0xffffffff else 0xfffffffe
  memoryMapSize := 513
  memoryMapUsed := 4103
  memoryMapBase := 0
  memoryMapPages := 0x200000
  pageMaps _ := unusedPage

theorem tail_not_found : ¬ ∀ (lastChunkEnd : UInt64) (m : State) (flags : Flags), 0x1000000 ≤ lastChunkEnd →
    m.memoryMapSize = (lastChunkEnd / pageSize / 8).toUInt32 → m.used 0 = true → m.Accounted →
      FirstFit m (allocPage m flags).1 := by
  intro claim
  have fits := claim 0x1008000 tailMap kActive (by decide) (by decide) (by decide) (by decide +kernel)
  rw [show (allocPage tailMap kActive).1 = none by decide +kernel] at fits
  exact absurd (show freePageCount tailMap = 0 from fits) (by decide)

end Hotarubi.Memory.Physmm
