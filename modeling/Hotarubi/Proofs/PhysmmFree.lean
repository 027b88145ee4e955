import Hotarubi.Proofs.PhysmmDirect

/-! Which bits the free functions clear. The test they share compares the sum of word
and bit number with the size of the map; it never keeps a page of the map back. -/

namespace Hotarubi.Memory.Physmm
open Base Base.Bitmap

variable {m : State} {addr : PhysAddr} {count : UInt32}

private theorem mapBits_eq (small : m.memoryMapSize.toNat < 2 ^ 29) : m.mapBits = m.memoryMapSize.toNat * 8 := by
  rw [State.mapBits, UInt32.toNat_mul, show (8 : UInt32).toNat = 8 from rfl]
  omega

private theorem boundWeight_lt (large : 4096 ≤ m.mapBits) (inside : addr.toNat / 4096 ≤ m.mapBits) :
    boundWeight addr < (m.memoryMapSize * 8).toUInt64 := by
  rw [UInt64.lt_iff_toNat_lt, boundWeight_toNat, UInt32.toNat_toUInt64]
  unfold State.mapBits at large inside
  omega

private theorem clampCount_ge {limit keep : Nat} (small : limit < 2 ^ 32) (within : keep ≤ limit)
    (passes : 0 < keep → boundWeight (addr + byteLength (UInt32.ofNat keep)) < (m.memoryMapSize * 8).toUInt64) :
    keep ≤ (clampCount m addr limit).toNat := by
  induction limit with
  | zero => exact Nat.le_trans within (Nat.zero_le _)
  | succ limit ih =>
    rw [clampCount]
    split
    next => rwa [UInt32.toNat_ofNat_of_lt' small]
    next fails =>
      by_cases same : keep = limit + 1
      · subst same
        exact absurd (passes (Nat.succ_pos limit)) fails
      · exact ih (by omega) (by omega)

private theorem clampCount_covers (large : 4096 ≤ m.mapBits) {limit : Nat} (few : limit < 2 ^ 20)
    (inside : addr.toNat / 4096 < m.mapBits) :
    min limit (m.mapBits - addr.toNat / 4096) ≤ (clampCount m addr limit).toNat := by
  have bits := mapBits_lt m
  apply clampCount_ge (by omega) (Nat.min_le_left _ _)
  intro positive
  apply boundWeight_lt large
  rw [UInt64.toNat_add, byteLength_toNat, UInt32.toNat_ofNat_of_lt'
    (Nat.lt_of_le_of_lt (Nat.min_le_left _ _) (Nat.lt_trans few (by decide)))]
  omega

/-- A call whose range starts behind the map changes no bit. -/
theorem Call.used_beyond (call : Call) (beyond : ∀ addr len, call.range m = some (addr, len) →
    m.mapBits ≤ addr.toNat / 4096) (i : Nat) : (call.exec m).2.used i = m.used i := by
  rw [exec_used]
  split
  next => rfl
  next addr len ranged =>
    have behind := beyond addr len ranged
    rw [page_toNat, if_neg (by omega)]

private theorem dropOffset_high {page : UInt64} (nonzero : (dropOffset m page).toNat / 4096 ≠ 0) :
    ¬dropOffset m page < pageSize := by
  rw [UInt64.lt_iff_toNat_lt, pageSize_toNat]
  omega

private theorem dropOffset_low {page : UInt64} (zero : (dropOffset m page).toNat / 4096 = 0) :
    dropOffset m page < pageSize := by
  rw [UInt64.lt_iff_toNat_lt, pageSize_toNat]
  omega

private theorem freePageRange_used (large : 4096 ≤ m.mapBits) (page : UInt64) (few : count.toNat < 2 ^ 20)
    (nonzero : (dropOffset m page).toNat / 4096 ≠ 0) (i : Nat) :
    (freePageRange m page count).used i =
      if (dropOffset m page).toNat / 4096 ≤ i ∧ i < (dropOffset m page).toNat / 4096 + max 1 count.toNat ∧
        i < m.mapBits then false else m.used i := by
  by_cases inside : (dropOffset m page).toNat / 4096 < m.mapBits
  · have limit : max 1 count.toNat < 2 ^ 20 := by omega
    have upper := clampCount_le m (dropOffset m page) (max 1 count.toNat) (by omega)
    have lower := clampCount_covers large limit inside
    have bits := (Call.freePageRange page count).exec_used m i
    simp only [Call.exec, Call.range, dropOffset_high nonzero, false_or, requested_eq] at bits
    generalize clampCount m (dropOffset m page) (max 1 count.toNat) = clamped at bits upper lower
    have kept : clamped ≠ 0 := by
      rintro rfl
      rw [UInt32.toNat_zero] at lower
      omega
    rw [if_neg kept] at bits
    dsimp only [Call.takes] at bits
    rw [page_toNat, Nat.mod_eq_of_lt (a := clamped.toNat) (by omega)] at bits
    rw [bits]
    exact if_congr ⟨fun cleared => by omega, fun cleared => by omega⟩ rfl rfl
  · rw [if_neg (by omega)]
    refine Call.used_beyond (.freePageRange page count) (fun addr len ranged => ?_) i
    rw [(Call.range_freePageRange ranged).1]
    omega

private theorem freePageRange_low {page : UInt64} (zero : (dropOffset m page).toNat / 4096 = 0) :
    freePageRange m page count = m := by
  simp only [freePageRange, if_pos (dropOffset_low zero)]

/-- `free_page` is the range of one page. -/
theorem freePage_used (page : UInt64) (nonzero : (dropOffset m page).toNat / 4096 ≠ 0) (i : Nat) :
    (freePage m page).used i =
      if (dropOffset m page).toNat / 4096 ≤ i ∧ i < (dropOffset m page).toNat / 4096 + 1 ∧ i < m.mapBits then false
      else m.used i := by
  by_cases inside : (dropOffset m page).toNat / 4096 < m.mapBits
  · have passes : boundWeight (dropOffset m page) ≤ (m.memoryMapSize * 8).toUInt64 := by
      rw [UInt64.le_iff_toNat_le, boundWeight_toNat, UInt32.toNat_toUInt64]
      unfold State.mapBits at inside
      omega
    have bits := (Call.freePage page).exec_used m i
    simp only [Call.exec, Call.range, dropOffset_high nonzero, false_or, if_neg (UInt64.not_lt.mpr passes)] at bits
    rwa [page_toNat] at bits
  · rw [if_neg (by omega)]
    refine Call.used_beyond (.freePage page) (fun addr len ranged => ?_) i
    rw [(Call.range_freePage ranged).1]
    omega

private theorem freePage_low {page : UInt64} (zero : (dropOffset m page).toNat / 4096 = 0) : freePage m page = m := by
  simp only [freePage, if_pos (dropOffset_low zero)]

/-- The free functions clear the bits of their pages inside the map and no others; the
first page of memory is never freed. -/
theorem free_clears_range (large : 512 ≤ m.memoryMapSize.toNat) (small : m.memoryMapSize.toNat < 2 ^ 29)
    (page : UInt64) (fits : count.toNat * 4096 < 2 ^ 32) :
    let p := (dropOffset m page).toNat / 4096
    (p = 0 → freePageRange m page count = m ∧ freePage m page = m) ∧
      (p ≠ 0 → ∀ i, (freePageRange m page count).used i =
        if p ≤ i ∧ i < p + max 1 count.toNat ∧ i < m.memoryMapSize.toNat * 8 then false else m.used i) ∧
      (p ≠ 0 → ∀ i, (freePage m page).used i =
        if p ≤ i ∧ i < p + 1 ∧ i < m.memoryMapSize.toNat * 8 then false else m.used i) := by
  have bits := mapBits_eq small
  have wide : 4096 ≤ m.mapBits := by omega
  dsimp only
  rw [← bits]
  exact ⟨fun zero => ⟨freePageRange_low zero, freePage_low zero⟩,
    freePageRange_used wide page (by omega), freePage_used page⟩

/-- A map of 512 bytes in which all pages are in use. -/
def fullMap : State := { setMemoryMap [] 4096 with memoryMapData := fun _ => 0xffffffff, memoryMapSize := 512 }

/-- Three of five pages lie inside the map. -/
theorem free_clears_range_witness :
    let p := (dropOffset fullMap 0xffd123).toNat / 4096
    (p = 0 → freePageRange fullMap 0xffd123 5 = fullMap ∧ freePage fullMap 0xffd123 = fullMap) ∧
      (p ≠ 0 → ∀ i, (freePageRange fullMap 0xffd123 5).used i =
        if p ≤ i ∧ i < p + max 1 (5 : UInt32).toNat ∧ i < fullMap.memoryMapSize.toNat * 8 then false
        else fullMap.used i) ∧
      (p ≠ 0 → ∀ i, (freePage fullMap 0xffd123).used i =
        if p ≤ i ∧ i < p + 1 ∧ i < fullMap.memoryMapSize.toNat * 8 then false else fullMap.used i) :=
  free_clears_range (by decide) (by decide) 0xffd123 (by decide)

/-- The bitmap and the reported number of free pages are as they were. -/
structure Restored (m after : State) : Prop where
  bitmap : after.memoryMapData = m.memoryMapData
  free : freePageCount after = freePageCount m

private theorem data_ext {after : State} (same : ∀ i, after.used i = m.used i) : after.memoryMapData = m.memoryMapData := by
  funext word
  apply BitVec.eq_of_getLsbD_eq
  intro bit inside
  have bits := same (32 * word + bit)
  have place : (32 * word + bit) / 32 = word ∧ (32 * word + bit) % 32 = bit := by omega
  rwa [State.used, State.used, bitAt, bitAt, place.1, place.2] at bits

private theorem restored_of_used {after : State} (balanced : m.Accounted) (balanced' : after.Accounted)
    (size : after.memoryMapSize = m.memoryMapSize) (same : ∀ i, after.used i = m.used i) : Restored m after := by
  have bitmap := data_ext same
  refine ⟨bitmap, ?_⟩
  have counter : after.memoryMapUsed = m.memoryMapUsed := by
    apply UInt32.toNat_inj.mp
    unfold State.Accounted at balanced balanced'
    rw [balanced, balanced', bitmap, State.mapBits, State.mapBits, size]
  rw [freePageCount, freePageCount, size, counter]

private theorem free_undoes {after : State} {flags : Flags} {page : UInt64} {len : Nat} (large : 4096 ≤ m.mapBits)
    (few : count.toNat < 2 ^ 20) (balanced : m.Accounted)
    (ranged : (Call.allocPageRange count flags).range m = some (addr, len))
    (size : after.memoryMapSize = m.memoryMapSize)
    (bits : ∀ i, after.used i = (allocPageRange m count flags).2.used i) (found : dropOffset after page = addr)
    (i : Nat) : (freePageRange after page count).used i = m.used i := by
  have extent : after.mapBits = m.mapBits := by rw [State.mapBits, State.mapBits, size]
  obtain ⟨first, _, index, positive, _, _, free⟩ := Call.range_take (.inr balanced) rfl ranged
  rw [page_toNat] at index
  have length : len = max 1 count.toNat :=
    (Call.range_alloc rfl ranged).1.trans (Nat.mod_eq_of_lt (show max 1 count.toNat < 2 ^ 20 by omega))
  have taken := (Call.allocPageRange count flags).exec_used m i
  rw [ranged] at taken
  simp only [Call.exec, Call.takes, page_toNat, index] at taken
  rw [freePageRange_used (by omega) page few (by rw [found, index]; omega), found, index, extent, bits i, taken, ← length]
  split
  next inside => exact (free i inside.1 inside.2.1 inside.2.2).symm
  next => rfl

private theorem free_restored {before after : State} {flags : Flags} {ptr page : UInt64} (large : 4096 ≤ m.mapBits)
    (few : count.toNat < 2 ^ 20) (balanced : m.Accounted)
    (granted : allocPageRange m count flags = (some ptr, before)) (size : after.memoryMapSize = before.memoryMapSize)
    (bits : ∀ i, after.used i = before.used i) (balanced' : after.Accounted)
    (found : ∀ addr : PhysAddr, addr.toNat < m.mapBits * 4096 → ptr = addr + m.memoryMapBase →
      dropOffset after page = addr) : Restored m (freePageRange after page count) := by
  obtain ⟨addr, len, ranged, _, pointer⟩ := (Call.allocPageRange count flags).granted (congrArg Prod.fst granted)
  obtain ⟨first, _, index, _, inside, _⟩ := Call.range_take (.inr balanced) rfl ranged
  rw [page_toNat] at index
  have layout := (Call.allocPageRange count flags).exec_layout m
  rw [Call.exec, granted] at layout
  have size' := size.trans layout.size
  have bits' : ∀ i, after.used i = (allocPageRange m count flags).2.used i := by
    rw [granted]
    exact bits
  refine restored_of_used balanced ((Call.freePageRange page count).exec_accounted after balanced') ?_
    (free_undoes large few balanced ranged size' bits' (found addr (by omega) pointer))
  exact ((Call.freePageRange page count).exec_layout after).size.trans size'

private theorem dropOffset_added (fits : addr.toNat + m.memoryMapBase.toNat < 2 ^ 64) :
    dropOffset m (addr + m.memoryMapBase) = addr := by
  rw [dropOffset, if_pos, UInt64.add_sub_cancel]
  rw [ge_iff_le, UInt64.le_iff_toNat_le, UInt64.toNat_add]
  omega

theorem dropOffset_physical (below : m.memoryMapBase = 0 ∨ addr.toNat < m.memoryMapBase.toNat) :
    dropOffset m addr = addr := by
  rw [dropOffset]
  split
  next above =>
    rcases below with zero | below
    · rw [zero, UInt64.sub_zero]
    · have := UInt64.le_iff_toNat_le.mp above
      omega
  next => rfl

private theorem allocPageRange_kept {before : State} {flags : Flags} {ptr : UInt64} (balanced : m.Accounted)
    (granted : allocPageRange m count flags = (some ptr, before)) : SameLayout m before ∧ before.Accounted := by
  have layout := (Call.allocPageRange count flags).exec_layout m
  have kept := (Call.allocPageRange count flags).exec_accounted m balanced
  rw [Call.exec, granted] at layout kept
  exact ⟨layout, kept⟩

private theorem restores_kept {before : State} {flags : Flags} {ptr : UInt64} (large : 4096 ≤ m.mapBits)
    (few : count.toNat < 2 ^ 20) (balanced : m.Accounted)
    (fits : m.memoryMapBase.toNat + m.mapBits * 4096 ≤ 2 ^ 64)
    (granted : allocPageRange m count flags = (some ptr, before)) : Restored m (freePageRange before ptr count) := by
  obtain ⟨layout, kept⟩ := allocPageRange_kept balanced granted
  apply free_restored large few balanced granted rfl (fun _ => rfl) kept
  intro addr inside pointer
  rw [pointer, ← layout.base]
  apply dropOffset_added
  rw [layout.base]
  omega

private theorem restores_raised {before : State} {flags : Flags} {ptr page o : UInt64} (large : 4096 ≤ m.mapBits)
    (few : count.toNat < 2 ^ 20) (balanced : m.Accounted) (zero : m.memoryMapBase = 0)
    (above : o = 0 ∨ m.mapBits * 4096 ≤ o.toNat) (fits : o.toNat + m.mapBits * 4096 ≤ 2 ^ 64)
    (granted : allocPageRange m count flags = (some ptr, before)) (either : page = ptr ∨ page = ptr + o) :
    Restored m (freePageRange (setPhysicalBaseOffset before o) page count) := by
  obtain ⟨layout, kept⟩ := allocPageRange_kept balanced granted
  have kept' : (setPhysicalBaseOffset before o).Accounted := kept
  have base : (setPhysicalBaseOffset before o).memoryMapBase = o := rfl
  refine free_restored large few balanced granted rfl (fun _ => rfl) kept' fun addr inside pointer => ?_
  rw [zero, UInt64.add_zero] at pointer
  subst pointer
  rcases either with rfl | rfl
  · refine dropOffset_physical (above.imp_right fun high => ?_)
    rw [base]
    omega
  · apply dropOffset_added (m := setPhysicalBaseOffset before o)
    rw [base]
    omega

/-- With an offset above all memory that does not push it past the end of the address
space, freeing undoes allocating, also when the offset is set in between. -/
theorem free_restores {o : PhysAddr} {flags : Flags} (large : 512 ≤ m.memoryMapSize.toNat)
    (small : m.memoryMapSize.toNat < 2 ^ 29) (balanced : m.Accounted) (few : count.toNat < 2 ^ 20)
    (above : o = 0 ∨ m.memoryMapSize.toNat * 8 * 4096 ≤ o.toNat)
    (fits : o.toNat + m.memoryMapSize.toNat * 8 * 4096 ≤ 2 ^ 64) :
    (∀ ptr before, allocPageRange (setPhysicalBaseOffset m o) count flags = (some ptr, before) →
      Restored m (freePageRange before ptr count)) ∧
    ∀ ptr before, allocPageRange (setPhysicalBaseOffset m 0) count flags = (some ptr, before) →
      ∀ page, page = ptr ∨ page = ptr + o →
        Restored m (freePageRange (setPhysicalBaseOffset before o) page count) := by
  have bits := mapBits_eq small
  have wide : 4096 ≤ m.mapBits := by omega
  rw [← bits] at above fits
  refine ⟨fun ptr before granted => ?_, fun ptr before granted page either => ?_⟩
  · have restored := restores_kept (m := setPhysicalBaseOffset m o) wide few balanced fits granted
    exact ⟨restored.bitmap, restored.free⟩
  · have restored := restores_raised (m := setPhysicalBaseOffset m 0) wide few balanced rfl above fits granted either
    exact ⟨restored.bitmap, restored.free⟩

/-- Pages 0 and 1 of a map of 512 bytes are in use. -/
def lowMap : State :=
  { setMemoryMap [] 2 with memoryMapData := fun i => if i = 0 then 3 else 0, memoryMapSize := 512 }

theorem free_restores_witness :
    (∀ ptr before, allocPageRange (setPhysicalBaseOffset lowMap kVMRangePhysMemBase) 3 kActive = (some ptr, before) →
      Restored lowMap (freePageRange before ptr 3)) ∧
    ∀ ptr before, allocPageRange (setPhysicalBaseOffset lowMap 0) 3 kActive = (some ptr, before) →
      ∀ page, page = ptr ∨ page = ptr + kVMRangePhysMemBase →
        Restored lowMap (freePageRange (setPhysicalBaseOffset before kVMRangePhysMemBase) page 3) :=
  free_restores (by decide) (by decide) (by decide +kernel) (by decide) (.inr (by decide)) (by decide)

/-- An offset one page below the end of the address space sends page 2 to the address
of page 1, which is freed in its place. -/
theorem free_of_wrapped : ¬ ∀ (m : State) (o : PhysAddr) (count : UInt32) (flags : Flags) (ptr : UInt64) (before : State),
    512 ≤ m.memoryMapSize.toNat → m.memoryMapSize.toNat < 2 ^ 29 → m.used 0 = true → m.Accounted →
      1 ≤ count → count.toNat < 2 ^ 20 → (o = 0 ∨ m.memoryMapSize.toNat * 8 * 4096 ≤ o.toNat) →
        allocPageRange (setPhysicalBaseOffset m o) count flags = (some ptr, before) → ptr ≠ 0 →
          Restored m (freePageRange before ptr count) := by
  intro claim
  have restored := claim lowMap 0xfffffffffffff000 1 kActive 0x1000
    (allocPageRange (setPhysicalBaseOffset lowMap 0xfffffffffffff000) 1 kActive).2 (by decide) (by decide)
    (by decide) (by decide +kernel) (by decide) (by decide) (.inr (by decide)) (Prod.ext (by decide +kernel) rfl)
    (by decide)
  have word := congrFun restored.bitmap 0
  exact absurd word (by decide +kernel)

end Hotarubi.Memory.Physmm
