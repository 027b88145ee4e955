import Hotarubi.Memory.PhysmmInit
import Hotarubi.Proofs.PhysmmCalls

/-! What a boot that does not panic leaves behind: where the bitmap and the page
map lie, and which pages are marked free. -/

namespace Hotarubi.Memory.Physmm
open Base Base.Bitmap

private theorem mask_page {x : UInt64} (small : x.toNat < 2 ^ 31) : (x &&& 0x7ffff000).toNat = x.toNat / 4096 * 4096 := by
  rw [UInt64.toNat_and, show (0x7ffff000 : UInt64).toNat = 0x7ffff000 from rfl]
  apply Nat.eq_of_testBit_eq
  intro i
  rw [Nat.testBit_and, show 4096 = 2 ^ 12 from rfl, Nat.testBit_mul_two_pow, Nat.testBit_div_two_pow]
  by_cases high : 31 ≤ i
  · have clear : x.toNat.testBit i = false :=
      Nat.testBit_lt_two_pow (Nat.lt_of_lt_of_le small (Nat.pow_le_pow_right (by decide) high))
    by_cases low : 12 ≤ i
    · simp [clear, low]
    · omega
  · have mask : ∀ j < 31, (0x7ffff000).testBit j = decide (12 ≤ j) := by decide
    rw [mask i (by omega)]
    by_cases low : 12 ≤ i
    · simp [low]
    · simp [low]

private theorem surveyEntry_mapped {survey : Survey} (bound : survey.firstChunkAbove1mb ≤ bootMaxMapped)
    (entry : MmapEntry) :
    (surveyEntry survey entry).firstChunkAbove1mb ≤ bootMaxMapped := by
  simp only [surveyEntry]
  split
  · dsimp only
    split
    · simp only [clampMapped]
      split
      · exact UInt64.le_refl _
      next below => exact UInt64.not_lt.mp below
    · exact bound
  · exact bound

private theorem surveyMap_mapped (mmap : List MmapEntry) : (surveyMap mmap).firstChunkAbove1mb ≤ bootMaxMapped := by
  have start : (⟨0, 0, 0⟩ : Survey).firstChunkAbove1mb ≤ bootMaxMapped := by decide
  unfold surveyMap
  generalize (⟨0, 0, 0⟩ : Survey) = survey at start
  induction mmap generalizing survey with
  | nil => exact start
  | cons entry mmap ih => exact ih _ (surveyEntry_mapped start entry)

private theorem passModule_spec (first : PhysAddr) (mod : Module) :
    first.toNat ≤ (passModule first mod).toNat ∧
      (first.toNat < mod.modStart.toNat → mod.modEnd.toNat ≤ (passModule first mod).toNat) ∧
      (first.toNat < 2 ^ 33 → (passModule first mod).toNat < 2 ^ 33) := by
  have ordered := UInt32.le_iff_toNat_le.mp mod.ordered
  have top := mod.modEnd.toNat_lt
  have line := mod.cmdline.toNat_lt
  have length := mod.cmdlineLength.toNat_lt
  have sum : (mod.cmdline.toUInt64 + mod.cmdlineLength.toUInt64).toNat =
      mod.cmdline.toNat + mod.cmdlineLength.toNat := by
    rw [UInt64.toNat_add, UInt32.toNat_toUInt64, UInt32.toNat_toUInt64]
    omega
  unfold passModule
  simp only [gt_iff_lt, UInt64.lt_iff_toNat_lt, UInt32.toNat_toUInt64]
  split
  next above =>
    split
    · rw [sum]
      omega
    · rw [UInt32.toNat_toUInt64]
      omega
  · omega

theorem firstFree_spec (first : PhysAddr) (mods : List Module) :
    first.toNat ≤ (firstFree first mods).toNat ∧ (first.toNat < 2 ^ 33 → (firstFree first mods).toNat < 2 ^ 33) ∧
      ∀ mod ∈ mods, mod.modStart.toNat ≤ (firstFree first mods).toNat ∨
        mod.modEnd.toNat ≤ (firstFree first mods).toNat := by
  induction mods generalizing first with
  | nil => exact ⟨Nat.le_refl _, id, nofun⟩
  | cons mod mods ih =>
    obtain ⟨up, past, small⟩ := passModule_spec first mod
    obtain ⟨later, smaller, placed⟩ := ih (passModule first mod)
    rw [show firstFree first (mod :: mods) = firstFree (passModule first mod) mods from rfl]
    refine ⟨Nat.le_trans up later, fun bound => smaller (small bound), fun other member => ?_⟩
    rcases List.mem_cons.mp member with rfl | member
    · by_cases above : first.toNat < other.modStart.toNat
      · exact .inr (Nat.le_trans (past above) later)
      · exact .inl (by omega)
    · exact placed other member

variable {m : State} {ending : VirtAddr} {info : BootInfo} {b : Booted}

/-- Where a boot that is accepted puts the bitmap and the page map, and from where it frees. -/
structure Placed (ending : VirtAddr) (info : BootInfo) : Prop where
  fits : (info.first ending).toNat + 193 * info.size.toNat ≤ 0x3ff00000
  aligned : (info.usable ending).toNat % 4096 = 0
  above : (info.first ending).toNat + 8 + 193 * info.size.toNat < (info.usable ending).toNat
  below : (info.usable ending).toNat ≤ (info.first ending).toNat + 8 + 193 * info.size.toNat + 4096

private theorem kernelEnd_small (linked : kVMRangeKernelBase ≤ ending) : (kernelEnd ending).toNat < 2 ^ 31 := by
  have bound := ending.toNat_lt
  rw [kernelEnd, UInt64.toNat_sub_of_le _ _ linked, kernelBase_toNat]
  omega

theorem init_cases (booted : init m ending info = some b) :
    info.fits ending = true ∧ b =
      { state := (info.trimmed ending).foldl (releaseEntry (info.usable ending))
          (allUsed m info.size (info.first ending))
        memoryMapData := info.first ending + 8
        memoryUpperBound := (surveyMap info.mmap).memoryUpperBound } := by
  unfold init at booted
  split at booted
  · cases booted
  · split at booted
    · cases booted
    next fits => exact ⟨by simpa using fits, (Option.some.inj booted).symm⟩

private theorem pageMapSize_toNat (size : UInt32) : (pageMapSize size).toNat = 192 * size.toNat := by
  have bound := size.toNat_lt
  simp only [pageMapSize, UInt64.toNat_mul, UInt32.toNat_toUInt64, show (24 : UInt64).toNat = 24 from rfl,
    show (8 : UInt64).toNat = 8 from rfl]
  omega

private theorem fits_placed (linked : kVMRangeKernelBase ≤ ending) (fits : info.fits ending = true) :
    Placed ending info := by
  have mapped := surveyMap_mapped info.mmap
  have small : (info.first ending).toNat < 2 ^ 33 :=
    (firstFree_spec (kernelEnd ending) info.modList).2.1 (Nat.lt_trans (kernelEnd_small linked) (by decide))
  have bound := info.size.toNat_lt
  have maps := pageMapSize_toNat info.size
  have total : (info.first ending + info.size.toUInt64 + pageMapSize info.size).toNat =
      (info.first ending).toNat + 193 * info.size.toNat := by
    simp only [UInt64.toNat_add, UInt32.toNat_toUInt64, maps]
    omega
  have next : (info.first ending + 8 + (info.size.toUInt64 + pageMapSize info.size + pageSize)).toNat =
      (info.first ending).toNat + 8 + 193 * info.size.toNat + 4096 := by
    simp only [UInt64.toNat_add, UInt32.toNat_toUInt64, maps, show (8 : UInt64).toNat = 8 from rfl,
      pageSize_toNat]
    omega
  have inside := UInt64.le_iff_toNat_le.mp (UInt64.le_trans (of_decide_eq_true fits) mapped)
  rw [total, show bootMaxMapped.toNat = 0x3ff00000 from rfl] at inside
  have usable : (info.usable ending).toNat =
      ((info.first ending).toNat + 8 + 193 * info.size.toNat + 4096) / 4096 * 4096 := by
    rw [BootInfo.usable, firstUsable, mask_page (by omega), next]
  exact ⟨inside, by omega, by omega, by omega⟩

private theorem size_bits (placed : Placed ending info) : (info.size * 8).toNat = 8 * info.size.toNat := by
  have fits := placed.fits
  rw [UInt32.toNat_mul, show (8 : UInt32).toNat = 8 from rfl]
  omega

private theorem allUsed_bits (placed : Placed ending info) (m : State) (first : PhysAddr) :
    (allUsed m info.size first).mapBits = 8 * info.size.toNat := size_bits placed

private theorem allUsed_used (m : State) {size : UInt32} (first : PhysAddr) {i : Nat} (inside : i < 8 * size.toNat) :
    (allUsed m size first).used i = true := by
  have kept : i % 32 < 8 * min 4 (size.toNat - 4 * (i / 32)) := by omega
  have low : i % 32 < 32 := Nat.mod_lt _ (by decide)
  change (m.memoryMapData (i / 32) ||| _).getLsbD (i % 32) = true
  rw [BitVec.getLsbD_or, BitVec.getLsbD_ofNat, Nat.testBit_two_pow_sub_one]
  simp [kept, low]

private theorem allUsed_accounted (placed : Placed ending info) (m : State) (first : PhysAddr) :
    (allUsed m info.size first).Accounted := by
  have full : ((Finset.range (allUsed m info.size first).mapBits).filter fun i =>
      bitAt (allUsed m info.size first).memoryMapData i = false) = ∅ := by
    apply Finset.filter_eq_empty_iff.mpr
    intro i member
    rw [allUsed_bits placed, Finset.mem_range] at member
    simp [show bitAt (allUsed m info.size first).memoryMapData i = true from allUsed_used m first member]
  have count := popCount_add_clear (allUsed m info.size first).memoryMapData (allUsed m info.size first).mapBits
  rw [full, Finset.card_empty, Nat.add_zero] at count
  exact count.symm

/-- The pages an entry of the memory map frees. -/
def Frees (usable : PhysAddr) (entry : MmapEntry) (i : Nat) : Prop :=
  entry.type = multibootMemoryAvailable ∧ usable ≤ entry.addr ∧ entry.addr.toNat / 4096 ≤ i ∧
    i < entry.addr.toNat / 4096 + entry.len.toNat / 4096

instance (usable : PhysAddr) (entry : MmapEntry) (i : Nat) : Decidable (Frees usable entry i) :=
  inferInstanceAs (Decidable (_ ∧ _))

private theorem releaseEntry_spec (usable : PhysAddr) (m : State) (entry : MmapEntry) :
    SameLayout m (releaseEntry usable m entry) ∧ (m.Accounted → (releaseEntry usable m entry).Accounted) ∧
      ∀ i < m.mapBits, (releaseEntry usable m entry).used i = (m.used i && !decide (Frees usable entry i)) := by
  unfold releaseEntry
  split
  next frees =>
    refine ⟨(markFreeFrom_layout m _ _).1.trans (setPages_layout ..), fun balanced =>
      setPages_accounted _ _ _ _ (markFreeFrom_accounted balanced _ _), fun i inside => ?_⟩
    rw [resetPageRange, setPages_used, markFreeRange, used_markFreeFrom, page_toNat, page_toNat]
    simp [Frees, frees, inside]
  next keeps =>
    refine ⟨setPages_layout .., setPages_accounted _ _ _ _, fun i _ => ?_⟩
    rw [flagPageRange, setPages_used]
    have none' : ¬ Frees usable entry i := fun frees => keeps ⟨frees.1, frees.2.1⟩
    simp [none']

private theorem releaseEntries_spec (usable : PhysAddr) (m : State) (entries : List MmapEntry) :
    SameLayout m (entries.foldl (releaseEntry usable) m) ∧
      (m.Accounted → (entries.foldl (releaseEntry usable) m).Accounted) ∧
      ∀ i < m.mapBits, (entries.foldl (releaseEntry usable) m).used i = false ↔
        m.used i = false ∨ ∃ entry ∈ entries, Frees usable entry i := by
  induction entries generalizing m with
  | nil => exact ⟨.refl m, id, fun i _ => by simp⟩
  | cons entry entries ih =>
    obtain ⟨layout, balanced, bits⟩ := releaseEntry_spec usable m entry
    obtain ⟨layout', balanced', bits'⟩ := ih (releaseEntry usable m entry)
    refine ⟨layout.trans layout', fun before => balanced' (balanced before), fun i inside => ?_⟩
    rw [List.foldl_cons, bits' i (by rwa [layout.mapBits]), bits i inside]
    simp only [Bool.and_eq_false_iff, Bool.not_eq_false', decide_eq_true_eq, List.exists_mem_cons_iff, or_assoc]

/-- What an accepted boot leaves: a page of the map is free exactly if some
trimmed entry frees it, and the books are balanced. -/
structure Started (m : State) (ending : VirtAddr) (info : BootInfo) (b : Booted) : Prop where
  placed : Placed ending info
  size : b.state.memoryMapSize = info.size
  base : b.state.memoryMapBase = m.memoryMapBase
  data : b.memoryMapData.toNat = (info.first ending).toNat + 8
  pages : b.state.memoryMapPages.toNat = (info.first ending).toNat + 8 + info.size.toNat
  accounted : b.state.Accounted
  used : ∀ i < b.state.mapBits, b.state.used i = false ↔
    ∃ entry ∈ info.mmap, Frees (info.usable ending) (trim (info.usable ending) entry) i

theorem Started.mapBits (started : Started m ending info b) : b.state.mapBits = 8 * info.size.toNat := by
  rw [State.mapBits, started.size, size_bits started.placed]

theorem init_started (linked : kVMRangeKernelBase ≤ ending) (booted : init m ending info = some b) :
    Started m ending info b := by
  obtain ⟨fits, rfl⟩ := init_cases booted
  have placed := fits_placed linked fits
  have bound := placed.fits
  obtain ⟨layout, balanced, bits⟩ :=
    releaseEntries_spec (info.usable ending) (allUsed m info.size (info.first ending)) (info.trimmed ending)
  have size := allUsed_bits placed m (info.first ending)
  refine ⟨placed, layout.size, layout.base, ?_, ?_, balanced (allUsed_accounted placed m _), fun i inside => ?_⟩
  · rw [UInt64.toNat_add, show (8 : UInt64).toNat = 8 from rfl]
    omega
  · rw [layout.array]
    simp only [allUsed, UInt64.toNat_add, UInt32.toNat_toUInt64, show (8 : UInt64).toNat = 8 from rfl]
    omega
  · have inside' : i < 8 * info.size.toNat := by
      rw [← size, ← layout.mapBits]
      exact inside
    rw [bits i (by rwa [size]), allUsed_used m _ inside']
    simp [BootInfo.trimmed]

end Hotarubi.Memory.Physmm
