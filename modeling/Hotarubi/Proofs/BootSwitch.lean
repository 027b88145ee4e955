import Hotarubi.Memory.BootTables
import Hotarubi.Proofs.VirtmmRequests
import Hotarubi.Proofs.VirtmmWrites

/-! From the tables of boot.S to the kernel's own. What the code touches across the switch
is at the same place before and after it. -/

namespace Hotarubi.Memory.Boot
open Base Radix Virtmm

section Tables

variable {mem : UInt64 → UInt64} {symbols : Symbols} {t : UInt64} {i : Fin 512}

private theorem entry_add {page : UInt64} (aligned : page.toNat % 4096 = 0) (bound : page.toNat < 2 ^ 46) :
    page + 3 = page ||| (kPresent ||| kWritable) := by
  apply UInt64.toNat_inj.mp
  have three : (kPresent ||| kWritable).toNat = 3 := by decide
  have split : page.toNat = 2 ^ 12 * (page.toNat / 4096) := by omega
  have low := Nat.two_pow_add_eq_or_of_lt (show 3 < 2 ^ 12 by decide) (page.toNat / 4096)
  rw [UInt64.toNat_or, three, UInt64.toNat_add, show (3 : UInt64).toNat = 3 from rfl]
  rw [← split] at low
  omega

private theorem presentTable_hooked (inside : IsFrame t) {table : UInt64} (points : mem (slot table i) = t + 3) :
    presentTable mem table i = some (t ||| (kPresent ||| kWritable)) := by
  rw [entry_add inside.aligned inside.bound] at points
  exact presentTable_eq inside points

private theorem presentTable_zero {table : UInt64} (empty : mem (slot table i) = 0) : presentTable mem table i = none := by
  rw [presentTable, empty]
  rfl

private theorem bootPml4_get (pdpt1 pdpt2 : UInt64) {n : Nat} (inside : n < 512) : (bootPml4 pdpt1 pdpt2)[n]? =
    some (if n = 0 then pdpt1 + 3 else if n = 511 then pdpt2 + 3 else 0) := by
  cases n with
  | zero => rfl
  | succ n =>
    by_cases last : n = 510
    · subst last
      rw [bootPml4, List.cons_append, List.getElem?_cons_succ, List.getElem?_append_right (by rw [List.length_replicate]),
        List.length_replicate]
      rfl
    · rw [bootPml4, List.cons_append, List.getElem?_cons_succ, List.getElem?_append_left
        (by rw [List.length_replicate]; omega),
        List.getElem?_replicate_of_lt (by omega), if_neg (Nat.succ_ne_zero n), if_neg (by omega)]

private theorem bootPdpt1_get (pdt : UInt64) {n : Nat} (inside : n < 512) :
    (bootPdpt1 pdt)[n]? = some (if n = 0 then pdt + 3 else 0) := by
  cases n with
  | zero => rfl
  | succ n =>
    rw [bootPdpt1, List.getElem?_cons_succ, List.getElem?_replicate_of_lt (by omega), if_neg (Nat.succ_ne_zero n)]

private theorem bootPdpt2_get (pdt : UInt64) {n : Nat} (inside : n < 512) :
    (bootPdpt2 pdt)[n]? = some (if n = 510 then pdt + 3 else 0) := by
  rw [bootPdpt2]
  by_cases before : n < 510
  · rw [List.getElem?_append_left (by rwa [List.length_replicate]), List.getElem?_replicate_of_lt before, if_neg (by omega)]
  · rw [List.getElem?_append_right (by rw [List.length_replicate]; omega), List.length_replicate]
    have cases : n = 510 ∨ n = 511 := by omega
    rcases cases with rfl | rfl
    · rfl
    · rfl

private theorem bootPdt_get {n : Nat} (inside : n < 512) : bootPdt[n]? = some (UInt64.ofNat n * 0x200000 ||| 0x83) := by
  rw [bootPdt, List.getElem?_map, List.getElem?_range inside]
  rfl

theorem Loaded.directories (loaded : Loaded mem symbols) : IsFrame symbols.pdt ∧ IsFrame symbols.pdpt1 ∧
    IsFrame symbols.pdpt2 :=
  ⟨loaded.frames _ (by simp [Symbols.tables]), loaded.frames _ (by simp [Symbols.tables]),
    loaded.frames _ (by simp [Symbols.tables])⟩

theorem Loaded.top (loaded : Loaded mem symbols) (i : Fin 512) : presentTable mem symbols.pml4 i =
    if i.val = 0 then some (symbols.pdpt1 ||| (kPresent ||| kWritable))
    else if i.val = 511 then some (symbols.pdpt2 ||| (kPresent ||| kWritable)) else none := by
  have word := loaded.pml4 i
  obtain ⟨_, first, second⟩ := loaded.directories
  rw [bootPml4_get _ _ i.isLt] at word
  have entry := (Option.some.inj word).symm
  by_cases low : i.val = 0
  · rw [if_pos low] at entry ⊢
    exact presentTable_hooked first entry
  · rw [if_neg low] at entry ⊢
    by_cases high : i.val = 511
    · rw [if_pos high] at entry ⊢
      exact presentTable_hooked second entry
    · rw [if_neg high] at entry ⊢
      exact presentTable_zero entry

theorem Loaded.first (loaded : Loaded mem symbols) (i : Fin 512) : presentTable mem symbols.pdpt1 i =
    if i.val = 0 then some (symbols.pdt ||| (kPresent ||| kWritable)) else none := by
  have word := loaded.pdpt1 i
  obtain ⟨table, _, _⟩ := loaded.directories
  rw [bootPdpt1_get _ i.isLt] at word
  have entry := (Option.some.inj word).symm
  by_cases low : i.val = 0
  · rw [if_pos low] at entry ⊢
    exact presentTable_hooked table entry
  · rw [if_neg low] at entry ⊢
    exact presentTable_zero entry

theorem Loaded.second (loaded : Loaded mem symbols) (i : Fin 512) : presentTable mem symbols.pdpt2 i =
    if i.val = 510 then some (symbols.pdt ||| (kPresent ||| kWritable)) else none := by
  have word := loaded.pdpt2 i
  obtain ⟨table, _, _⟩ := loaded.directories
  rw [bootPdpt2_get _ i.isLt] at word
  have entry := (Option.some.inj word).symm
  by_cases high : i.val = 510
  · rw [if_pos high] at entry ⊢
    exact presentTable_hooked table entry
  · rw [if_neg high] at entry ⊢
    exact presentTable_zero entry

/-- One entry of the table of large pages. -/
theorem Loaded.large (loaded : Loaded mem symbols) (i : Fin 512) :
    ∃ entry, presentPage mem symbols.pdt i = some entry ∧ entry &&& kSizeExtend ≠ 0 ∧ entry &&& kWritable = kWritable ∧
      frame2M entry = UInt64.ofNat i * 0x200000 := by
  have word := loaded.pdt i
  rw [bootPdt_get i.isLt] at word
  have entry := (Option.some.inj word).symm
  have all : ∀ i : Fin 512, (UInt64.ofNat i * 0x200000 ||| 0x83) &&& kPresent ≠ 0 ∧
      (UInt64.ofNat i * 0x200000 ||| 0x83) &&& kSizeExtend ≠ 0 ∧
      (UInt64.ofNat i * 0x200000 ||| 0x83) &&& kWritable = kWritable ∧
      frame2M (UInt64.ofNat i * 0x200000 ||| 0x83) = UInt64.ofNat i * 0x200000 := by decide +kernel
  obtain ⟨present, large, writable, points⟩ := all i
  rw [← entry] at present large writable points
  exact ⟨mem (slot symbols.pdt i), by rw [presentPage, if_pos present], large, writable, points⟩

/-- Two slots of 1 GiB show the first GiB. -/
def InSlot (v : VirtAddr) : Prop :=
  (pml4Index v).val = 0 ∧ (pdptIndex v).val = 0 ∨ (pml4Index v).val = 511 ∧ (pdptIndex v).val = 510

theorem Loaded.walk (loaded : Loaded mem symbols) {v : VirtAddr} (inside : InSlot v) :
    largeWalk mem symbols.pml4 v = some (UInt64.ofNat (v.toNat % 2 ^ 30), true) := by
  obtain ⟨pdt, pdpt1, pdpt2⟩ := loaded.directories
  obtain ⟨pdte, last, large, writable, points⟩ := loaded.large (pdtIndex v)
  have through {u : UInt64} (frame : IsFrame u) : (u ||| (kPresent ||| kWritable)) &&& kWritable = kWritable :=
    (and_low frame.aligned (by decide)).trans (by decide)
  have allows {u w : UInt64} (frame : IsFrame u) (frame' : IsFrame w) :
      ((u ||| (kPresent ||| kWritable)) &&& (w ||| (kPresent ||| kWritable)) &&& pdte) &&& kWritable = kWritable := by
    rw [UInt64.and_assoc, writable, UInt64.and_assoc, through frame', through frame]
  have address : UInt64.ofNat (pdtIndex v) * 0x200000 + (v &&& 0x1fffff) = UInt64.ofNat (v.toNat % 2 ^ 30) := by
    have low : (v &&& 0x1fffff).toNat = v.toNat % 2 ^ 21 := Mask.and_low_toNat (v := 21) v.toBitVec rfl
    apply UInt64.toNat_inj.mp
    rw [UInt64.toNat_add, UInt64.toNat_mul, UInt64.toNat_ofNat', UInt64.toNat_ofNat', low, pdtIndex, tableIndex_val,
      UInt64.toNat_shiftRight, Nat.shiftRight_eq_div_pow, show (21 : UInt64).toNat % 64 = 21 from rfl,
      show (0x200000 : UInt64).toNat = 2 ^ 21 from rfl]
    omega
  rcases inside with ⟨low, low'⟩ | ⟨high, high'⟩
  · rw [largeWalk, loaded.top, if_pos low]
    simp only [Option.bind_eq_bind, Option.bind_some, frame_directory pdpt1, loaded.first, low', if_true,
      frame_directory pdt,
      last, large, ne_eq, not_false_eq_true, points, allows pdpt1 pdt, address]
    rfl
  · rw [largeWalk, loaded.top, if_neg (by omega), if_pos high]
    simp only [Option.bind_eq_bind, Option.bind_some, frame_directory pdpt2, loaded.second, high', if_true,
      frame_directory pdt,
      last, large, ne_eq, not_false_eq_true, points, allows pdpt2 pdt, address]
    rfl

private theorem Loaded.walk_none (loaded : Loaded mem symbols) {v : VirtAddr} (outside : ¬ InSlot v) :
    largeWalk mem symbols.pml4 v = none := by
  obtain ⟨_, pdpt1, pdpt2⟩ := loaded.directories
  unfold InSlot at outside
  rw [largeWalk, loaded.top]
  by_cases low : (pml4Index v).val = 0
  · rw [if_pos low]
    simp only [Option.bind_eq_bind, Option.bind_some, frame_directory pdpt1, loaded.first]
    rw [if_neg (by omega), Option.bind_none]
  · rw [if_neg low]
    by_cases high : (pml4Index v).val = 511
    · rw [if_pos high]
      simp only [Option.bind_eq_bind, Option.bind_some, frame_directory pdpt2, loaded.second]
      rw [if_neg (by omega), Option.bind_none]
    · rw [if_neg high]
      rfl

private theorem inSlot_low {v : VirtAddr} (low : v.toNat < 2 ^ 30) : InSlot v := by
  left
  simp only [pml4Index, pdptIndex, tableIndex_val, UInt64.toNat_shiftRight, Nat.shiftRight_eq_div_pow,
    show (30 : UInt64).toNat % 64 = 30 from rfl, show (39 : UInt64).toNat % 64 = 39 from rfl]
  omega

private theorem Loaded.walk_low (loaded : Loaded mem symbols) {x : PhysAddr} (low : x.toNat < 2 ^ 30) :
    largeWalk mem symbols.pml4 x = some (x, true) := by
  rw [loaded.walk (inSlot_low low), Nat.mod_eq_of_lt low, UInt64.ofNat_toNat]

/-- A page is in reach exactly if it lies below 1 GiB. -/
theorem Loaded.reach (loaded : Loaded mem symbols) {page : UInt64} (inside : IsFrame page) :
    largeWalk mem symbols.pml4 page = some (page, true) ↔ page.toNat / 4096 < 2 ^ 18 := by
  have bound := inside.bound
  by_cases low : page.toNat < 2 ^ 30
  · rw [loaded.walk_low low]
    simp only [true_iff]
    omega
  · have outside : ¬ InSlot page := by
      simp only [InSlot, pml4Index, pdptIndex, tableIndex_val, UInt64.toNat_shiftRight, Nat.shiftRight_eq_div_pow,
        show (30 : UInt64).toNat % 64 = 30 from rfl, show (39 : UInt64).toNat % 64 = 39 from rfl]
      omega
    rw [loaded.walk_none outside]
    simp only [reduceCtorEq, false_iff]
    omega

end Tables

section Switch

variable {m : Physmm.State} {image : Image} {info : Physmm.BootInfo} {b : Physmm.Booted} {mem : UInt64 → UInt64}
  {symbols : Symbols} {systemPml4 : UInt64} {s : State Physmm.State}

private theorem sections_ordered (linked : image.Linked) : kVMRangeKernelBase.toNat ≤ image.text.toNat ∧
    image.text.toNat < image.irqstub.toNat ∧ image.irqstub.toNat < image.data.toNat ∧
    image.data.toNat < image.ending.toNat :=
  ⟨Nat.le_trans (Nat.le_add_right _ _) linked.loaded, UInt64.lt_iff_toNat_lt.mp linked.textFirst,
    UInt64.lt_iff_toNat_lt.mp linked.irqstubNext, UInt64.lt_iff_toNat_lt.mp linked.dataLast⟩

private theorem ending_bound (boot : Booting m image info b) :
    image.ending.toNat ≤ kVMRangeKernelBase.toNat + (info.first image.ending).toNat ∧
      (info.first image.ending).toNat < 2 ^ 30 := by
  obtain ⟨text, irqstub, data, ending⟩ := sections_ordered boot.linked
  have above : kVMRangeKernelBase ≤ image.ending := UInt64.le_iff_toNat_le.mpr (by omega)
  have fits := boot.started.placed.fits
  have up : (Physmm.kernelEnd image.ending).toNat ≤ (info.first image.ending).toNat :=
    (Physmm.firstFree_spec (Physmm.kernelEnd image.ending) info.modList).1
  rw [Physmm.kernelEnd, UInt64.toNat_sub_of_le _ _ above] at up
  omega

private theorem bootstrap_used (boot : Booting m image info b) (linked : symbols.Linked image) {t : UInt64}
    (member : t ∈ symbols.tables) (inside : t.toNat / 4096 < b.state.mapBits) : b.state.used (t.toNat / 4096) = true := by
  obtain ⟨text, irqstub, data, ending⟩ := sections_ordered boot.linked
  obtain ⟨image, _⟩ := ending_bound boot
  obtain ⟨_, below⟩ := linked t member
  have above := boot.started.placed.above
  rw [← Bool.not_eq_false, boot.started.used _ inside]
  intro ⟨entry, _, _, usable, page, _⟩
  have later := UInt64.le_iff_toNat_le.mp usable
  omega

/-- The tables of boot.S stay as they are. -/
theorem Loaded.kept (loaded : Loaded mem symbols) (boot : Booting m image info b) (linked : symbols.Linked image)
    (state : Lowest b.state s.physmm) (writes : Writes 0 (Fresh b.state) ⟨mem, symbols.pml4, systemPml4, b.state⟩ s) :
    Loaded s.mem symbols := by
  have same {t : UInt64} (member : t ∈ symbols.tables) (i : Fin 512) : s.mem (slot t i) = mem (slot t i) := by
    have free : ¬ Fresh b.state s.physmm t := by
      intro ⟨used, fresh⟩
      obtain ⟨inside, _⟩ := state.lowest _ used (Bool.eq_false_of_not_eq_true fresh)
      exact fresh (bootstrap_used boot linked member inside)
    have kept := writes.keeps t (loaded.frames t member) free i
    rwa [UInt64.add_zero] at kept
  refine ⟨loaded.frames, fun i => ?_, fun i => ?_, fun i => ?_, fun i => ?_⟩
  · rw [same (by simp [Symbols.tables])]
    exact loaded.pdt i
  · rw [same (by simp [Symbols.tables])]
    exact loaded.pml4 i
  · rw [same (by simp [Symbols.tables])]
    exact loaded.pdpt1 i
  · rw [same (by simp [Symbols.tables])]
    exact loaded.pdpt2 i

end Switch

section Example

end Example

end Hotarubi.Memory.Boot
