import Hotarubi.Proofs.VirtmmRefinement

/-! The kernel's own address space: six regions mapped one after the other into
an empty PML4, read back the way the processor walks the tables. -/

namespace Hotarubi.Memory.Virtmm
open Base Radix

def kSizeExtend : UInt64 := (1 : UInt64) <<< 7

/-- A table the processor can go on to: present, and no large page. -/
def presentTable (mem : UInt64 → UInt64) (table : UInt64) (i : Fin 512) : Option UInt64 :=
  let entry := mem (slot table i)
  if entry &&& kPresent ≠ 0 ∧ entry &&& kSizeExtend = 0 then some entry else none

def presentPage (mem : UInt64 → UInt64) (table : UInt64) (i : Fin 512) : Option UInt64 :=
  let entry := mem (slot table i)
  if entry &&& kPresent ≠ 0 then some entry else none

/-- The processor's translation of an address with `cr3 = root`, and whether all
four entries allow a write. -/
def processorWalk (mem : UInt64 → UInt64) (root : UInt64) (v : VirtAddr) : Option (PhysAddr × Bool) := do
  let pml4e ← presentTable mem root (pml4Index v)
  let pdpte ← presentTable mem (frame pml4e) (pdptIndex v)
  let pdte ← presentTable mem (frame pdpte) (pdtIndex v)
  let pte ← presentPage mem (frame pdte) (ptIndex v)
  some (frame pte + (v &&& 0xfff), (pml4e &&& pdpte &&& pdte &&& pte) &&& kWritable != 0)

/-- The page number of an address, as far as the tables distinguish it. -/
def pageNumber (v : VirtAddr) : Nat := v.toNat / 4096 % 2 ^ 36

/-- The arguments of one `_map_region` call. -/
structure Region where
  vaddr : VirtAddr
  paddr : PhysAddr
  len : UInt64
  flags : UInt64

/-- The number of the last page a call maps, counted from its first. -/
def Region.last (r : Region) : Nat := (r.len.toNat - 1) / 4096

/-- Aligned, not empty, and inside both address spaces. -/
structure Region.Sound (r : Region) : Prop where
  start : r.vaddr.toNat % 4096 = 0
  aligned : r.paddr.toNat % 4096 = 0
  nonempty : 0 < r.len.toNat
  bound : r.paddr.toNat + r.len.toNat ≤ 2 ^ 46
  straight : r.vaddr.toNat + r.len.toNat ≤ 2 ^ 64
  inside : pageNumber r.vaddr + r.last < 2 ^ 36
  flags : r.flags = kNone ∨ r.flags = kWritable

/-- The pages of the two regions are different ones. -/
def Region.Apart (r r' : Region) : Prop :=
  pageNumber r.vaddr + r.last < pageNumber r'.vaddr ∨ pageNumber r'.vaddr + r'.last < pageNumber r.vaddr

def Region.Covers (r : Region) (w : VirtAddr) : Prop :=
  pageNumber r.vaddr ≤ pageNumber w ∧ pageNumber w ≤ pageNumber r.vaddr + r.last

def Region.Contains (r : Region) (a : VirtAddr) : Prop :=
  r.vaddr.toNat ≤ a.toNat ∧ a.toNat < r.vaddr.toNat + r.len.toNat

/-- The leaf entry a region gives to a page it covers. -/
def Region.entry (r : Region) (w : VirtAddr) : UInt64 :=
  (r.paddr + UInt64.ofNat (pageNumber w - pageNumber r.vaddr) * pageSize) ||| (kPresent ||| r.flags)

section Steps

variable {σ : Type} {pages : PageSource σ} {base : UInt64} {valid : σ → Prop} {live : σ → UInt64 → Prop}
  {root : UInt64} {s s' : State σ}

theorem indices_eq_iff_pageNumber (v w : VirtAddr) : indices v = indices w ↔ pageNumber v = pageNumber w :=
  indices_eq_iff v w

theorem pageNumber_add (v : VirtAddr) (k : Nat) :
    pageNumber (v + UInt64.ofNat k * pageSize) = (pageNumber v + k) % 2 ^ 36 := by
  simp only [pageNumber, UInt64.toNat_add, UInt64.toNat_mul, UInt64.toNat_ofNat', pageSize_toNat]
  omega

private theorem mapPages_spec (supply : Supply pages base valid live) (offset : BaseOffset base)
    (flags : UInt64) {more : Nat}
    (good : Good base valid live root s) {v : VirtAddr} {p : PhysAddr} (inside : pageNumber v + more < 2 ^ 36)
    (mapped : mapPages pages s (root + base) v p flags more = (true, s')) :
    Good base valid live root s' ∧ SameRegisters s s' ∧ ∀ w, pte base s'.mem root w =
      if pageNumber v ≤ pageNumber w ∧ pageNumber w ≤ pageNumber v + more then
        (p + UInt64.ofNat (pageNumber w - pageNumber v) * pageSize) ||| (kPresent ||| flags)
      else pte base s.mem root w := by
  induction more generalizing s v p with
  | zero =>
    have first := mapPage_spec supply offset good v p flags
    rw [mapPages] at mapped
    rw [mapped] at first
    refine ⟨first.good, first.registers, fun w => ?_⟩
    rw [first.ptes]
    simp only [indices_eq_iff_pageNumber, true_and]
    by_cases same : pageNumber w = pageNumber v
    · rw [if_pos same, if_pos (by omega), same, Nat.sub_self]
      simp
    · rw [if_neg same, if_neg (by omega)]
  | succ more ih =>
    have first := mapPage_spec supply offset good v p flags
    rw [mapPages] at mapped
    cases done : mapPage pages s (root + base) v p flags with
    | mk granted s1 =>
      rw [done] at first mapped
      cases granted with
      | false => cases mapped
      | true =>
        have next : pageNumber (v + pageSize) = pageNumber v + 1 := by
          have step := pageNumber_add v 1
          rw [show UInt64.ofNat 1 * pageSize = pageSize from rfl] at step
          omega
        obtain ⟨good', same, rest⟩ := ih first.good (by omega) mapped
        refine ⟨good', first.registers.trans same, fun w => ?_⟩
        rw [rest, first.ptes, next]
        simp only [indices_eq_iff_pageNumber, true_and]
        by_cases start : pageNumber w = pageNumber v
        · rw [if_neg (by omega), if_pos start, if_pos (by omega), start, Nat.sub_self]
          simp
        · by_cases beyond : pageNumber v + 1 ≤ pageNumber w ∧ pageNumber w ≤ pageNumber v + 1 + more
          · have shift : pageNumber w - pageNumber v = (pageNumber w - (pageNumber v + 1)) + 1 := by omega
            rw [if_pos beyond, if_pos (by omega), shift, addr_succ]
          · rw [if_neg beyond, if_neg start, if_neg (by omega)]

theorem pageCount_eq {r : Region} (sound : r.Sound) : (pageCount r.len - 1).toNat = r.last := by
  have := sound.nonempty
  have := sound.bound
  unfold pageCount Region.last
  split
  next partly =>
    have value : (r.len % pageSize).toNat ≠ 0 := fun zero => partly (UInt64.toNat_inj.mp zero)
    rw [UInt64.toNat_mod, pageSize_toNat] at value
    simp only [UInt64.toNat_sub, UInt64.toNat_div, UInt64.toNat_add, pageSize_toNat,
      UInt64.toNat_one]
    omega
  next whole =>
    have value : (r.len % pageSize).toNat = 0 := by
      rw [Classical.not_not.mp whole]
      rfl
    rw [UInt64.toNat_mod, pageSize_toNat] at value
    simp only [UInt64.toNat_sub, UInt64.toNat_div, pageSize_toNat,
      UInt64.toNat_one]
    omega

instance (r : Region) (w : VirtAddr) : Decidable (r.Covers w) := inferInstanceAs (Decidable (_ ∧ _))

/-- One call of `_create_system_vm` that does not panic. -/
theorem mapOrPanic_spec (supply : Supply pages base valid live) (offset : BaseOffset base)
    (good : Good base valid live root s) {r : Region} (sound : r.Sound)
    (mapped : mapOrPanic pages (root + base) r.vaddr r.paddr r.len r.flags s = some s') :
    Good base valid live root s' ∧ SameRegisters s s' ∧ ∀ w, pte base s'.mem root w =
      if r.Covers w then r.entry w else pte base s.mem root w := by
  have start := add_base_ne_zero offset good.root
  simp only [mapOrPanic, mapRegion, start, if_false, pageCount_eq sound] at mapped
  cases ran : mapPages pages s (root + base) r.vaddr r.paddr r.flags r.last with
  | mk granted after =>
    rw [ran] at mapped
    cases granted with
    | false => cases mapped
    | true =>
      cases mapped
      exact mapPages_spec supply offset r.flags good sound.inside ran

/-- The calls of `_create_system_vm`, one after the other. -/
def mapAll (pages : PageSource σ) (pml4 : UInt64) : List Region → State σ → Option (State σ)
  | [], s => some s
  | r :: regions, s => do
    let s ← mapOrPanic pages pml4 r.vaddr r.paddr r.len r.flags s
    mapAll pages pml4 regions s

/-- Regions on different pages do not disturb each other, and pages outside all
of them keep their entries. -/
theorem mapAll_spec (supply : Supply pages base valid live) (offset : BaseOffset base) {regions : List Region}
    (sound : ∀ r ∈ regions, r.Sound) (apart : regions.Pairwise Region.Apart) (good : Good base valid live root s)
    (mapped : mapAll pages (root + base) regions s = some s') :
    Good base valid live root s' ∧ SameRegisters s s' ∧
      (∀ r ∈ regions, ∀ w, r.Covers w → pte base s'.mem root w = r.entry w) ∧
      ∀ w, (∀ r ∈ regions, ¬ r.Covers w) → pte base s'.mem root w = pte base s.mem root w := by
  induction regions generalizing s with
  | nil =>
    cases mapped
    exact ⟨good, ⟨rfl, rfl⟩, fun r member => absurd member List.not_mem_nil, fun _ _ => rfl⟩
  | cons r regions ih =>
    obtain ⟨s1, first, rest⟩ := Option.bind_eq_some_iff.mp mapped
    obtain ⟨good1, same, entries⟩ := mapOrPanic_spec supply offset good (sound r List.mem_cons_self) first
    obtain ⟨others, apart⟩ := List.pairwise_cons.mp apart
    obtain ⟨good', same', own, kept⟩ :=
      ih (fun r member => sound r (List.mem_cons_of_mem _ member)) apart good1 rest
    refine ⟨good', same.trans same', fun q member w covered => ?_, fun w outside => ?_⟩
    · rcases List.mem_cons.mp member with rfl | later
      · have clear : ∀ other ∈ regions, ¬ other.Covers w := by
          intro other there
          have := others other there
          unfold Region.Apart at this
          unfold Region.Covers at covered ⊢
          omega
        rw [kept w clear, entries, if_pos covered]
      · exact own q later w covered
    · rw [kept w (fun other there => outside other (List.mem_cons_of_mem _ there)), entries,
        if_neg (outside r List.mem_cons_self)]

theorem and_low {page flags low : UInt64} (aligned : page.toNat % 4096 = 0) (small : low.toNat < 4096) :
    (page ||| flags) &&& low = flags &&& low := by
  apply UInt64.toBitVec_inj.mp
  apply BitVec.eq_of_getLsbD_eq
  intro k inside
  simp only [UInt64.toBitVec_and, UInt64.toBitVec_or, BitVec.getLsbD_and, BitVec.getLsbD_or]
  by_cases below : k < 12
  · have clear : page.toNat.testBit k = false := by
      have split : page.toNat = 2 ^ 12 * (page.toNat / 2 ^ 12) := by omega
      rw [split, Nat.testBit_two_pow_mul]
      simp [show ¬ 12 ≤ k by omega]
    rw [show page.toBitVec.getLsbD k = page.toNat.testBit k from rfl, clear, Bool.false_or]
  · have clear : low.toNat.testBit k = false :=
      Nat.testBit_lt_two_pow 
        (Nat.lt_of_lt_of_le small (Nat.pow_le_pow_right (show 0 < 2 by decide) (Nat.le_of_not_lt below)))
    rw [show low.toBitVec.getLsbD k = low.toNat.testBit k from rfl, clear, Bool.and_false, Bool.and_false]

private theorem linked_entry (good : Good base valid live root s) {t u : UInt64} {i : Fin 512}
    (reached : Reached (link base s.mem) root 2 t) (linked : link base s.mem t i = some u) :
    IsFrame u ∧ s.mem (slot (t + base) i) = u ||| (kPresent ||| kWritable) := by
  rcases good.tables.directory t i reached with empty | ⟨w, inside, points⟩
  · rw [link, empty] at linked
    cases linked
  · rw [link, points, frame_directory inside, if_neg inside.nonzero] at linked
    cases linked
    exact ⟨inside, points⟩

/-- The physical memory that the tables behind a base offset lie in. -/
def physical (base : UInt64) (mem : UInt64 → UInt64) (addr : UInt64) : UInt64 := mem (addr + base)

private theorem physical_slot (base : UInt64) (mem : UInt64 → UInt64) (t : UInt64) (i : Fin 512) :
    physical base mem (slot t i) = mem (slot (t + base) i) := by
  have same : slot t i + base = slot (t + base) i := by
    unfold slot
    grind
  rw [physical, same]

theorem physical_zero (mem : UInt64 → UInt64) : physical 0 mem = mem := by
  funext addr
  rw [physical, UInt64.add_zero]

theorem presentTable_eq {mem : UInt64 → UInt64} {t u : UInt64} {i : Fin 512} (inside : IsFrame u)
    (points : mem (slot t i) = u ||| (kPresent ||| kWritable)) :
    presentTable mem t i = some (u ||| (kPresent ||| kWritable)) := by
  have present : (u ||| (kPresent ||| kWritable)) &&& kPresent = kPresent :=
    (and_low inside.aligned (by decide)).trans (by decide)
  have small : (u ||| (kPresent ||| kWritable)) &&& kSizeExtend = 0 :=
    (and_low inside.aligned (by decide)).trans (by decide)
  rw [presentTable, points, present, small, if_pos (by decide)]

/-- The processor finds what a present leaf entry says. -/
theorem processorWalk_leaf (good : Good base valid live root s) {v : VirtAddr}
    (present : pte base s.mem root v &&& kPresent ≠ 0) :
    processorWalk (physical base s.mem) root v =
      some (frame (pte base s.mem root v) + (v &&& 0xfff), pte base s.mem root v &&& kWritable != 0) := by
  cases found : walk (link base s.mem) root (directories v) with
  | none =>
    rw [pte, found] at present
    exact absurd UInt64.zero_and present
  | some pt =>
    simp only [pte, found] at present ⊢
    obtain ⟨pdt, walk2, linked3⟩ := Option.bind_eq_some_iff.mp found
    obtain ⟨pdpt, walk1, linked2⟩ := Option.bind_eq_some_iff.mp walk2
    obtain ⟨pml4, walk0, linked1⟩ := Option.bind_eq_some_iff.mp walk1
    cases walk0
    obtain ⟨inside1, entry1⟩ := linked_entry good ⟨[], by simp, rfl⟩ linked1
    obtain ⟨inside2, entry2⟩ := linked_entry good ⟨_, by simp, walk1⟩ linked2
    obtain ⟨inside3, entry3⟩ := linked_entry good ⟨_, by simp, walk2⟩ linked3
    rw [← physical_slot base s.mem] at entry1 entry2 entry3
    have through {u : UInt64} (inside : IsFrame u) : (u ||| (kPresent ||| kWritable)) &&& kWritable = kWritable :=
      (and_low inside.aligned (by decide)).trans (by decide)
    have last : presentPage (physical base s.mem) pt (ptIndex v) = some (s.mem (slot (pt + base) (ptIndex v))) := by
      rw [presentPage, physical_slot, if_pos present]
    generalize s.mem (slot (pt + base) (ptIndex v)) = entry at present last ⊢
    have allows : ((pdpt ||| (kPresent ||| kWritable)) &&& (pdt ||| (kPresent ||| kWritable)) &&&
        (pt ||| (kPresent ||| kWritable)) &&& entry) &&& kWritable = entry &&& kWritable := by
      rw [UInt64.and_assoc, UInt64.and_comm entry, ← UInt64.and_assoc, UInt64.and_assoc _ _ kWritable, through inside3,
        UInt64.and_assoc _ _ kWritable, through inside2, through inside1, UInt64.and_comm]
    simp only [processorWalk, presentTable_eq inside1 entry1, presentTable_eq inside2 entry2,
      presentTable_eq inside3 entry3, frame_directory inside1, frame_directory inside2, frame_directory inside3, last,
      Option.bind_eq_bind, Option.bind_some, allows]

private theorem presentTable_link (good : Good base valid live root s) {t : UInt64} {i : Fin 512}
    (reached : Reached (link base s.mem) root 2 t) : presentTable (physical base s.mem) t i =
      (link base s.mem t i).map fun u => u ||| (kPresent ||| kWritable) := by
  rcases good.tables.directory t i reached with empty | ⟨u, inside, points⟩
  · rw [presentTable, physical_slot, link, empty]
    rfl
  · rw [link, points, frame_directory inside, if_neg inside.nonzero]
    rw [← physical_slot base s.mem] at points
    exact presentTable_eq inside points

/-- The processor finds no page where there is no present leaf entry. -/
theorem processorWalk_absent (good : Good base valid live root s) {v : VirtAddr}
    (absent : ¬ pte base s.mem root v &&& kPresent ≠ 0) : processorWalk (physical base s.mem) root v = none := by
  have top := presentTable_link good (i := pml4Index v) ⟨[], Nat.zero_le 2, rfl⟩
  rw [processorWalk, top]
  cases first : link base s.mem root (pml4Index v) with
  | none => rfl
  | some pdpt =>
    have at1 : walk (link base s.mem) root [pml4Index v] = some pdpt := by rw [walk_cons rfl, first]
    have inside1 := (good.tables.frames pdpt ⟨_, by simp, at1⟩).1
    have next := presentTable_link good (i := pdptIndex v) ⟨_, by simp, at1⟩
    simp only [Option.map_some, Option.bind_eq_bind, Option.bind_some, frame_directory inside1, next]
    cases second : link base s.mem pdpt (pdptIndex v) with
    | none => rfl
    | some pdt =>
      have at2 : walk (link base s.mem) root [pdptIndex v, pml4Index v] = some pdt := by rw [walk_cons at1, second]
      have inside2 := (good.tables.frames pdt ⟨_, by simp, at2⟩).1
      have last := presentTable_link good (i := pdtIndex v) ⟨_, by simp, at2⟩
      simp only [Option.map_some, Option.bind_some, frame_directory inside2, last]
      cases third : link base s.mem pdt (pdtIndex v) with
      | none => rfl
      | some pt =>
        have at3 : walk (link base s.mem) root (directories v) = some pt := by rw [directories, walk_cons at2, third]
        have inside3 := (good.tables.frames pt ⟨_, by simp [directories], at3⟩).1
        have leaf : presentPage (physical base s.mem) pt (ptIndex v) = none := by
          rw [presentPage, physical_slot]
          rw [pte, at3] at absent
          exact if_neg absent
        simp only [Option.map_some, Option.bind_some, frame_directory inside3, leaf, Option.bind_none]

private theorem processorWalk_eq (good : Good 0 valid live root s) {v : VirtAddr} {p : PhysAddr} {flags : UInt64}
    (aligned : p.toNat % 4096 = 0) (bound : p.toNat < 2 ^ 46) (allowed : flags = kNone ∨ flags = kWritable)
    (leaf : pte 0 s.mem root v = p ||| (kPresent ||| flags)) :
    processorWalk s.mem root v = some (p + (v &&& 0xfff), flags == kWritable) := by
  have present : (p ||| (kPresent ||| flags)) &&& kPresent = kPresent := by
    rw [and_low aligned (by decide)]
    rcases allowed with rfl | rfl <;> decide
  have writable : (p ||| (kPresent ||| flags)) &&& kWritable = flags := by
    rw [and_low aligned (by decide)]
    rcases allowed with rfl | rfl <;> decide
  have points : frame (p ||| (kPresent ||| flags)) = p := by
    apply frame_or aligned bound
    rcases allowed with rfl | rfl <;> decide
  have found := processorWalk_leaf good (v := v) (by rw [leaf, present]; decide)
  rw [physical_zero, leaf, points, writable] at found
  rw [found]
  rcases allowed with rfl | rfl <;> rfl

/-- Every byte of a mapped region is translated by the region's own offset. -/
theorem region_walk (good : Good 0 valid live root s) {r : Region} (sound : r.Sound)
    (mapped : ∀ w, r.Covers w → pte 0 s.mem root w = r.entry w) {a : VirtAddr} (inside : r.Contains a) :
    processorWalk s.mem root a = some (r.paddr + (a - r.vaddr), r.flags == kWritable) := by
  obtain ⟨low, high⟩ := inside
  have := sound.start
  have := sound.aligned
  have := sound.bound
  have := sound.straight
  have range := sound.inside
  have := a.toNat_lt
  unfold Region.last at range
  have number : pageNumber a = pageNumber r.vaddr + (a.toNat - r.vaddr.toNat) / 4096 := by
    unfold pageNumber at range ⊢
    omega
  have covered : r.Covers a := by
    unfold Region.Covers Region.last
    omega
  have page : (r.paddr + UInt64.ofNat (pageNumber a - pageNumber r.vaddr) * pageSize).toNat =
      r.paddr.toNat + (a.toNat - r.vaddr.toNat) / 4096 * 4096 := by
    rw [number, Nat.add_sub_cancel_left]
    simp only [UInt64.toNat_add, UInt64.toNat_mul, UInt64.toNat_ofNat', pageSize_toNat]
    omega
  rw [processorWalk_eq good (by omega) (by omega) sound.flags (mapped a covered)]
  have address : r.paddr + UInt64.ofNat (pageNumber a - pageNumber r.vaddr) * pageSize + (a &&& 0xfff) =
      r.paddr + (a - r.vaddr) := by
    rw [← UInt64.toNat_inj, UInt64.toNat_add, page, offset_toNat, UInt64.toNat_add, UInt64.toNat_sub_of_le _ _
      (UInt64.le_iff_toNat_le.mpr low)]
    omega
  rw [address]

private theorem mapAll_append (pml4 : UInt64) (first later : List Region) (s : State σ) :
    mapAll pages pml4 (first ++ later) s = (mapAll pages pml4 first s).bind (mapAll pages pml4 later) := by
  induction first generalizing s with
  | nil => rfl
  | cons r first ih =>
    simp only [List.cons_append, mapAll, Option.bind_eq_bind, Option.bind_assoc]
    exact Option.bind_congr fun after _ => ih after

end Steps

/-- The six regions in the order of the calls. -/
def systemRegions (image : Image) (memoryUpperBound : PhysAddr) : List Region :=
  [⟨0xa0000, 0xa0000, 80 * 26 * 2, kWritable⟩,
    ⟨0xb8000, 0xb8000, 80 * 26 * 2, kWritable⟩,
    ⟨image.text, image.text - kVMRangeKernelBase, image.irqstub - image.text, kNone⟩,
    ⟨image.irqstub, image.irqstub - kVMRangeKernelBase, image.data - image.irqstub, kWritable⟩,
    ⟨image.data, image.data - kVMRangeKernelBase, image.ending - image.data, kWritable⟩,
    ⟨kVMRangePhysMemBase, 0, memoryUpperBound, kWritable⟩]

/-- The layout of link.ld: the sections lie above the load address, in order,
none of them empty, and each but the end starts a page. -/
structure Image.Linked (image : Image) : Prop where
  loaded : kVMRangeKernelBase.toNat + 0x100000 ≤ image.text.toNat
  textAligned : image.text.toNat % 4096 = 0
  irqstubAligned : image.irqstub.toNat % 4096 = 0
  dataAligned : image.data.toNat % 4096 = 0
  textFirst : image.text < image.irqstub
  irqstubNext : image.irqstub < image.data
  dataLast : image.data < image.ending

section System

variable {σ : Type} {pages : PageSource σ} {valid : σ → Prop} {live : σ → UInt64 → Prop} {s s' : State σ}
  {image : Image} {memoryUpperBound : PhysAddr}

/-- The new PML4 before the first call. -/
def emptySpace (pages : PageSource σ) (s : State σ) : Option (State σ) :=
  match pages.allocPage Physmm.kLocked s.physmm with
  | (none, _) => none
  | (some pml4, physmm) => some (({ s with physmm, systemPml4 := pml4 } : State σ).zeroPage pml4)

/-- The state after the first `n` of the six calls. -/
def afterCalls (pages : PageSource σ) (s : State σ) (image : Image) (memoryUpperBound : PhysAddr) (n : Nat) :
    Option (State σ) :=
  (emptySpace pages s).bind fun s => mapAll pages s.systemPml4 ((systemRegions image memoryUpperBound).take n) s

theorem createSystemVm_eq : createSystemVm pages s image memoryUpperBound =
    afterCalls pages s image memoryUpperBound 6 := by
  unfold createSystemVm afterCalls emptySpace
  cases pages.allocPage Physmm.kLocked s.physmm with
  | mk answer physmm =>
    cases answer with
    | none => rfl
    | some pml4 => simp [systemRegions, mapAll, State.zeroPage]

theorem emptySpace_good (supply : Supply pages 0 valid live) (ready : valid s.physmm)
    (created : emptySpace pages s = some s') :
    Good 0 valid live s'.systemPml4 s' ∧ ∀ v, pte 0 s'.mem s'.systemPml4 v = 0 := by
  have keeps := supply.keeps s.physmm Physmm.kLocked ready
  have grants := supply.grants s.physmm Physmm.kLocked
  unfold emptySpace at created
  split at created
  next => cases created
  next pml4 physmm allocated =>
    rw [allocated] at keeps grants
    cases created
    obtain ⟨page, rfl, inside, _, taken⟩ := grants pml4 ready rfl
    have zeroed := mem_zeroPage (.inl rfl) ({ s with physmm, systemPml4 := page + 0 } : State σ) inside inside
    simp only [UInt64.add_zero] at zeroed ⊢
    have start : Empty 0 (live physmm) (({ s with physmm, systemPml4 := page } : State σ).zeroPage page).mem page :=
      ⟨inside, taken, fun i => by simpa using zeroed i⟩
    exact Empty.good (s := ({ s with physmm, systemPml4 := page } : State σ).zeroPage page) start keeps

private theorem section_sound {low high : VirtAddr} {flags : UInt64} (above : kVMRangeKernelBase.toNat ≤ low.toNat)
    (aligned : low.toNat % 4096 = 0) (order : low < high) (allowed : flags = kNone ∨ flags = kWritable) :
    (Region.mk low (low - kVMRangeKernelBase) (high - low) flags).Sound := by
  rw [UInt64.lt_iff_toNat_lt] at order
  rw [kernelBase_toNat] at above
  have := high.toNat_lt
  have length : (high - low).toNat = high.toNat - low.toNat :=
    UInt64.toNat_sub_of_le _ _ (UInt64.le_iff_toNat_le.mpr (by omega))
  have physical : (low - kVMRangeKernelBase).toNat = low.toNat - 0xffffffff80000000 :=
    UInt64.toNat_sub_of_le _ _ (UInt64.le_iff_toNat_le.mpr above)
  refine ⟨aligned, ?_, ?_, ?_, ?_, ?_, allowed⟩
  all_goals simp only [length, physical, pageNumber, Region.last]
  all_goals omega

theorem window_sound (low : 0 < memoryUpperBound.toNat) (high : memoryUpperBound.toNat ≤ 2 ^ 46) :
    (Region.mk kVMRangePhysMemBase 0 memoryUpperBound kWritable).Sound := by
  refine ⟨?_, rfl, low, ?_, ?_, ?_, .inr rfl⟩
  all_goals simp only [pageNumber, Region.last, physMemBase_toNat,
    UInt64.toNat_zero]
  all_goals omega

theorem systemRegions_sound (linked : image.Linked) (low : 0 < memoryUpperBound.toNat)
    (high : memoryUpperBound.toNat ≤ 2 ^ 46) : ∀ r ∈ systemRegions image memoryUpperBound, r.Sound := by
  have text := Nat.le_trans (Nat.le_add_right _ _) linked.loaded
  have irqstub := Nat.le_trans text (Nat.le_of_lt (UInt64.lt_iff_toNat_lt.mp linked.textFirst))
  have data := Nat.le_trans irqstub (Nat.le_of_lt (UInt64.lt_iff_toNat_lt.mp linked.irqstubNext))
  simp only [systemRegions, List.forall_mem_cons, List.not_mem_nil, false_imp_iff, implies_true, and_true]
  exact ⟨⟨by decide, by decide, by decide, by decide, by decide, by decide, .inr rfl⟩,
    ⟨by decide, by decide, by decide, by decide, by decide, by decide, .inr rfl⟩,
    section_sound text linked.textAligned linked.textFirst (.inl rfl),
    section_sound irqstub linked.irqstubAligned linked.irqstubNext (.inr rfl),
    section_sound data linked.dataAligned linked.dataLast (.inr rfl),
    window_sound low high⟩

theorem systemRegions_apart (linked : image.Linked) (low : 0 < memoryUpperBound.toNat)
    (high : memoryUpperBound.toNat ≤ 2 ^ 46) : (systemRegions image memoryUpperBound).Pairwise Region.Apart := by
  have loaded := linked.loaded
  have first := UInt64.lt_iff_toNat_lt.mp linked.textFirst
  have second := UInt64.lt_iff_toNat_lt.mp linked.irqstubNext
  have third := UInt64.lt_iff_toNat_lt.mp linked.dataLast
  have := linked.textAligned
  have := linked.irqstubAligned
  have := linked.dataAligned
  have := image.ending.toNat_lt
  have text := UInt64.toNat_sub_of_le _ _ (UInt64.le_of_lt linked.textFirst)
  have irqstub := UInt64.toNat_sub_of_le _ _ (UInt64.le_of_lt linked.irqstubNext)
  have data := UInt64.toNat_sub_of_le _ _ (UInt64.le_of_lt linked.dataLast)
  rw [kernelBase_toNat] at loaded
  simp only [systemRegions, List.pairwise_cons, List.forall_mem_cons, List.not_mem_nil, false_imp_iff, implies_true,
    and_true, List.Pairwise.nil, Region.Apart, Region.last, pageNumber, text, irqstub, data,
    physMemBase_toNat, show (0xa0000 : UInt64).toNat = 0xa0000 from rfl,
    show (0xb8000 : UInt64).toNat = 0xb8000 from rfl, show (80 * 26 * 2 : UInt64).toNat = 4160 from rfl]
  omega

/-- When `_create_system_vm` returns, physical memory is writable in its window,
the kernel image is translated to where it is loaded, writable from `.irqstub`
on and read-only below, and each call left the regions before it alone. -/
theorem kernel_address_space (supply : Supply pages 0 valid live) (ready : valid s.physmm) (linked : image.Linked)
    (low : 0 < memoryUpperBound.toNat) (high : memoryUpperBound.toNat ≤ 2 ^ 46)
    (created : createSystemVm pages s image memoryUpperBound = some s') :
    (∀ x < memoryUpperBound, processorWalk s'.mem s'.systemPml4 (kVMRangePhysMemBase + x) = some (x, true)) ∧
      (∀ a, image.text ≤ a → a < image.irqstub →
        processorWalk s'.mem s'.systemPml4 a = some (a - kVMRangeKernelBase, false)) ∧
      (∀ a, image.irqstub ≤ a → a < image.ending →
        processorWalk s'.mem s'.systemPml4 a = some (a - kVMRangeKernelBase, true)) ∧
      ∀ n, ∃ sn, afterCalls pages s image memoryUpperBound n = some sn ∧
        ∀ r ∈ (systemRegions image memoryUpperBound).take n, ∀ a, r.Contains a →
          processorWalk s'.mem s'.systemPml4 a = processorWalk sn.mem sn.systemPml4 a := by
  have sound := systemRegions_sound linked low high
  have apart := systemRegions_apart linked low high
  rw [createSystemVm_eq] at created
  obtain ⟨s0, started, mapped⟩ := Option.bind_eq_some_iff.mp created
  obtain ⟨good, _⟩ := emptySpace_good supply ready started
  rw [← UInt64.add_zero s0.systemPml4] at mapped
  obtain ⟨good', same, entries, _⟩ := mapAll_spec supply (.inl rfl) sound apart good mapped
  have walk : ∀ r ∈ systemRegions image memoryUpperBound, ∀ a, r.Contains a →
      processorWalk s'.mem s'.systemPml4 a = some (r.paddr + (a - r.vaddr), r.flags == kWritable) := by
    intro r member a inside
    rw [same.systemPml4]
    exact region_walk good' (sound r member) (entries r member) inside
  have image_byte (flags : UInt64) {a low high : VirtAddr} (first : low ≤ a) (last : a < high)
      (member : Region.mk low (low - kVMRangeKernelBase) (high - low) flags ∈ systemRegions image memoryUpperBound) :
      processorWalk s'.mem s'.systemPml4 a = some (a - kVMRangeKernelBase, flags == kWritable) := by
    have above := UInt64.le_iff_toNat_le.mp first
    have below := UInt64.lt_iff_toNat_lt.mp last
    have length := UInt64.toNat_sub_of_le _ _ (UInt64.le_of_lt (UInt64.lt_of_le_of_lt first last))
    rw [walk _ member a ⟨above, by simp only [length]; omega⟩]
    congr 2
    grind
  refine ⟨fun x below => ?_, fun a first last => ?_, fun a first last => ?_, fun n => ?_⟩
  · have inside := UInt64.lt_iff_toNat_lt.mp below
    have address : (kVMRangePhysMemBase + x).toNat = kVMRangePhysMemBase.toNat + x.toNat := by
      rw [UInt64.toNat_add, physMemBase_toNat]
      omega
    rw [walk ⟨kVMRangePhysMemBase, 0, memoryUpperBound, kWritable⟩ (by simp [systemRegions]) _
      ⟨by rw [address]; exact Nat.le_add_right _ _, by rw [address]; exact Nat.add_lt_add_left inside _⟩]
    congr 2
    grind
  · exact image_byte kNone first last (by simp [systemRegions])
  · by_cases early : a < image.data
    · exact image_byte kWritable first early (by simp [systemRegions])
    · exact image_byte kWritable (UInt64.not_lt.mp early) last (by simp [systemRegions])
  · have total : (systemRegions image memoryUpperBound).take 6 = systemRegions image memoryUpperBound := rfl
    rw [total, ← List.take_append_drop n (systemRegions image memoryUpperBound), mapAll_append] at mapped
    obtain ⟨sn, reached, _⟩ := Option.bind_eq_some_iff.mp mapped
    have part : ∀ r ∈ (systemRegions image memoryUpperBound).take n, r ∈ systemRegions image memoryUpperBound :=
      fun r member => List.mem_of_mem_take member
    obtain ⟨goodn, samen, entriesn, _⟩ := mapAll_spec supply (.inl rfl) (fun r member => sound r (part r member))
      (apart.sublist (List.take_sublist n _)) good reached
    rw [UInt64.add_zero] at reached
    refine ⟨sn, ?_, fun r member a inside => ?_⟩
    · rw [afterCalls, started]
      exact reached
    · rw [walk r (part r member) a inside, samen.systemPml4]
      exact (region_walk goodn (sound r (part r member)) (entriesn r member) inside).symm

theorem kernel_address_space_witness :
    let s : State Physmm.State := ⟨fun _ => 7, 0, 0, Physmm.setMemoryMap [0x1, 0] 1⟩
    let image : Image := ⟨0xffffffff80100000, 0xffffffff80101000, 0xffffffff80102000, 0xffffffff80102010⟩
    ∃ s', createSystemVm physmmSource s image 0x1001 = some s' ∧
      processorWalk s'.mem s'.systemPml4 0xffff880000001000 = some (0x1000, true) ∧
      processorWalk s'.mem s'.systemPml4 0xffffffff80100abc = some (0x100abc, false) ∧
      processorWalk s'.mem s'.systemPml4 0xffffffff8010200f = some (0x10200f, true) := by
  intro s image
  have ready : Ready 0 s.physmm := ⟨.inr (by decide +kernel), by decide +kernel, rfl⟩
  have linked : image.Linked := ⟨by decide, by decide, by decide, by decide, by decide, by decide, by decide⟩
  have returns : (createSystemVm physmmSource s image 0x1001).isSome = true := by decide +kernel
  obtain ⟨s', created⟩ := Option.isSome_iff_exists.mp returns
  obtain ⟨window, text, rest, _⟩ :=
    kernel_address_space (physmm_supply 0) ready linked (by decide) (by decide) created
  exact ⟨s', created, window 0x1000 (by decide), text _ (by decide) (by decide), rest _ (by decide) (by decide)⟩

end System

end Hotarubi.Memory.Virtmm
