import Hotarubi.Base.Mask
import Hotarubi.Proofs.PhysmmOwnership
import Hotarubi.Proofs.VirtmmTables

/-! The four-level tables behave as a finite map from virtual pages to frames
and flags, whatever calls are made and however allocation fails. -/

namespace Hotarubi.Memory.Virtmm
open Base Radix

/-- Bits 47 to 63 agree. -/
def Canonical (v : VirtAddr) : Prop := v.toNat < 2 ^ 47 ∨ 2 ^ 64 - 2 ^ 47 ≤ v.toNat

/-- A page-aligned canonical address. -/
structure IsPage (v : VirtAddr) : Prop where
  aligned : v.toNat % 4096 = 0
  canonical : Canonical v

theorem tableIndex_val (x : UInt64) : (tableIndex x).val = x.toNat % 512 := Base.Mask.and_low_toNat (v := 9) x.toBitVec rfl

theorem offset_toNat (x : UInt64) : (x &&& 0xfff).toNat = x.toNat % 4096 := Base.Mask.and_low_toNat (v := 12) x.toBitVec rfl

theorem indices_eq_iff (v w : VirtAddr) : indices v = indices w ↔ v.toNat / 4096 % 2 ^ 36 = w.toNat / 4096 % 2 ^ 36 := by
  simp only [indices, directories, List.cons.injEq, and_true, ptIndex, pdtIndex, pdptIndex, pml4Index, Fin.ext_iff,
    tableIndex_val, UInt64.toNat_shiftRight, Nat.shiftRight_eq_div_pow, show (12 : UInt64).toNat % 64 = 12 from rfl,
    show (21 : UInt64).toNat % 64 = 21 from rfl, show (30 : UInt64).toNat % 64 = 30 from rfl,
    show (39 : UInt64).toNat % 64 = 39 from rfl]
  omega

private theorem indices_inj {v w : VirtAddr} (first : IsPage v) (second : IsPage w) : indices v = indices w ↔ v = w := by
  rw [indices_eq_iff, ← UInt64.toNat_inj]
  have := first.aligned
  have := second.aligned
  have left := first.canonical
  have right := second.canonical
  unfold Canonical at left right
  have := v.toNat_lt
  have := w.toNat_lt
  omega

/-- A call of the interface. -/
inductive Call where
  | mapFixed (vaddr : VirtAddr) (paddr : PhysAddr) (flags : UInt64)
  | unmapFixed (vaddr : VirtAddr)
  deriving DecidableEq, Repr

/-- Page-aligned canonical addresses, frames of the direct map, flags in the mask. -/
def Call.Admissible : Call → Prop
  | .mapFixed vaddr paddr flags => IsPage vaddr ∧ IsFrame paddr ∧ flags &&& ~~~kMask = 0
  | .unmapFixed vaddr => IsPage vaddr

def Call.exec {σ : Type} (pages : PageSource σ) (s : State σ) : Call → Bool × State σ
  | .mapFixed vaddr paddr flags => Virtmm.mapFixed pages s vaddr paddr flags
  | .unmapFixed vaddr => (true, Virtmm.unmapFixed pages s vaddr)

/-- What the tables stand for: a frame and flags for each mapped page. -/
abbrev Mapping := VirtAddr → Option (PhysAddr × UInt64)

/-- The meaning of a call that returned `granted`. -/
def Call.apply (call : Call) (granted : Bool) (mapping : Mapping) : Mapping :=
  match call with
  | .mapFixed vaddr paddr flags =>
    if granted then Function.update mapping vaddr (some (paddr, flags)) else mapping
  | .unmapFixed vaddr => Function.update mapping vaddr none

/-- The entry that stands for a frame and flags. -/
def pteOf (target : PhysAddr × UInt64) : UInt64 := target.1 ||| (kPresent ||| target.2)

/-- What `lookup_mapping` finds for an address. -/
def translation {σ : Type} (pages : PageSource σ) (s : State σ) (v : VirtAddr) : Option UInt64 :=
  let found := lookupMapping pages s v
  if found.1 then some found.2.pte else none

/-- The tables and the map they stand for, after a list of calls. -/
def simulate {σ : Type} (pages : PageSource σ) : List Call → State σ × Mapping → State σ × Mapping
  | [], joint => joint
  | call :: calls, (s, mapping) =>
    let result := call.exec pages s
    simulate pages calls (result.2, call.apply result.1 mapping)

section Steps

variable {σ : Type} {pages : PageSource σ} {base : UInt64} {valid : σ → Prop} {live : σ → UInt64 → Prop}
  {s : State σ} {mapping : Mapping}

private theorem frame_pteOf {target : PhysAddr × UInt64} (inside : IsFrame target.1) (masked : target.2 &&& ~~~kMask = 0) :
    frame (pteOf target) = target.1 := by
  apply frame_or inside.aligned inside.bound
  rw [frame_union, show frame target.2 = 0 from masked]
  decide

theorem pml4_eq (supply : Supply pages base valid live) (ready : valid s.physmm) (root : IsFrame s.cr3) :
    s.pml4 pages = s.cr3 + base := by
  rw [State.pml4, supply.offset s.physmm ready, virtAddr, if_neg root.nonzero]

theorem Good.root {root : UInt64} (good : Good base valid live root s) : IsFrame root :=
  (good.tables.frames root ⟨[], Nat.zero_le 3, rfl⟩).1

/-- `lookup_mapping` answers with the leaf entry of an address, unless the frame
in it is null once the base offset is added. -/
theorem translation_pte (supply : Supply pages base valid live) (offset : BaseOffset base)
    (good : Good base valid live s.cr3 s) (v : VirtAddr) :
    translation pages s v = if virtAddr base (frame (pte base s.mem s.cr3 v)) = 0 then none
      else some (pte base s.mem s.cr3 v) := by
  have pml4 := pml4_eq supply good.valid good.root
  have start := add_base_ne_zero offset good.root
  unfold translation lookupMapping
  rcases descend_cases (supply.offset _ good.valid) offset good v with
    ⟨missing, null | ⟨pdpt, some1, at1, null | ⟨pdt, some2, at2, null⟩⟩⟩ |
    ⟨pdpt, pdt, t, some1, at1, some2, at2, some3, at3, found⟩
  · simp [pml4, start, null, pte_missing missing, frame, virtAddr]
  · simp [pml4, start, at1, some1, null, pte_missing missing, frame, virtAddr]
  · simp [pml4, start, at1, some1, at2, some2, null, pte_missing missing, frame, virtAddr]
  · have leaf : s.load (t + base) (ptIndex v) = pte base s.mem s.cr3 v := by rw [pte, found, State.load]
    have last : tableAt pages s (t + base) (ptIndex v) = virtAddr base (frame (pte base s.mem s.cr3 v)) := by
      rw [tableAt, leaf, supply.offset s.physmm good.valid]
    simp only [pml4, start, at1, some1, at2, some2, at3, some3, last, leaf, if_false]
    split <;> simp

theorem translation_eq (supply : Supply pages base valid live) (offset : BaseOffset base)
    (good : Good base valid live s.cr3 s) {v : VirtAddr}
    (target : frame (pte base s.mem s.cr3 v) = 0 ∨ IsFrame (frame (pte base s.mem s.cr3 v))) :
    translation pages s v =
      if frame (pte base s.mem s.cr3 v) = 0 then none else some (pte base s.mem s.cr3 v) := by
  rw [translation_pte supply offset good, virtAddr]
  rcases target with null | inside
  · simp [null]
  · simp [inside.nonzero, add_base_ne_zero offset inside]

/-- The leaf entries are those of the mapping. -/
structure Represents (base : UInt64) (valid : σ → Prop) (live : σ → UInt64 → Prop)
    (s : State σ) (mapping : Mapping) : Prop where
  good : Good base valid live s.cr3 s
  entries : ∀ v, IsPage v → pte base s.mem s.cr3 v = ((mapping v).map pteOf).getD 0
  frames : ∀ v target, mapping v = some target → IsFrame target.1 ∧ target.2 &&& ~~~kMask = 0

theorem Represents.translation_eq (supply : Supply pages base valid live) (offset : BaseOffset base)
    (represents : Represents base valid live s mapping) {v : VirtAddr} (page : IsPage v) :
    translation pages s v = (mapping v).map pteOf := by
  have entry := represents.entries v page
  cases mapped : mapping v with
  | none =>
    rw [mapped] at entry
    rw [Virtmm.translation_eq supply offset represents.good (.inl (by rw [entry]; rfl)), entry]
    rfl
  | some target =>
    rw [mapped] at entry
    obtain ⟨inside, masked⟩ := represents.frames v target mapped
    have points : frame (pte base s.mem s.cr3 v) = target.1 := by rw [entry]; exact frame_pteOf inside masked
    rw [Virtmm.translation_eq supply offset represents.good (.inr (points ▸ inside)), points, if_neg inside.nonzero, entry]
    rfl

theorem empty_represents (ready : valid s.physmm) (start : Empty base (live s.physmm) s.mem s.cr3) :
    Represents base valid live s (fun _ => none) := by
  obtain ⟨good, entries⟩ := start.good ready
  exact ⟨good, fun v _ => entries v, fun v target mapped => by cases mapped⟩

private theorem Represents.entry_eq_zero (represents : Represents base valid live s mapping) {v : VirtAddr}
    (page : IsPage v) :
    frame (pte base s.mem s.cr3 v) = 0 ↔ mapping v = none := by
  rw [represents.entries v page]
  cases mapped : mapping v with
  | none => simp [frame]
  | some target =>
    obtain ⟨inside, masked⟩ := represents.frames v target mapped
    simp [frame_pteOf inside masked, inside.nonzero]

theorem mapFixed_eq (supply : Supply pages base valid live) (offset : BaseOffset base)
    (good : Good base valid live s.cr3 s) (vaddr : VirtAddr) (paddr : PhysAddr) (flags : UInt64) :
    mapFixed pages s vaddr paddr flags = mapPage pages s (s.cr3 + base) vaddr paddr flags := by
  have start := add_base_ne_zero offset good.root
  have once : (pageCount pageSize - 1).toNat = 0 := by decide
  simp only [mapFixed, mapRegion, pml4_eq supply good.valid good.root, start, once, if_false, mapPages]

private theorem Call.exec_represents (supply : Supply pages base valid live) (offset : BaseOffset base)
    (represents : Represents base valid live s mapping) {call : Call} (admissible : call.Admissible) :
    Represents base valid live (call.exec pages s).2 (call.apply (call.exec pages s).1 mapping) := by
  have good := represents.good
  have pml4 := pml4_eq supply good.valid good.root
  have start := add_base_ne_zero offset good.root
  have once : (pageCount pageSize - 1).toNat = 0 := by decide
  cases call with
  | mapFixed vaddr paddr flags =>
    obtain ⟨page, inside, masked⟩ := admissible
    have run : exec pages s (.mapFixed vaddr paddr flags) = mapPage pages s (s.cr3 + base) vaddr paddr flags :=
      mapFixed_eq supply offset good vaddr paddr flags
    have mapped := mapPage_spec supply offset good vaddr paddr flags
    rw [run]
    refine ⟨by rw [mapped.registers.cr3]; exact mapped.good, fun v canonical => ?_, fun v target found => ?_⟩
    · have entry := mapped.ptes v
      simp only [indices_inj canonical page, represents.entries v canonical] at entry
      rw [mapped.registers.cr3, entry, apply]
      cases (mapPage pages s (s.cr3 + base) vaddr paddr flags).1 with
      | false => simp
      | true =>
        by_cases same : v = vaddr
        · simp [same, pteOf]
        · simp [same, Function.update_of_ne]
    · rw [apply] at found
      split at found
      next =>
        by_cases same : v = vaddr
        · rw [same, Function.update_self] at found
          cases found
          exact ⟨inside, masked⟩
        · rw [Function.update_of_ne same] at found
          exact represents.frames v target found
      next => exact represents.frames v target found
  | unmapFixed vaddr =>
    have run : (exec pages s (.unmapFixed vaddr)).2 = (unmapPage pages s (s.cr3 + base) vaddr false).2 := by
      simp only [exec, Virtmm.unmapFixed, unmapRegion, pml4, start, once, if_false, unmapPages]
    obtain ⟨same, cleared⟩ := unmapPage_spec supply offset good vaddr
    rw [run]
    refine ⟨by rw [same.cr3]; exact cleared.good, fun v canonical => ?_, fun v target found => ?_⟩
    · have entry := cleared.ptes v
      simp only [indices_inj canonical admissible, represents.entries v canonical, ne_eq,
        represents.entry_eq_zero admissible] at entry
      rw [same.cr3, entry, apply]
      by_cases same : v = vaddr
      · subst same
        cases mapped : mapping v <;> simp
      · simp [same, Function.update_of_ne]
    · rw [apply] at found
      by_cases same : v = vaddr
      · rw [same, Function.update_self] at found
        cases found
      · rw [Function.update_of_ne same] at found
        exact represents.frames v target found

theorem simulate_represents (supply : Supply pages base valid live) (offset : BaseOffset base) {calls : List Call}
    (admissible : ∀ call ∈ calls, call.Admissible) (represents : Represents base valid live s mapping) :
    Represents base valid live (simulate pages calls (s, mapping)).1 (simulate pages calls (s, mapping)).2 := by
  induction calls generalizing s mapping with
  | nil => exact represents
  | cons call calls ih =>
    exact ih (fun later member => admissible later (List.mem_cons_of_mem _ member))
      (Call.exec_represents supply offset represents (admissible call List.mem_cons_self))

/-- Starting from an empty PML4, after any list of calls `lookup_mapping` answers
as the map does that the granted calls have built: a granted `map_fixed` sets its
page, a refused one changes nothing, `unmap_fixed` removes its page. -/
theorem tables_refine_map (supply : Supply pages base valid live) (offset : BaseOffset base) (ready : valid s.physmm)
    (start : Empty base (live s.physmm) s.mem s.cr3) {calls : List Call} (admissible : ∀ call ∈ calls, call.Admissible)
    {v : VirtAddr} (page : IsPage v) :
    translation pages (simulate pages calls (s, fun _ => none)).1 v =
      ((simulate pages calls (s, fun _ => none)).2 v).map pteOf :=
  (simulate_represents supply offset admissible (empty_represents ready start)).translation_eq supply offset page

end Steps

/-- The invariant of physmm that the tables rest on. -/
structure Ready (base : UInt64) (m : Physmm.State) : Prop where
  sound : m.Sound
  reserved : m.used 0 = true
  offset : m.memoryMapBase = base

/-- The pages in use, by address. -/
def Taken (m : Physmm.State) (page : UInt64) : Prop := m.used (page.toNat / 4096) = true

/-- physmm supplies page tables: what it hands out was free. -/
theorem physmm_supply (base : UInt64) : Supply physmmSource base (Ready base) Taken where
  offset m ready := ready.offset
  keeps m flags ready := by
    have taken := (Physmm.Call.allocPage flags).exec_taken m rfl ready.reserved
    exact ⟨(Physmm.Call.allocPage flags).exec_sound ready.sound, taken,
      ((Physmm.Call.allocPage flags).exec_layout m).base.trans ready.offset⟩
  grows m flags page _ used := (Physmm.Call.allocPage flags).exec_taken m rfl used
  grants m flags ptr ready granted := by
    obtain ⟨page, positive, inside, free, _, _, address, after⟩ := Physmm.allocPage_some ready.sound granted
    have small : page < 2 ^ 32 := Nat.lt_trans inside (UInt32.toNat_lt _)
    have value : (UInt64.ofNat page * pageSize).toNat = page * 4096 := by
      rw [UInt64.toNat_mul, UInt64.toNat_ofNat', pageSize_toNat]
      omega
    have index : (UInt64.ofNat page * pageSize).toNat / 4096 = page := by omega
    refine ⟨UInt64.ofNat page * pageSize, by rw [address, ready.offset], ⟨?_, ?_, ?_⟩, ?_, ?_⟩
    · intro zero
      rw [zero, UInt64.toNat_zero] at value
      omega
    · omega
    · omega
    · rw [Taken, index, free]
      simp
    · rw [Taken, index]
      exact (after page).trans (by simp)

theorem tables_refine_map_witness :
    let m := Physmm.setMemoryMap [0x3, 0] 2
    let calls : List Call := [.mapFixed 0x400000 0x5000 kWritable, .mapFixed 0x401000 0x6000 kNone, .unmapFixed 0x400000]
    let s := (simulate physmmSource calls (⟨fun _ => 0, 0x1000, 0, m⟩, fun _ => none)).1
    translation physmmSource s 0x400000 = none ∧ translation physmmSource s 0x401000 = some 0x6001 := by
  have ready : Ready 0 (Physmm.setMemoryMap [0x3, 0] 2) := ⟨.inr (by decide +kernel), by decide +kernel, rfl⟩
  have start : Empty 0 (Taken (Physmm.setMemoryMap [0x3, 0] 2)) (fun _ => 0) 0x1000 :=
    ⟨⟨by decide, by decide, by decide⟩, by unfold Taken; decide +kernel, fun _ => rfl⟩
  have admissible : ∀ call ∈ [Call.mapFixed 0x400000 0x5000 kWritable, .mapFixed 0x401000 0x6000 kNone,
      .unmapFixed 0x400000], call.Admissible := by
    simp only [List.forall_mem_cons, List.not_mem_nil, false_imp_iff, implies_true, and_true]
    exact ⟨⟨⟨by decide, .inl (by decide)⟩, ⟨by decide, by decide, by decide⟩, by decide⟩,
      ⟨⟨by decide, .inl (by decide)⟩, ⟨by decide, by decide, by decide⟩, by decide⟩, ⟨by decide, .inl (by decide)⟩⟩
  have answers := fun v (page : IsPage v) =>
    tables_refine_map (s := ⟨fun _ => 0, 0x1000, 0, Physmm.setMemoryMap [0x3, 0] 2⟩) (physmm_supply 0) (.inl rfl)
      ready start admissible page
  exact ⟨(answers 0x400000 ⟨by decide, .inl (by decide)⟩).trans (by decide +kernel),
    (answers 0x401000 ⟨by decide, .inl (by decide)⟩).trans (by decide +kernel)⟩

end Hotarubi.Memory.Virtmm
