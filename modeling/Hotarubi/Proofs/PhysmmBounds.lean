import Hotarubi.Base.Runs
import Hotarubi.Proofs.PhysmmBoot
import Hotarubi.Proofs.PhysmmFrame

/-! The entries of the page map that are accessed, from the boot on. Space is
reserved for one entry for each bit of the bitmap. The metadata loops go one page
further than the bitmap loops, and nothing but the range itself bounds them. -/

namespace Hotarubi.Memory.Physmm
open Base

/-- The entries that the second iteration of `init` accesses for one entry of the
memory map, whether it frees or reserves. -/
def entryVisits (m : State) (entry : MmapEntry) : List Nat :=
  (List.range (entry.len.toNat / 4096 + 1)).map (visited m entry.addr)

theorem releaseEntry_pageMaps (usable : PhysAddr) (m : State) (entry : MmapEntry) (i : Nat) :
    (releaseEntry usable m entry).pageMaps i =
      if i ∈ entryVisits m entry then
        if entry.type = multibootMemoryAvailable ∧ entry.addr ≥ usable then unusedPage else m.flagged kReserved i
      else m.pageMaps i := by
  have selected : i ∈ entryVisits m entry ↔ ∃ k ≤ (entry.len / pageSize).toNat, visited m entry.addr k = i := by
    simp only [entryVisits, page_toNat, List.mem_map, List.mem_range, Nat.lt_succ_iff]
  simp only [selected, releaseEntry]
  split
  · obtain ⟨layout, array⟩ := markFreeFrom_layout m (entry.addr / pageSize).toNat (entry.len / pageSize).toNat
    have same : ∀ k, visited (markFreeFrom m (entry.addr / pageSize).toNat (entry.len / pageSize).toNat)
        entry.addr k = visited m entry.addr k := fun k => by simp only [visited, xpa, layout.base]
    rw [resetPageRange, setPages_pageMaps]
    simp only [markFreeRange, same, array]
  · rw [flagPageRange, setPages_pageMaps]

/-- All accesses of an accepted boot. -/
def initVisits (m : State) (ending : VirtAddr) (info : BootInfo) : List Nat :=
  (info.trimmed ending).flatMap (entryVisits m)

/-- A call of the interface, or the relocation of the maps by the virtual memory manager. -/
inductive Action where
  | call (request : Call)
  | relocate (offset : PhysAddr)
  deriving DecidableEq, Repr

def Action.exec (m : State) : Action → Option (Option UInt64 × State)
  | .call request => some (request.exec m)
  | .relocate offset => some (none, setPhysicalBaseOffset m offset)

def Action.visits (m : State) : Action → List Nat
  | .call request => request.visits m
  | .relocate _ => []

/-- The range ends before the last page of the map. `__PA` drops bits of an address
beyond 8 TiB, so that such a range is in the map if its cut off addresses are. -/
def RangeInside (m : State) (addr : PhysAddr) (len entries : Nat) : Prop :=
  addr.toNat / 4096 + len < entries ∨
    2 ^ 31 ≤ addr.toNat / 4096 + len ∧ ∀ k ≤ len, visited m addr k < entries

/-- If there are enough free pages, the first run of as many of them ends before the
last page of the map. -/
def State.Clear (m : State) (count : Nat) : Prop :=
  count ≤ (freePageCount m).toNat → ∀ page, 0 < page → page < m.searched → FreeRun m page count →
    (∀ earlier < page, ¬ FreeRun m earlier count) →
      RangeInside m (.ofNat page * pageSize) (count % 2 ^ 20) m.mapBits

theorem State.Clear.of_run {m : State} {page count : Nat} (run : FreeRun m page count)
    (inside : page + count < m.mapBits) : m.Clear count := by
  intro _ other _ searched _ first
  have before : other ≤ page := by
    by_contra beyond
    exact first page (by omega) run
  have reduced := Nat.mod_le count (2 ^ 20)
  apply Or.inl
  rw [pageAddr_toNat searched, Nat.mul_div_cancel _ (by decide)]
  omega

/-- The check of `free_page_range` lets a number of pages through. -/
def Admits (m : State) (addr : PhysAddr) (count : Nat) : Prop :=
  boundWeight (addr + byteLength (.ofNat count)) < (m.memoryMapSize * 8).toUInt64

/-- The pages a call asks for or gives back end before the last page of the map, where
the call does not return at once: a release below the first page or behind the checks. -/
def Call.Inside (m : State) : Call → Prop
  | .allocPage _ => m.Clear 1
  | .allocPageRange count _ => m.Clear (max 1 count.toNat)
  | .freePage page =>
    pageSize ≤ dropOffset m page → boundWeight (dropOffset m page) ≤ (m.memoryMapSize * 8).toUInt64 →
      RangeInside m (dropOffset m page) 1 m.mapBits
  | .freePageRange page count =>
    pageSize ≤ dropOffset m page → ∀ most, 0 < most → most ≤ max 1 count.toNat → Admits m (dropOffset m page) most →
      (∀ more, most < more → more ≤ max 1 count.toNat → ¬ Admits m (dropOffset m page) more) →
      RangeInside m (dropOffset m page) (most % 2 ^ 20) m.mapBits

def Action.Inside (m : State) : Action → Prop
  | .call request => request.Inside m
  | .relocate _ => True

private theorem rangeInside_iff {m : State} {entries : Nat} (small : entries ≤ 2 ^ 31) (addr : PhysAddr) (len : Nat) :
    (∀ i ∈ (List.range (len + 1)).map (visited m addr), i < entries) ↔ RangeInside m addr len entries := by
  have each : (∀ i ∈ (List.range (len + 1)).map (visited m addr), i < entries) ↔
      ∀ k ≤ len, visited m addr k < entries := by
    simp only [List.forall_mem_map, List.mem_range, Nat.lt_succ_iff]
  rw [each, RangeInside]
  by_cases low : addr.toNat / 4096 + len < 2 ^ 31
  · rw [or_iff_left fun high => Nat.not_le.mpr low high.1]
    constructor
    · intro inside
      have last := inside len (Nat.le_refl len)
      rwa [visited_at low] at last
    · intro inside k below
      rw [visited_at (by omega)]
      omega
  · rw [or_iff_right (by omega), and_iff_right (by omega)]

private theorem clampCount_iff {m : State} {addr : PhysAddr} {count most : Nat} (small : count < 2 ^ 32)
    (positive : 0 < most) :
    (clampCount m addr count).toNat = most ↔
      most ≤ count ∧ Admits m addr most ∧ ∀ more, most < more → more ≤ count → ¬ Admits m addr more := by
  induction count with
  | zero =>
    refine iff_of_false ?_ fun largest => by omega
    rw [clampCount, UInt32.toNat_zero]
    omega
  | succ count ih =>
    rw [clampCount]
    split
    next admitted =>
      rw [UInt32.toNat_ofNat_of_lt' (show count + 1 < UInt32.size from small)]
      constructor
      · rintro rfl
        exact ⟨Nat.le_refl _, admitted, fun more above below => by omega⟩
      · rintro ⟨below, _, largest⟩
        by_contra other
        exact largest (count + 1) (by omega) (Nat.le_refl _) admitted
    next refused =>
      rw [ih (by omega)]
      constructor
      · rintro ⟨below, admitted, largest⟩
        refine ⟨by omega, admitted, fun more above within => ?_⟩
        by_cases last : more = count + 1
        · exact last ▸ refused
        · exact largest more above (by omega)
      · rintro ⟨below, admitted, largest⟩
        have other : most ≠ count + 1 := fun same => refused (same ▸ admitted)
        exact ⟨by omega, admitted, fun more above within => largest more above (by omega)⟩

/-- A call that accesses page map entries at all, by the range it handles. -/
def Call.RangedInside (m : State) (call : Call) : Prop :=
  ∀ addr len, call.range m = some (addr, len) → RangeInside m addr len m.mapBits

private theorem Call.visits_inside_iff {m : State} (small : m.mapBits ≤ 2 ^ 31) (call : Call) :
    (∀ i ∈ call.visits m, i < m.mapBits) ↔ call.RangedInside m := by
  unfold visits RangedInside
  cases call.range m with
  | none => simp
  | some range =>
    obtain ⟨addr, len⟩ := range
    rw [rangeInside_iff small]
    constructor
    · intro inside addr' len' same
      cases same
      exact inside
    · exact fun inside => inside addr len rfl

private theorem Call.ranged_alloc {m : State} {call : Call} (takes : call.takes = true) :
    call.RangedInside m ↔ m.Clear call.pages := by
  constructor
  · intro inside enough page positive searched run first
    exact inside _ _ (range_of_takes takes ⟨rfl, enough, page, rfl, positive, searched, run, first⟩)
  · intro clear addr len ranged
    obtain ⟨rfl, enough, page, rfl, positive, searched, run, first⟩ := range_alloc takes ranged
    exact clear enough page positive searched run first

private theorem Call.ranged_freePage {m : State} (page : UInt64) :
    (Call.freePage page).RangedInside m ↔ (Call.freePage page).Inside m := by
  constructor
  · intro inside high within
    have kept : ¬ (dropOffset m page < pageSize ∨ boundWeight (dropOffset m page) > (m.memoryMapSize * 8).toUInt64) :=
      not_or.mpr ⟨UInt64.not_lt.mpr high, UInt64.not_lt.mpr within⟩
    exact inside _ _ (by rw [range, if_neg kept])
  · intro inside addr len ranged
    obtain ⟨rfl, rfl, high, within⟩ := range_freePage ranged
    exact inside (UInt64.not_lt.mp high) within

private theorem Call.ranged_freePageRange {m : State} (page : UInt64) (count : UInt32) :
    (Call.freePageRange page count).RangedInside m ↔ (Call.freePageRange page count).Inside m := by
  have bound : max 1 count.toNat < 2 ^ 32 := by
    have := count.toNat_lt
    omega
  constructor
  · intro inside high most positive below admitted largest
    have clamped := (clampCount_iff bound positive).mpr ⟨below, admitted, largest⟩
    have kept : ¬ (dropOffset m page < pageSize ∨ clampCount m (dropOffset m page) (max 1 count.toNat) = 0) := by
      refine not_or.mpr ⟨UInt64.not_lt.mpr high, fun zero => ?_⟩
      rw [zero, UInt32.toNat_zero] at clamped
      omega
    exact inside _ _ (by rw [range, requested_eq]; simp only [if_neg kept, clamped])
  · intro inside addr len ranged
    obtain ⟨rfl, rfl, high, some'⟩ := range_freePageRange ranged
    have positive : 0 < (clampCount m (dropOffset m page) (max 1 count.toNat)).toNat := by
      rw [Nat.pos_iff_ne_zero]
      exact fun zero => some' (UInt32.toNat_inj.mp zero)
    obtain ⟨below, admitted, largest⟩ := (clampCount_iff bound positive).mp rfl
    exact inside (UInt64.not_lt.mp high) _ positive below admitted largest

/-- The condition on a call is exact. -/
theorem Call.inside_iff {m : State} (small : m.mapBits ≤ 2 ^ 31) (call : Call) :
    (∀ i ∈ call.visits m, i < m.mapBits) ↔ call.Inside m := by
  rw [call.visits_inside_iff small]
  cases call with
  | allocPage flags => exact ranged_alloc rfl
  | allocPageRange count flags => exact ranged_alloc rfl
  | freePage page => exact ranged_freePage page
  | freePageRange page count => exact ranged_freePageRange page count

private theorem Action.exec_call (m : State) (request : Call) :
    (Action.call request).exec m = some ((request.exec m).1, (request.exec m).2) := rfl

private theorem Action.exec_size {m m' : State} {action : Action} {answer : Option UInt64}
    (ran : action.exec m = some (answer, m')) : m'.memoryMapSize = m.memoryMapSize := by
  cases action with
  | call request =>
    rw [← (Prod.mk.inj (Option.some.inj ran)).2]
    exact (request.exec_layout m).size
  | relocate offset => rw [← (Prod.mk.inj (Option.some.inj ran)).2]; rfl

variable {m : State} {ending : VirtAddr} {info : BootInfo} {b : Booted}

private theorem initVisits_inside {entries : Nat} (small : entries ≤ 2 ^ 31) :
    (∀ i ∈ initVisits m ending info, i < entries) ↔
      ∀ entry ∈ info.trimmed ending, RangeInside m entry.addr (entry.len.toNat / 4096) entries := by
  have split : (∀ i ∈ initVisits m ending info, i < entries) ↔
      ∀ entry ∈ info.trimmed ending, ∀ i ∈ entryVisits m entry, i < entries := by
    unfold initVisits
    simp only [List.mem_flatMap]
    exact ⟨fun all entry member i visit => all i ⟨entry, member, visit⟩,
      fun all i ⟨entry, member, visit⟩ => all entry member i visit⟩
  rw [split]
  exact forall₂_congr fun entry _ => rangeInside_iff small entry.addr _

/-- From an accepted boot on, every access to the page map lies in the space reserved
for it if and only if the memory map and the calls stay before its last page. -/
theorem page_map_bounds_iff (linked : kVMRangeKernelBase ≤ ending) (booted : init m ending info = some b)
    (actions : List Action) :
    ((∀ i ∈ initVisits m ending info, i < 8 * b.state.memoryMapSize.toNat) ∧
        EachStep Action.exec (fun m action => ∀ i ∈ action.visits m, i < 8 * b.state.memoryMapSize.toNat)
          b.state actions) ↔
      (∀ entry ∈ info.trimmed ending,
        RangeInside m entry.addr (entry.len.toNat / 4096) (8 * b.state.memoryMapSize.toNat)) ∧
        EachStep Action.exec Action.Inside b.state actions := by
  have started := init_started linked booted
  have fits := started.placed.fits
  have bits : b.state.mapBits = 8 * b.state.memoryMapSize.toNat := by rw [started.mapBits, started.size]
  have small : 8 * b.state.memoryMapSize.toNat ≤ 2 ^ 31 := by
    rw [started.size]
    omega
  have same : ∀ m : State, m.memoryMapSize = b.state.memoryMapSize → ∀ action : Action,
      (∀ i ∈ action.visits m, i < 8 * b.state.memoryMapSize.toNat) ↔ action.Inside m := by
    intro m size action
    have bits' : m.mapBits = 8 * b.state.memoryMapSize.toNat := by
      rw [← bits, State.mapBits, State.mapBits, size]
    cases action with
    | call request =>
      rw [← bits'] at small ⊢
      exact request.inside_iff small
    | relocate offset => exact iff_of_true (fun _ visit => absurd visit List.not_mem_nil) trivial
  have kept : ∀ (m : State) (action : Action) answer m', m.memoryMapSize = b.state.memoryMapSize →
      action.exec m = some (answer, m') → m'.memoryMapSize = b.state.memoryMapSize :=
    fun m action answer m' size ran => (Action.exec_size ran).trans size
  rw [initVisits_inside small]
  apply and_congr_right
  intro _
  constructor
  · exact EachStep.mono_kept (fun m => m.memoryMapSize = b.state.memoryMapSize) rfl kept fun m action size =>
      (same m size action).mp
  · exact EachStep.mono_kept (fun m => m.memoryMapSize = b.state.memoryMapSize) rfl kept fun m action size =>
      (same m size action).mpr

/-- A kernel up to 0x120000, and a last chunk of memory that ends at 16 MiB. -/
def smallMap (last : MmapEntry) : BootInfo := ⟨0, [], ⟨0x100000, 0x60000, 1⟩, [last]⟩

def smallBoot : Booted :=
  (init (setMemoryMap [] 0) 0xffffffff80120000 (smallMap ⟨0xffe800, 0x1800, 1⟩)).get (by decide +kernel)

private theorem smallBoot_booted :
    init (setMemoryMap [] 0) 0xffffffff80120000 (smallMap ⟨0xffe800, 0x1800, 1⟩) = some smallBoot := by
  rw [smallBoot, Option.some_get]

private theorem smallBoot_free : FreeRun (setPhysicalBaseOffset smallBoot.state kVMRangePhysMemBase) 4094 1 := by
  intro n below
  rw [show n = 0 by omega]
  decide +kernel

theorem page_map_bounds_iff_witness :
    (∀ i ∈ initVisits (setMemoryMap [] 0) 0xffffffff80120000 (smallMap ⟨0xffe800, 0x1800, 1⟩),
      i < 8 * smallBoot.state.memoryMapSize.toNat) ∧
    EachStep Action.exec (fun m action => ∀ i ∈ action.visits m, i < 8 * smallBoot.state.memoryMapSize.toNat)
      smallBoot.state
      [.relocate kVMRangePhysMemBase, .call (.allocPage kActive), .call (.freePage 0xffff880000150800),
        .call (.freePageRange 0 5000)] := by
  have boot : ∀ entry ∈ (smallMap ⟨0xffe800, 0x1800, 1⟩).trimmed 0xffffffff80120000,
      entry.addr.toNat / 4096 + entry.len.toNat / 4096 < 8 * smallBoot.state.memoryMapSize.toNat := by
    decide +kernel
  refine (page_map_bounds_iff (by decide) smallBoot_booted _).mpr ⟨fun entry member => .inl (boot entry member),
    (eachStep_cons rfl).mpr ⟨trivial, (eachStep_cons (Action.exec_call ..)).mpr
      ⟨.of_run smallBoot_free (by decide +kernel), (eachStep_cons (Action.exec_call ..)).mpr
        ⟨fun _ _ => .inl (by decide +kernel), (eachStep_cons (Action.exec_call ..)).mpr ⟨?_, trivial⟩⟩⟩⟩⟩
  exact fun high => absurd high (by decide +kernel)

/-- A chunk that ends on the last page of the map has the entry behind it rewritten. -/
theorem page_map_overrun : ¬ ∀ (m : State) (ending : VirtAddr) (info : BootInfo) (b : Booted),
    kVMRangeKernelBase ≤ ending → init m ending info = some b →
      ∀ i ∈ initVisits m ending info, i < 8 * b.state.memoryMapSize.toNat := by
  intro claim
  obtain ⟨b, booted⟩ := Option.isSome_iff_exists.mp (by decide +kernel :
    (init (setMemoryMap [] 0) 0xffffffff80120000 (smallMap ⟨0xfff000, 0x1000, 1⟩)).isSome)
  have inside := claim _ _ _ b (by decide) booted 4096 (by decide +kernel)
  rw [(init_started (by decide) booted).size] at inside
  exact absurd inside (by decide +kernel)

end Hotarubi.Memory.Physmm
