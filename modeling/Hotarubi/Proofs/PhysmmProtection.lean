import Hotarubi.Proofs.PhysmmAccounting
import Hotarubi.Proofs.PhysmmBoot

/-! Whether the pages that the boot frees, and the arrays it places, keep clear of
the kernel, the modules and what is not available. The modules are passed in the
order of the list, and an entry is freed from the page it starts in. -/

namespace Hotarubi.Memory.Physmm

/-- The byte at `x` lies in an available entry of the loader's map. -/
def BootInfo.Available (info : BootInfo) (x : Nat) : Prop :=
  ∃ entry ∈ info.mmap, entry.type = multibootMemoryAvailable ∧ entry.addr.toNat ≤ x ∧
    x < entry.addr.toNat + entry.len.toNat

def Module.Holds (mod : Module) (x : Nat) : Prop := mod.modStart.toNat ≤ x ∧ x < mod.modEnd.toNat

/-- The kernel image is loaded at 1 MiB. -/
def InKernel (ending : VirtAddr) (x : Nat) : Prop := 0x100000 ≤ x ∧ x < (kernelEnd ending).toNat

/-- The byte at `x` lies in the bitmap or in the page map. -/
def Booted.Holds (b : Booted) (x : Nat) : Prop :=
  (b.memoryMapData.toNat ≤ x ∧ x < b.memoryMapData.toNat + b.state.memoryMapSize.toNat) ∨
    (b.state.memoryMapPages.toNat ≤ x ∧ x < b.state.memoryMapPages.toNat + 192 * b.state.memoryMapSize.toNat)

structure Protected (ending : VirtAddr) (info : BootInfo) (b : Booted) : Prop where
  free : ∀ x, x / 4096 < b.state.mapBits → b.state.used (x / 4096) = false →
    info.Available x ∧ ¬ InKernel ending x ∧ (∀ mod ∈ info.modList, ¬ mod.Holds x) ∧ ¬ b.Holds x
  arrays : ∀ x, b.Holds x → ¬ InKernel ending x ∧ ∀ mod ∈ info.modList, ¬ mod.Holds x

/-- The end of a module, or of its command line if that starts behind the module. -/
def Module.extent (mod : Module) : Nat :=
  if mod.modEnd.toNat < mod.cmdline.toNat then mod.cmdline.toNat + mod.cmdlineLength.toNat else mod.modEnd.toNat

/-- How far the kernel and the modules reach, where a module counts that starts
above everything before it in the list. -/
def reach (top : Nat) : List Module → Nat
  | [] => top
  | mod :: mods => reach (if top < mod.modStart.toNat then mod.extent else top) mods

/-- The first page that may be freed: behind the bitmap of `size` bytes and the page map. -/
def firstPage (top size : Nat) : Nat := (top + 8 + 193 * size) / 4096 + 1

/-- No module reaches more than 8 bytes beyond what counts, and the start of the
first page of an entry that is freed unaligned is available as well. -/
structure Cleared (ending : VirtAddr) (info : BootInfo) : Prop where
  modules : 0 < info.size.toNat → ∀ mod ∈ info.modList, mod.modStart < mod.modEnd →
    mod.modEnd.toNat ≤ reach (kernelEnd ending).toNat info.modList + 8
  entries : ∀ entry ∈ info.mmap, entry.type = multibootMemoryAvailable →
    firstPage (reach (kernelEnd ending).toNat info.modList) info.size.toNat ≤ entry.addr.toNat / 4096 →
    entry.addr.toNat / 4096 < 8 * info.size.toNat → 4096 ≤ entry.len.toNat →
    ∀ x < entry.addr.toNat, x / 4096 = entry.addr.toNat / 4096 → info.Available x

private theorem firstFree_toNat (first : PhysAddr) (mods : List Module) :
    (firstFree first mods).toNat = reach first.toNat mods := by
  induction mods generalizing first with
  | nil => rfl
  | cons mod mods ih =>
    rw [show firstFree first (mod :: mods) = firstFree (passModule first mod) mods from rfl, ih, reach]
    congr 1
    have line := mod.cmdline.toNat_lt
    have length := mod.cmdlineLength.toNat_lt
    simp only [passModule, Module.extent, gt_iff_lt, UInt64.lt_iff_toNat_lt, UInt32.toNat_toUInt64]
    split
    · split
      · rw [UInt64.toNat_add, UInt32.toNat_toUInt64, UInt32.toNat_toUInt64]
        omega
      · rw [UInt32.toNat_toUInt64]
    · rfl

variable {m : State} {ending : VirtAddr} {info : BootInfo} {b : Booted}

theorem Started.usable (started : Started m ending info b) :
    (info.usable ending).toNat = firstPage (reach (kernelEnd ending).toNat info.modList) info.size.toNat * 4096 := by
  have aligned := started.placed.aligned
  have above := started.placed.above
  have below := started.placed.below
  rw [← firstFree_toNat] at *
  change (info.usable ending).toNat = firstPage (info.first ending).toNat info.size.toNat * 4096
  unfold firstPage
  omega

/-- Every byte of a page that an entry frees lies above the boot structures. It
lies in the entry itself, or before it in the page where the entry starts. -/
theorem freed_byte {usable : PhysAddr} (aligned : usable.toNat % 4096 = 0) {entry : MmapEntry} {x : Nat}
    (frees : Frees usable (trim usable entry) (x / 4096)) :
    usable.toNat ≤ x ∧ entry.type = multibootMemoryAvailable ∧ x < entry.addr.toNat + entry.len.toNat ∧
      (x < entry.addr.toNat → usable.toNat ≤ entry.addr.toNat ∧ x / 4096 = entry.addr.toNat / 4096 ∧
        4096 ≤ entry.len.toNat) := by
  have bound := entry.addr.toNat_lt
  have size := entry.len.toNat_lt
  unfold Frees trim at frees
  split at frees
  next spans =>
    obtain ⟨available, _, first, last⟩ := frees
    obtain ⟨below, beyond⟩ := spans
    rw [UInt64.lt_iff_toNat_lt] at below
    rw [gt_iff_lt, UInt64.lt_iff_toNat_lt, UInt64.toNat_add] at beyond
    dsimp only at available first last
    have cut : (entry.len - (usable - entry.addr)).toNat = entry.len.toNat - (usable.toNat - entry.addr.toNat) := by
      rw [UInt64.toNat_sub, UInt64.toNat_sub]
      omega
    rw [cut] at last
    refine ⟨by omega, available, by omega, fun before => by omega⟩
  next whole =>
    obtain ⟨available, above, first, last⟩ := frees
    rw [UInt64.le_iff_toNat_le] at above
    refine ⟨by omega, available, by omega, fun before => ⟨above, by omega, by omega⟩⟩

section Boot

variable (started : Started m ending info b)
include started

theorem Started.bounds :
    (kernelEnd ending).toNat ≤ reach (kernelEnd ending).toNat info.modList ∧
      b.memoryMapData.toNat = reach (kernelEnd ending).toNat info.modList + 8 ∧
      b.state.memoryMapPages.toNat = b.memoryMapData.toNat + info.size.toNat ∧
      b.memoryMapData.toNat + 193 * info.size.toNat < (info.usable ending).toNat := by
  have first : (info.first ending).toNat = reach (kernelEnd ending).toNat info.modList := firstFree_toNat _ _
  have up := (firstFree_spec (kernelEnd ending) info.modList).1
  have above := started.placed.above
  have data := started.data
  have pages := started.pages
  rw [firstFree_toNat] at up
  omega

theorem Started.holds {x : Nat} (inside : b.Holds x) :
    b.memoryMapData.toNat ≤ x ∧ x < (info.usable ending).toNat ∧ 0 < info.size.toNat := by
  obtain ⟨_, _, pages, above⟩ := started.bounds
  unfold Booted.Holds at inside
  rw [started.size] at inside
  omega

private theorem Started.module_low (cleared : Cleared ending info) (some' : 0 < info.size.toNat) {mod : Module}
    (member : mod ∈ info.modList) {x : Nat} (above : b.memoryMapData.toNat ≤ x) : ¬ mod.Holds x := by
  rintro ⟨low, high⟩
  have reached := cleared.modules some' mod member (UInt32.lt_iff_toNat_lt.mpr (by omega))
  have data := started.bounds.2.1
  omega

theorem Started.protected (cleared : Cleared ending info) : Protected ending info b := by
  obtain ⟨kernel, data, _, above⟩ := started.bounds
  refine ⟨fun x inside free => ?_, fun x held => ?_⟩
  · obtain ⟨entry, member, frees⟩ := (started.used _ inside).mp free
    obtain ⟨high, available, last, before⟩ := freed_byte started.placed.aligned frees
    rw [started.mapBits] at inside
    refine ⟨?_, fun image => ?_, fun mod listed => ?_, fun held => ?_⟩
    · by_cases low : x < entry.addr.toNat
      · obtain ⟨usable, page, long⟩ := before low
        rw [started.usable] at usable
        exact cleared.entries entry member available (by omega) (by omega) long x low page
      · exact ⟨entry, member, available, by omega, last⟩
    · have := image.2
      omega
    · exact started.module_low cleared (by omega) listed (by omega)
    · have := (started.holds held).2.1
      omega
  · obtain ⟨high, _, some'⟩ := started.holds held
    refine ⟨fun image => ?_, fun mod listed => started.module_low cleared some' listed high⟩
    have := image.2
    omega

theorem Started.cleared (safe : Protected ending info b) : Cleared ending info := by
  obtain ⟨_, data, _, _⟩ := started.bounds
  constructor
  · intro some' mod member nonempty
    by_contra beyond
    have start := (firstFree_spec (kernelEnd ending) info.modList).2.2 mod member
    rw [firstFree_toNat] at start
    have held : b.Holds b.memoryMapData.toNat := by
      left
      rw [started.size]
      omega
    exact (safe.arrays _ held).2 mod member ⟨by omega, by omega⟩
  · intro entry member available high inside long x before page
    have frees : Frees (info.usable ending) (trim (info.usable ending) entry) (x / 4096) := by
      have above : (info.usable ending).toNat ≤ entry.addr.toNat := by
        rw [started.usable]
        omega
      have whole : ¬ (entry.addr < info.usable ending ∧ entry.addr + entry.len > info.usable ending) := by
        rintro ⟨below, _⟩
        rw [UInt64.lt_iff_toNat_lt] at below
        omega
      rw [trim, if_neg whole]
      exact ⟨available, UInt64.le_iff_toNat_le.mpr above, by omega, by omega⟩
    have marked : x / 4096 < b.state.mapBits := by
      rw [started.mapBits]
      omega
    exact (safe.free x marked ((started.used _ marked).mpr ⟨entry, member, frees⟩)).1

end Boot

/-- A boot that completes protects what it must exactly when no module reaches
beyond what the scan counts and every page freed is available from its start. -/
theorem boot_protected_iff (linked : kVMRangeKernelBase ≤ ending) (booted : init m ending info = some b) :
    Protected ending info b ↔ Cleared ending info :=
  ⟨(init_started linked booted).cleared, (init_started linked booted).protected⟩

/-- A kernel up to 0x120000 and 32 MiB of memory. -/
def kernelImage : VirtAddr := 0xffffffff80120000

def bootWith (mods : List Module) : BootInfo :=
  ⟨multibootInfoMods, mods, ⟨0, 0x9fc00, 1⟩, [⟨0x9fc00, 0x400, 2⟩, ⟨0x100000, 0x1f00000, 1⟩]⟩

private theorem bootWith_modList (mods : List Module) : (bootWith mods).modList = mods :=
  if_pos (by decide : multibootInfoMods &&& multibootInfoMods ≠ 0)

def firstModule : Module := ⟨0x121000, 0x130000, by decide, 0x9000, 4⟩

def nextModule : Module := ⟨0x130000, 0x140000, by decide, 0x9000, 4⟩

/-- A module one page behind the kernel is kept clear of. -/
theorem boot_protected_iff_witness : ∃ b, init (setMemoryMap [] 0) kernelImage (bootWith [firstModule]) = some b ∧
    Protected kernelImage (bootWith [firstModule]) b := by
  obtain ⟨b, booted⟩ := Option.isSome_iff_exists.mp (by decide +kernel :
    (init (setMemoryMap [] 0) kernelImage (bootWith [firstModule])).isSome)
  refine ⟨b, booted, (boot_protected_iff (by decide) booted).mpr ⟨fun _ => by decide +kernel, ?_⟩⟩
  intro entry member available _ _ _ x before page
  simp only [BootInfo.mmap, bootWith, List.mem_cons, List.not_mem_nil, or_false] at member
  rcases member with rfl | rfl | rfl
  · exact absurd before (Nat.not_lt_zero x)
  · exact absurd available (by decide)
  · rw [show UInt64.toNat 0x100000 = 0x100000 from rfl] at before page
    omega

/-- Two modules that abut: the second starts at the end of the first, is passed
over, and the bitmap is placed inside it. -/
theorem boot_unprotected : ¬ ∀ (m : State) (ending : VirtAddr) (info : BootInfo) (b : Booted),
    kVMRangeKernelBase ≤ ending → info.modList.Pairwise (fun mod other => ∀ x, mod.Holds x → ¬ other.Holds x) →
      init m ending info = some b → Protected ending info b := by
  intro claim
  have apart : (bootWith [firstModule, nextModule]).modList.Pairwise
      (fun mod other => ∀ x, mod.Holds x → ¬ other.Holds x) := by
    rw [bootWith_modList]
    apply List.pairwise_pair.mpr
    intro x first second
    have low : x < 0x130000 := first.2
    have high : 0x130000 ≤ x := second.1
    omega
  obtain ⟨b, booted⟩ := Option.isSome_iff_exists.mp (by decide +kernel :
    (init (setMemoryMap [] 0) kernelImage (bootWith [firstModule, nextModule])).isSome)
  have cleared := (init_started (by decide) booted).cleared (claim _ _ _ b (by decide) apart booted)
  exact absurd (cleared.modules (by decide +kernel)) (by decide +kernel)

end Hotarubi.Memory.Physmm
