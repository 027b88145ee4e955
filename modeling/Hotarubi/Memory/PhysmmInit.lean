import Hotarubi.Memory.Physmm

/-! The first step of the physical memory manager: it sizes the bitmap and the page
map by the loader's memory map, places both behind the kernel and the boot modules,
and frees what is available above them. -/

namespace Hotarubi.Memory.Physmm

def multibootInfoMods : UInt32 := 0x00000008
def multibootMemoryAvailable : UInt32 := 1
def bootMaxMapped : UInt64 := 0x3ff00000

/-- `multiboot_mmap_entry`, of whatever size the loader gives it. -/
structure MmapEntry where
  addr : UInt64
  len : UInt64
  type : UInt32
  deriving DecidableEq, Repr

/-- `multiboot_mod_list`, with the `strlen` of its command line. The memory used
goes from `mod_start` to `mod_end-1`. -/
structure Module where
  modStart : UInt32
  modEnd : UInt32
  ordered : modStart ≤ modEnd
  cmdline : UInt32
  cmdlineLength : UInt32
  deriving DecidableEq, Repr

/-- What `init` reads of the boot information. Both loops over the memory map test
their condition at the end, so there is a first entry. -/
structure BootInfo where
  flags : UInt32
  mods : List Module
  mmapFirst : MmapEntry
  mmapRest : List MmapEntry
  deriving DecidableEq, Repr

def BootInfo.mmap (info : BootInfo) : List MmapEntry := info.mmapFirst :: info.mmapRest

/-- The modules of the loop, which is skipped unless the flag is set. -/
def BootInfo.modList (info : BootInfo) : List Module :=
  if info.flags &&& multibootInfoMods ≠ 0 then info.mods else []

/-- The variables of the first iteration. -/
structure Survey where
  firstChunkAbove1mb : PhysAddr
  lastChunkEnd : PhysAddr
  memoryUpperBound : PhysAddr
  deriving DecidableEq, Repr

/-- `if( first_chunk_above_1mb > BOOT_MAX_MAPPED )` -/
def clampMapped (chunk : PhysAddr) : PhysAddr := if chunk > bootMaxMapped then bootMaxMapped else chunk

def surveyEntry (survey : Survey) (entry : MmapEntry) : Survey :=
  let survey :=
    if entry.type = multibootMemoryAvailable then
      { survey with
        firstChunkAbove1mb :=
          if survey.firstChunkAbove1mb = 0 ∧ entry.addr ≥ 0x100000 then clampMapped (entry.addr + entry.len)
          else survey.firstChunkAbove1mb
        lastChunkEnd :=
          if survey.lastChunkEnd < entry.addr + entry.len then entry.addr + entry.len else survey.lastChunkEnd }
    else survey
  { survey with memoryUpperBound := entry.addr + entry.len }

def surveyMap (mmap : List MmapEntry) : Survey := mmap.foldl surveyEntry ⟨0, 0, 0⟩

/-- `_memory_map_size = last_chunk_end / PAGE_SIZE / 8` -/
def mapSize (survey : Survey) : UInt32 := (survey.lastChunkEnd / pageSize / 8).toUInt32

/-- One pass of the loop over the modules. -/
def passModule (firstFree : PhysAddr) (mod : Module) : PhysAddr :=
  if mod.modStart.toUInt64 > firstFree then
    if mod.cmdline.toUInt64 > mod.modEnd.toUInt64 then mod.cmdline.toUInt64 + mod.cmdlineLength.toUInt64
    else mod.modEnd.toUInt64
  else firstFree

/-- `first_free` after that loop; it starts at the end of the kernel. -/
def firstFree (kernelEnd : PhysAddr) (mods : List Module) : PhysAddr := mods.foldl passModule kernelEnd

/-- `sizeof( page_map_t ) * _memory_map_size * 8` -/
def pageMapSize (size : UInt32) : UInt64 := 24 * size.toUInt64 * 8

/-- `first_free` of the second iteration. -/
def firstUsable (first : PhysAddr) (size : UInt32) : PhysAddr :=
  (first + 8 + (size.toUInt64 + pageMapSize size + pageSize)) &&& 0x7ffff000

/-- `memset( _memory_map_data, 0xff, _memory_map_size )` as it changes word `i`. -/
def setBytes (size : UInt32) (words : Nat → BitVec 32) (i : Nat) : BitVec 32 :=
  words i ||| BitVec.ofNat 32 (2 ^ (8 * min 4 (size.toNat - 4 * i)) - 1)

/-- An entry that spans the first usable address loses what lies below it. -/
def trim (first : PhysAddr) (entry : MmapEntry) : MmapEntry :=
  if entry.addr < first ∧ entry.addr + entry.len > first then
    { entry with len := entry.len - (first - entry.addr), addr := first }
  else entry

/-- What the second iteration does to a trimmed entry. -/
def releaseEntry (first : PhysAddr) (m : State) (entry : MmapEntry) : State :=
  if entry.type = multibootMemoryAvailable ∧ entry.addr ≥ first then
    resetPageRange (markFreeRange m entry.addr entry.len) entry.addr entry.len
  else flagPageRange m entry.addr kReserved entry.len

/-- The state afterwards, with the pointer to the bitmap and the bound that the
virtual memory manager maps. -/
structure Booted where
  state : State
  memoryMapData : PhysAddr
  memoryUpperBound : PhysAddr

/-- The state before the second iteration: everything is in use. -/
def allUsed (m : State) (size : UInt32) (first : PhysAddr) : State :=
  { m with
    memoryMapData := setBytes size m.memoryMapData
    memoryMapSize := size
    memoryMapUsed := size * 8
    memoryMapPages := first + 8 + size.toUInt64 }

/-- `( uintptr_t )__end - KERNEL_VMA` -/
def kernelEnd (ending : VirtAddr) : PhysAddr := ending - kVMRangeKernelBase

/-- The final `_memory_map_size`. -/
def BootInfo.size (info : BootInfo) : UInt32 := mapSize (surveyMap info.mmap)

/-- `first_free` when the bitmap is placed, where `ending` is the symbol `__end`. -/
def BootInfo.first (info : BootInfo) (ending : VirtAddr) : PhysAddr := firstFree (kernelEnd ending) info.modList

/-- `first_free` in the second iteration. -/
def BootInfo.usable (info : BootInfo) (ending : VirtAddr) : PhysAddr := firstUsable (info.first ending) info.size

/-- The check before the bitmap is placed. -/
def BootInfo.fits (info : BootInfo) (ending : VirtAddr) : Bool :=
  info.first ending + info.size.toUInt64 + pageMapSize info.size ≤ (surveyMap info.mmap).firstChunkAbove1mb

/-- The entries as the second iteration handles them. -/
def BootInfo.trimmed (info : BootInfo) (ending : VirtAddr) : List MmapEntry := info.mmap.map (trim (info.usable ending))

/-- `init`, where `m` holds whatever memory contains. The result `none` is a panic. -/
def init (m : State) (ending : VirtAddr) (info : BootInfo) : Option Booted :=
  if (surveyMap info.mmap).lastChunkEnd < 0x1000000 then none
  else if !info.fits ending then none
  else some
    { state := (info.trimmed ending).foldl (releaseEntry (info.usable ending))
        (allUsed m info.size (info.first ending))
      memoryMapData := info.first ending + 8
      memoryUpperBound := (surveyMap info.mmap).memoryUpperBound }

end Hotarubi.Memory.Physmm
