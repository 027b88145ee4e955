import Hotarubi.Memory.Physmm

/-! The virtual memory manager: four levels of page tables in memory, built on
demand with pages of the physical memory manager. A pointer that the code
compares with `nullptr` is an option or a zero word, as the source has it. -/

namespace Hotarubi.Memory.Virtmm

/-- What the manager uses of physmm. A page is returned by the pointer to it. -/
structure PageSource (σ : Type) where
  allocPage : Physmm.Flags → σ → Option UInt64 × σ
  freePage : σ → UInt64 → σ
  physicalBaseOffset : σ → UInt64

def physmmSource : PageSource Physmm.State where
  allocPage flags m := Physmm.allocPage m flags
  freePage := Physmm.freePage
  physicalBaseOffset m := m.memoryMapBase

def kNone : UInt64 := 0
def kPresent : UInt64 := (1 : UInt64) <<< 0
def kWritable : UInt64 := (1 : UInt64) <<< 1
def kCacheDisable : UInt64 := (1 : UInt64) <<< 4
def kMask : UInt64 := 0xffe0000000000fff

def mapInvalid : UInt64 := 0xffffffffffffffff

/-- Memory is read and written in 64-bit words, named by their address. -/
structure State (σ : Type) where
  mem : UInt64 → UInt64
  cr3 : UInt64
  systemPml4 : UInt64
  physmm : σ

/-- The nine bits every index macro keeps. -/
def tableIndex (x : UInt64) : Fin 512 := ⟨(x &&& 0x1ff).toNat, by
  rw [UInt64.toNat_and]
  exact Nat.lt_succ_of_le Nat.and_le_right⟩

def pml4Index (x : VirtAddr) : Fin 512 := tableIndex (x >>> 39)
def pdptIndex (x : VirtAddr) : Fin 512 := tableIndex (x >>> 30)
def pdtIndex (x : VirtAddr) : Fin 512 := tableIndex (x >>> 21)
def ptIndex (x : VirtAddr) : Fin 512 := tableIndex (x >>> 12)

/-- The mask of `MMU_PDPT_ADDR` and its siblings. -/
def frame (entry : UInt64) : UInt64 := entry &&& ~~~kMask

/-- `VIRT_ADDR` and `PHYS_ADDR` for a base offset. -/
def virtAddr (base addr : UInt64) : UInt64 := if addr = 0 then 0 else addr + base
def physAddr (base addr : UInt64) : UInt64 := if addr = 0 then 0 else addr - base

/-- The address of `table[i]`. -/
def slot (table : UInt64) (i : Fin 512) : UInt64 := table + 8 * UInt64.ofNat i

variable {σ : Type} (pages : PageSource σ)

def State.load (s : State σ) (table : UInt64) (i : Fin 512) : UInt64 := s.mem (slot table i)

def State.store (s : State σ) (table : UInt64) (i : Fin 512) (entry : UInt64) : State σ :=
  { s with mem := Function.update s.mem (slot table i) entry }

/-- `memset( ptr, 0, PAGE_SIZE )` -/
def State.zeroPage (s : State σ) (ptr : UInt64) : State σ :=
  { s with mem := fun addr => if addr - ptr < pageSize then 0 else s.mem addr }

/-- The table an entry points to; zero is `nullptr`. -/
def tableAt (s : State σ) (table : UInt64) (i : Fin 512) : UInt64 :=
  virtAddr (pages.physicalBaseOffset s.physmm) (frame (s.load table i))

/-- The block `_map_region` repeats at each level: the table an entry points to,
or a new empty one. The result `none` is a failed allocation. -/
def nextTable (s : State σ) (table : UInt64) (i : Fin 512) : Option UInt64 × State σ :=
  if tableAt pages s table i = 0 then
    match pages.allocPage Physmm.kLocked s.physmm with
    | (none, physmm) => (none, { s with physmm })
    | (some fresh, physmm) =>
      let s := ({ s with physmm } : State σ).zeroPage fresh
      (some fresh, s.store table i (physAddr (pages.physicalBaseOffset s.physmm) fresh ||| (kPresent ||| kWritable)))
  else (some (tableAt pages s table i), s)

/-- One pass of the loop in `_map_region`. -/
def mapPage (s : State σ) (pml4 : UInt64) (vaddr : VirtAddr) (paddr : PhysAddr) (flags : UInt64) : Bool × State σ :=
  match nextTable pages s pml4 (pml4Index vaddr) with
  | (none, s) => (false, s)
  | (some pdpt, s) =>
    match nextTable pages s pdpt (pdptIndex vaddr) with
    | (none, s) => (false, s)
    | (some pdt, s) =>
      match nextTable pages s pdt (pdtIndex vaddr) with
      | (none, s) => (false, s)
      | (some pt, s) => (true, s.store pt (ptIndex vaddr) (paddr ||| (kPresent ||| flags)))

/-- The `do … while( --len )` loop of `_map_region` with `more` passes after the first. -/
def mapPages (s : State σ) (pml4 : UInt64) (vaddr : VirtAddr) (paddr : PhysAddr) (flags : UInt64) :
    Nat → Bool × State σ
  | 0 => mapPage pages s pml4 vaddr paddr flags
  | more + 1 =>
    match mapPage pages s pml4 vaddr paddr flags with
    | (false, s) => (false, s)
    | (true, s) => mapPages s pml4 (vaddr + pageSize) (paddr + pageSize) flags more

/-- The page count both region functions compute from a byte length. -/
def pageCount (len : UInt64) : UInt64 := (if len % pageSize ≠ 0 then len + pageSize else len) / pageSize

def mapRegion (s : State σ) (pml4 : UInt64) (vaddr : VirtAddr) (paddr : PhysAddr) (len flags : UInt64) :
    Bool × State σ :=
  if pml4 = 0 then (false, s)
  else mapPages pages s pml4 vaddr paddr flags (pageCount len - 1).toNat

/-- One pass of the loop in `_unmap_region`, with the address the next pass
starts from: `continue` leaves it where it is. -/
def unmapPage (s : State σ) (pml4 : UInt64) (vaddr : VirtAddr) (freePage : Bool) : VirtAddr × State σ :=
  let pdpt := tableAt pages s pml4 (pml4Index vaddr)
  if pdpt = 0 then (vaddr, s)
  else
    let pdt := tableAt pages s pdpt (pdptIndex vaddr)
    if pdt = 0 then (vaddr, s)
    else
      let pt := tableAt pages s pdt (pdtIndex vaddr)
      if pt = 0 then (vaddr, s)
      else
        let paddr := frame (s.load pt (ptIndex vaddr))
        if paddr ≠ 0 then
          let physmm := if freePage then
              pages.freePage s.physmm (virtAddr (pages.physicalBaseOffset s.physmm) paddr)
            else s.physmm
          (vaddr + pageSize, ({ s with physmm } : State σ).store pt (ptIndex vaddr) 0)
        else (vaddr + pageSize, s)

def unmapPages (s : State σ) (pml4 : UInt64) (vaddr : VirtAddr) (freePage : Bool) : Nat → State σ
  | 0 => (unmapPage pages s pml4 vaddr freePage).2
  | more + 1 =>
    let next := unmapPage pages s pml4 vaddr freePage
    unmapPages next.2 pml4 next.1 freePage more

def unmapRegion (s : State σ) (pml4 : UInt64) (vaddr : VirtAddr) (len : UInt64) (freePage : Bool) : Bool × State σ :=
  if pml4 = 0 then (false, s)
  else (true, unmapPages pages s pml4 vaddr freePage (pageCount len - 1).toNat)

/-- The table `cr3` points to. -/
def State.pml4 (s : State σ) : UInt64 := virtAddr (pages.physicalBaseOffset s.physmm) s.cr3

def mapFixed (s : State σ) (vaddr : VirtAddr) (paddr : PhysAddr) (flags : UInt64) : Bool × State σ :=
  mapRegion pages s (s.pml4 pages) vaddr paddr pageSize flags

/-- `map_address`: what `alloc_page` returns, cast to an address, is mapped. -/
def mapAddress (s : State σ) (vaddr : VirtAddr) (flags : UInt64) : Bool × State σ :=
  let pml4 := s.pml4 pages
  let (addr, physmm) := pages.allocPage Physmm.kActive s.physmm
  mapRegion pages { s with physmm } pml4 vaddr (addr.getD 0) pageSize flags

def unmapAddress (s : State σ) (vaddr : VirtAddr) : State σ :=
  (unmapRegion pages s (s.pml4 pages) vaddr pageSize true).2

def unmapFixed (s : State σ) (vaddr : VirtAddr) : State σ :=
  (unmapRegion pages s (s.pml4 pages) vaddr pageSize false).2

def unmapAddressRange (s : State σ) (vaddr : VirtAddr) (npages : UInt64) : State σ :=
  (unmapRegion pages s (s.pml4 pages) vaddr (pageSize * npages) true).2

/-- The loop of `map_address_range` from its pass `n` on. -/
def mapAddressesFrom (s : State σ) (vaddr : VirtAddr) (flags n : UInt64) : Nat → Bool × State σ
  | 0 => (true, s)
  | more + 1 =>
    match mapAddress pages s vaddr flags with
    | (false, s) => (false, unmapAddressRange pages s (vaddr - pageSize * n) (n - 1))
    | (true, s) => mapAddressesFrom s (vaddr + pageSize) flags (n + 1) more

def mapAddressRange (s : State σ) (vaddr : VirtAddr) (npages flags : UInt64) : Bool × State σ :=
  mapAddressesFrom pages s vaddr flags 0 npages.toNat

/-- The entries `lookup_mapping` hands back by reference. -/
structure Entries where
  pml4e : UInt64
  pdpte : UInt64
  pdte : UInt64
  pte : UInt64
  deriving DecidableEq, Repr

/-- The labels at the end of the source fall through: a missing table
invalidates its entry and all below. -/
def lookupMapping (s : State σ) (vaddr : VirtAddr) : Bool × Entries :=
  let pml4 := s.pml4 pages
  if pml4 = 0 then (false, ⟨mapInvalid, mapInvalid, mapInvalid, mapInvalid⟩)
  else
    let pml4e := s.load pml4 (pml4Index vaddr)
    let pdpt := tableAt pages s pml4 (pml4Index vaddr)
    if pdpt = 0 then (false, ⟨mapInvalid, mapInvalid, mapInvalid, mapInvalid⟩)
    else
      let pdpte := s.load pdpt (pdptIndex vaddr)
      let pdt := tableAt pages s pdpt (pdptIndex vaddr)
      if pdt = 0 then (false, ⟨pml4e, mapInvalid, mapInvalid, mapInvalid⟩)
      else
        let pdte := s.load pdt (pdtIndex vaddr)
        let pt := tableAt pages s pdt (pdtIndex vaddr)
        if pt = 0 then (false, ⟨pml4e, pdpte, mapInvalid, mapInvalid⟩)
        else
          let pte := s.load pt (ptIndex vaddr)
          if tableAt pages s pt (ptIndex vaddr) = 0 then (false, ⟨pml4e, pdpte, pdte, mapInvalid⟩)
          else (true, ⟨pml4e, pdpte, pdte, pte⟩)

/-- The section symbols of link.ld. -/
structure Image where
  text : VirtAddr
  irqstub : VirtAddr
  data : VirtAddr
  ending : VirtAddr

/-- One call of `_map_region` in `_create_system_vm`; a failed one panics. -/
def mapOrPanic (pml4 : UInt64) (vaddr : VirtAddr) (paddr : PhysAddr) (len flags : UInt64) (s : State σ) :
    Option (State σ) :=
  match mapRegion pages s pml4 vaddr paddr len flags with
  | (false, _) => none
  | (true, s) => some s

/-- The result `none` is the panic at `error_out`. -/
def createSystemVm (s : State σ) (image : Image) (memoryUpperBound : PhysAddr) : Option (State σ) :=
  match pages.allocPage Physmm.kLocked s.physmm with
  | (none, _) => none
  | (some pml4, physmm) => do
    let s := ({ s with physmm, systemPml4 := pml4 } : State σ).zeroPage pml4
    let s ← mapOrPanic pages pml4 0xa0000 0xa0000 (80 * 26 * 2) kWritable s
    let s ← mapOrPanic pages pml4 0xb8000 0xb8000 (80 * 26 * 2) kWritable s
    let s ← mapOrPanic pages pml4 image.text (image.text - kVMRangeKernelBase)
      (image.irqstub - image.text) kNone s
    let s ← mapOrPanic pages pml4 image.irqstub (image.irqstub - kVMRangeKernelBase)
      (image.data - image.irqstub) kWritable s
    let s ← mapOrPanic pages pml4 image.data (image.data - kVMRangeKernelBase)
      (image.ending - image.data) kWritable s
    mapOrPanic pages pml4 kVMRangePhysMemBase 0 memoryUpperBound kWritable s

end Hotarubi.Memory.Virtmm
