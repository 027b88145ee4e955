import Hotarubi.Base.Scan
import Hotarubi.Memory.Layout
import Mathlib.Logic.Function.Basic

/-! The physical memory manager: one bit per page in 32-bit words, a counter of
used pages kept beside the bits, and an array of page metadata. Unsigned machine
arithmetic is kept at the width the source gives it. -/

namespace Hotarubi.Memory.Physmm
open Base

abbrev Flags := BitVec 16

def kUnused : Flags := 1#16 <<< 0
def kActive : Flags := 1#16 <<< 1
def kLocked : Flags := 1#16 <<< 2
def kReserved : Flags := 1#16 <<< 3
def kSlab : Flags := 1#16 <<< 4

structure ListHead where
  prev : UInt64
  next : UInt64
  deriving DecidableEq, Repr

/-- `page_map_t` -/
structure PageMap where
  link : ListHead
  flags : Flags
  deriving DecidableEq, Repr

/-- The file's static variables. `memoryMapData` and `pageMaps` are total: what
lies behind the map is memory that the code can reach as well. -/
structure State where
  memoryMapData : Nat → BitVec 32
  memoryMapSize : UInt32
  memoryMapUsed : UInt32
  memoryMapBase : PhysAddr
  memoryMapPages : UInt64
  pageMaps : Nat → PageMap

/-- `_memory_map_size * 8`, a 32-bit product. -/
def State.mapBits (m : State) : Nat := (m.memoryMapSize * 8).toNat

def peekUsed (m : State) (bit : Nat) : Bool :=
  if bit > m.mapBits then true
  else (m.memoryMapData (bit / 32) &&& (1#32 <<< (bit % 32))) != 0#32

/-- The bitmap words `peekUsed` loads. -/
def peekReads (m : State) (bit : Nat) : List Nat :=
  if bit > m.mapBits then [] else [bit / 32]

def markUsed (m : State) (bit : Nat) : State :=
  if bit < m.mapBits && peekUsed m bit == false then
    { m with
      memoryMapData := Function.update m.memoryMapData (bit / 32)
        (m.memoryMapData (bit / 32) ||| (1#32 <<< (bit % 32)))
      memoryMapUsed := m.memoryMapUsed + 1 }
  else m

def markFree (m : State) (bit : Nat) : State :=
  if bit < m.mapBits && peekUsed m bit == true then
    { m with
      memoryMapData := Function.update m.memoryMapData (bit / 32)
        (m.memoryMapData (bit / 32) &&& ~~~(1#32 <<< (bit % 32)))
      memoryMapUsed := m.memoryMapUsed - 1 }
  else m

/-- The loop of `_mark_free_range` from page `bit` for the given number of pages. -/
def markFreeFrom (m : State) (bit : Nat) : Nat → State
  | 0 => m
  | len + 1 => markFreeFrom (markFree m bit) (bit + 1) len

def markUsedFrom (m : State) (bit : Nat) : Nat → State
  | 0 => m
  | len + 1 => markUsedFrom (markUsed m bit) (bit + 1) len

/-- The bitmap words the loop of `_mark_used_range` loads. -/
def markReads (m : State) (bit : Nat) : Nat → List Nat
  | 0 => []
  | len + 1 => (if bit < m.mapBits then peekReads m bit else []) ++ markReads m (bit + 1) len

def markFreeRange (m : State) (addr : PhysAddr) (len : UInt64) : State :=
  markFreeFrom m (addr / pageSize).toNat (len / pageSize).toNat

def markUsedRange (m : State) (addr : PhysAddr) (len : UInt64) : State :=
  markUsedFrom m (addr / pageSize).toNat (len / pageSize).toNat

/-- `_memory_map_size / sizeof( _memory_map_data[0] )` -/
def State.mapWords (m : State) : Nat := (m.memoryMapSize / 4).toNat

/-- The bits of word `i` in order, unless the whole word is in use. -/
def scanWord (m : State) (test : Nat → Bool × List Nat) (i : Nat) : Option Nat × List Nat :=
  if m.memoryMapData i != 0xffffffff#32 then
    let hit := scan (fun bit =>
      let result := test (i * 32 + bit)
      (if result.1 then some (i * 32 + bit) else none, result.2)) (List.range 32)
    (hit.1, i :: hit.2)
  else (none, [i])

/-- The loops shared by both searches; the first bit that passes the test is
returned as an address. -/
def searchWords (m : State) (test : Nat → Bool × List Nat) : PhysAddr × List Nat :=
  let found := scan (scanWord m test) (List.range m.mapWords)
  (match found.1 with
    | some bit => UInt64.ofNat bit * pageSize
    | none => 0, found.2)

def searchFirstFree (m : State) : PhysAddr × List Nat :=
  searchWords m fun bit => (peekUsed m bit == false, peekReads m bit)

/-- The inner loop over `n` of `_search_first_free_range`: `match` stays true
unless one of the following pages is used. -/
def followingFree (m : State) (bit num : Nat) : Bool × List Nat :=
  let broken := scan (fun n =>
    (if peekUsed m (bit + n) == true then some () else none, peekReads m (bit + n)))
    (List.range' 1 (num - 1))
  (broken.1.isNone, broken.2)

def searchFirstFreeRange (m : State) (num : UInt32) : PhysAddr × List Nat :=
  if num ≤ 1 then
    if num = 0 then (0, []) else searchFirstFree m
  else
    searchWords m fun bit =>
      if peekUsed m bit == false then
        let rest := followingFree m bit num.toNat
        (rest.1, peekReads m bit ++ rest.2)
      else (false, peekReads m bit)

/-- `__XPA` -/
def xpa (m : State) (x : UInt64) : UInt64 := if x ≥ m.memoryMapBase then pa x else x

/-- The address of `memory_map_pages[i].link`; an entry takes 24 bytes. -/
def State.linkAddr (m : State) (i : Nat) : UInt64 := m.memoryMapPages + 24 * UInt64.ofNat i

/-- One pass of either metadata loop, at the entry the address selects. -/
def State.setPage (m : State) (addr : PhysAddr) (entry : Nat → PageMap) : State :=
  let i := (xpa m addr >>> pageShift).toNat
  { m with pageMaps := Function.update m.pageMaps i (entry i) }

/-- `do { … } while( len-- )` visits one page more than `len`. -/
def setPages (m : State) (addr : PhysAddr) (entry : Nat → PageMap) : Nat → State
  | 0 => m.setPage addr entry
  | len + 1 => setPages (m.setPage addr entry) (addr + pageSize) entry len

def State.flagged (m : State) (flags : Flags) (i : Nat) : PageMap :=
  ⟨⟨m.linkAddr i, m.linkAddr i⟩, flags⟩

def unusedPage : PageMap := ⟨⟨0, 0⟩, kUnused⟩

/-- `_flag_page_range` (KERNEL build) -/
def flagPageRange (m : State) (addr : PhysAddr) (flags : Flags) (len : UInt64) : State :=
  setPages m addr (m.flagged flags) (len / pageSize).toNat

/-- `_free_page_range` (KERNEL build) -/
def resetPageRange (m : State) (addr : PhysAddr) (len : UInt64) : State :=
  setPages m addr (fun _ => unusedPage) (len / pageSize).toNat

def setPhysicalBaseOffset (m : State) (offset : PhysAddr) : State :=
  { m with
    memoryMapPages := m.memoryMapPages - m.memoryMapBase + offset
    memoryMapBase := offset }

def freePageCount (m : State) : UInt32 := m.memoryMapSize * 8 - m.memoryMapUsed

/-- The result `none` is `nullptr`. -/
def allocPage (m : State) (flags : Flags) : Option UInt64 × State :=
  if freePageCount m = 0 then (none, m)
  else
    let addr := (searchFirstFree m).1
    if addr = 0 then (none, m)
    else
      let marked := markUsedRange m addr pageSize
      let flagged := flagPageRange marked addr flags pageSize
      (some (addr + m.memoryMapBase), flagged)

/-- `PAGE_SIZE * count`, a 32-bit product widened to `size_t`. -/
def byteLength (count : UInt32) : UInt64 := (0x1000 * count).toUInt64

def allocPageRange (m : State) (count : UInt32) (flags : Flags) : Option UInt64 × State :=
  if count ≤ 1 then allocPage m flags
  else if freePageCount m < count then (none, m)
  else
    let addr := (searchFirstFreeRange m count).1
    if addr = 0 then (none, m)
    else
      let marked := markUsedRange m addr (byteLength count)
      let flagged := flagPageRange marked addr flags (byteLength count)
      (some (addr + m.memoryMapBase), flagged)

/-- The bitmap words `alloc_page_range` loads for two pages or more. -/
def allocPageRangeReads (m : State) (count : UInt32) : List Nat :=
  if freePageCount m < count then []
  else
    let found := searchFirstFreeRange m count
    if found.1 = 0 then found.2
    else found.2 ++ markReads m (found.1 / pageSize).toNat (byteLength count / pageSize).toNat

/-- Pointers at or above the base offset are taken to include it. -/
def dropOffset (m : State) (page : UInt64) : PhysAddr :=
  if page ≥ m.memoryMapBase then page - m.memoryMapBase else page

/-- The weight both free functions compare with the size of the map. -/
def boundWeight (addr : PhysAddr) : UInt64 := addr / pageSize / 32 + addr / pageSize % 32

def freePage (m : State) (page : UInt64) : State :=
  let addr := dropOffset m page
  if addr < pageSize then m
  else if boundWeight addr > (m.memoryMapSize * 8).toUInt64 then m
  else resetPageRange (markFreeRange m addr pageSize) addr pageSize

/-- The `do … while( count )` loop of `free_page_range`, entered with a positive count. -/
def clampCount (m : State) (addr : PhysAddr) : Nat → UInt32
  | 0 => 0
  | count + 1 =>
    if boundWeight (addr + byteLength (UInt32.ofNat (count + 1))) < (m.memoryMapSize * 8).toUInt64 then
      UInt32.ofNat (count + 1)
    else clampCount m addr count

def freePageRange (m : State) (page : UInt64) (count : UInt32) : State :=
  let addr := dropOffset m page
  if addr < pageSize then m
  else
    let count := if count < 1 then 1 else count
    let count := clampCount m addr count.toNat
    if count ≠ 0 then
      resetPageRange (markFreeRange m addr (byteLength count)) addr (byteLength count)
    else m

/-- `get_page_map`: the index of the entry the returned pointer selects. -/
def getPageMap (m : State) (paddr : PhysAddr) : Option Nat :=
  if paddr >>> pageShift < m.memoryMapSize.toUInt64 then some (paddr >>> pageShift).toNat else none

/-- One call of the allocator's interface. The map lock makes each of them atomic. -/
inductive Call where
  | allocPage (flags : Flags)
  | allocPageRange (count : UInt32) (flags : Flags)
  | freePage (page : UInt64)
  | freePageRange (page : UInt64) (count : UInt32)
  deriving DecidableEq, Repr

def Call.exec (call : Call) (m : State) : Option UInt64 × State :=
  match call with
  | .allocPage flags => Physmm.allocPage m flags
  | .allocPageRange count flags => Physmm.allocPageRange m count flags
  | .freePage page => (none, Physmm.freePage m page)
  | .freePageRange page count => (none, Physmm.freePageRange m page count)

def run (m : State) (calls : List Call) : State :=
  calls.foldl (fun m call => (call.exec m).2) m

end Hotarubi.Memory.Physmm
