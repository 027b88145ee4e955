import Hotarubi.Base.Lock
import Hotarubi.Memory.Physmm

/-! The calls of the physical memory manager access by access, with the map lock
where the source takes it. Any number of processors may be in them at once. -/

namespace Hotarubi.Memory.Physmm
open Base

/-- What no call of the interface writes: the base offset and the size of the map. -/
def State.view (m : State) : PhysAddr × UInt32 := (m.memoryMapBase, m.memoryMapSize)

namespace Stepwise

abbrev Access := Code State

def memoryMapBase : Access PhysAddr := Code.read fun m => m.view.1

def memoryMapSize : Access UInt32 := Code.read fun m => m.view.2

/-- `_memory_map_size * 8` -/
def mapBits : Access Nat := do
  let size ← memoryMapSize
  pure (size * 8).toNat

def word (i : Nat) : Access (BitVec 32) := Code.read (·.memoryMapData i)

def setWord (i : Nat) (value : BitVec 32) : Access Unit :=
  Code.write fun m => { m with memoryMapData := Function.update m.memoryMapData i value }

def peekUsed (bit : Nat) : Access Bool := do
  let size ← mapBits
  if bit > size then pure true
  else
    let value ← word (bit / 32)
    pure ((value &&& (1#32 <<< (bit % 32))) != 0#32)

/-- `_mark_used` and `_mark_free`: the word and the counter are each loaded and stored. -/
def mark (used : Bool) (value : Nat → BitVec 32 → BitVec 32) (count : UInt32 → UInt32) (bit : Nat) : Access Unit := do
  let size ← mapBits
  if bit < size then
    let seen ← peekUsed bit
    if seen == used then
      let old ← word (bit / 32)
      setWord (bit / 32) (value bit old)
      let total ← Code.read State.memoryMapUsed
      Code.write fun m => { m with memoryMapUsed := count total }
    else pure ()
  else pure ()

def markUsed : Nat → Access Unit := mark false (fun bit old => old ||| (1#32 <<< (bit % 32))) (· + 1)

def markFree : Nat → Access Unit := mark true (fun bit old => old &&& ~~~(1#32 <<< (bit % 32))) (· - 1)

def markFrom (mark : Nat → Access Unit) (bit : Nat) : Nat → Access Unit
  | 0 => pure ()
  | len + 1 => do
    mark bit
    markFrom mark (bit + 1) len

def markUsedRange (addr : PhysAddr) (len : UInt64) : Access Unit :=
  markFrom markUsed (addr / pageSize).toNat (len / pageSize).toNat

def markFreeRange (addr : PhysAddr) (len : UInt64) : Access Unit :=
  markFrom markFree (addr / pageSize).toNat (len / pageSize).toNat

def scanWord (test : Nat → Access Bool) (i : Nat) : Access (Option Nat) := do
  let value ← word i
  if value != 0xffffffff#32 then
    Code.firstHit (fun bit => do
      let hit ← test (i * 32 + bit)
      pure (if hit then some (i * 32 + bit) else none)) (List.range 32)
  else pure none

def searchWords (test : Nat → Access Bool) : Access PhysAddr := do
  let words ← Code.read State.mapWords
  match ← Code.firstHit (scanWord test) (List.range words) with
  | some bit => pure (UInt64.ofNat bit * pageSize)
  | none => pure 0

def searchFirstFree : Access PhysAddr :=
  searchWords fun bit => do
    let used ← peekUsed bit
    pure (used == false)

def followingFree (bit num : Nat) : Access Bool := do
  let broken ← Code.firstHit (fun n => do
    let used ← peekUsed (bit + n)
    pure (if used == true then some () else none)) (List.range' 1 (num - 1))
  pure broken.isNone

def searchFirstFreeRange (num : UInt32) : Access PhysAddr :=
  if num ≤ 1 then
    if num = 0 then pure 0 else searchFirstFree
  else
    searchWords fun bit => do
      let used ← peekUsed bit
      if used == false then followingFree bit num.toNat else pure false

/-- `__XPA( addr ) >> PAGE_SHIFT` -/
def pageIndex (addr : PhysAddr) : Access Nat := do
  let base ← memoryMapBase
  pure ((if addr ≥ base then pa addr else addr) >>> pageShift).toNat

def setPages (store : Nat → Access Unit) (addr : PhysAddr) : Nat → Access Unit
  | 0 => do store (← pageIndex addr)
  | len + 1 => do
    store (← pageIndex addr)
    setPages store (addr + pageSize) len

def setEntry (i : Nat) (entry : PageMap → PageMap) : Access Unit :=
  Code.write fun m => { m with pageMaps := Function.update m.pageMaps i (entry (m.pageMaps i)) }

def flagPageRange (addr : PhysAddr) (flags : Flags) (len : UInt64) : Access Unit :=
  setPages (fun i => do
    let link ← Code.read (·.linkAddr i)
    setEntry i fun entry => { entry with link := ⟨link, link⟩ }
    setEntry i fun entry => { entry with flags := flags }) addr (len / pageSize).toNat

def resetPageRange (addr : PhysAddr) (len : UInt64) : Access Unit :=
  setPages (fun i => do
    setEntry i fun _ => ⟨⟨0, 0⟩, 0⟩
    setEntry i fun entry => { entry with flags := kUnused }) addr (len / pageSize).toNat

def freePageCount : Access UInt32 := do
  let size ← memoryMapSize
  let used ← Code.read State.memoryMapUsed
  pure (size * 8 - used)

/-- `scoped_lock` around a body: the lock is given back on every way out of it. -/
def scopedLock {β : Type} (body : Access β) : Access β := do
  Code.acquire
  let answer ← body
  Code.release
  pure answer

def allocPage (flags : Flags) : Access (Option UInt64) :=
  scopedLock do
    let free ← freePageCount
    if free = 0 then pure none
    else
      let addr ← searchFirstFree
      if addr = 0 then pure none
      else
        markUsedRange addr pageSize
        flagPageRange addr flags pageSize
        let base ← memoryMapBase
        pure (some (addr + base))

def allocPageRange (count : UInt32) (flags : Flags) : Access (Option UInt64) :=
  if count ≤ 1 then allocPage flags
  else do
    let found ← scopedLock do
      let free ← freePageCount
      if free < count then pure none
      else
        let addr ← searchFirstFreeRange count
        if addr = 0 then pure none
        else
          markUsedRange addr (byteLength count)
          flagPageRange addr flags (byteLength count)
          pure (some addr)
    match found with
    | none => pure none
    | some addr =>
      let base ← memoryMapBase
      pure (some (addr + base))

/-- The offset is dropped before the lock is taken. -/
def dropOffset (page : UInt64) : Access PhysAddr := do
  let base ← memoryMapBase
  if page ≥ base then
    let base ← memoryMapBase
    pure (page - base)
  else pure page

/-- The locked part of both free functions. -/
def release (addr : PhysAddr) (len : UInt64) : Access (Option UInt64) := do
  scopedLock do
    markFreeRange addr len
    resetPageRange addr len
  pure none

def freePage (page : UInt64) : Access (Option UInt64) := do
  let addr ← dropOffset page
  if addr < pageSize then pure none
  else
    let size ← memoryMapSize
    if boundWeight addr > (size * 8).toUInt64 then pure none
    else release addr pageSize

def clampCount (addr : PhysAddr) : Nat → Access UInt32
  | 0 => pure 0
  | count + 1 => do
    let size ← memoryMapSize
    if boundWeight (addr + byteLength (UInt32.ofNat (count + 1))) < (size * 8).toUInt64 then
      pure (UInt32.ofNat (count + 1))
    else clampCount addr count

def freePageRange (page : UInt64) (count : UInt32) : Access (Option UInt64) := do
  let addr ← dropOffset page
  if addr < pageSize then pure none
  else
    let count ← clampCount addr (if count < 1 then 1 else count).toNat
    if count ≠ 0 then release addr (byteLength count)
    else pure none

end Stepwise

/-- What a processor executes for a call. -/
def Call.code : Call → Code State (Option UInt64)
  | .allocPage flags => Stepwise.allocPage flags
  | .allocPageRange count flags => Stepwise.allocPageRange count flags
  | .freePage page => Stepwise.freePage page
  | .freePageRange page count => Stepwise.freePageRange page count

end Hotarubi.Memory.Physmm
