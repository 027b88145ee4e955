import Hotarubi.Base.Bytes
import Hotarubi.Processor.Idt

/-! The patched stubs as they lie in memory: the bytes of `.irqstub` from
`_interrupt_stub_base` on, the offsets that `_detect_patch_offsets` finds in them, and
the two functions that write them. The linker puts `_interrupt_stub_size` behind. -/

namespace Hotarubi.Idt
open Base

structure StubMemory where
  bytes : Nat → UInt8
  patchIndex : Nat
  patchCtxt : Nat
  patchJump : Nat
  interruptPointerTable : Nat → UInt64
  idt : Nat → Descriptor

-- `sizeAt` is the distance from `_interrupt_stub_base` to `_interrupt_stub_size`.
variable (symbols : Symbols) (sizeAt : Nat)

namespace StubMemory

def load32 (s : StubMemory) (a : Nat) : UInt32 := UInt32.ofNat (load s.bytes a 4)

def load64 (s : StubMemory) (a : Nat) : UInt64 := UInt64.ofNat (load s.bytes a 8)

def store32 (s : StubMemory) (a : Nat) (v : UInt32) : StubMemory := { s with bytes := store s.bytes a 4 v.toNat }

def store64 (s : StubMemory) (a : Nat) (v : UInt64) : StubMemory := { s with bytes := store s.bytes a 8 v.toNat }

/-- The quotient that all three functions compute. -/
def size (s : StubMemory) : Nat := (s.load64 sizeAt).toNat / (idtDescriptors - idtReserved)

/-- One pass of the loop of `_detect_patch_offsets`. -/
def detectAt (s : StubMemory) (i : Nat) : StubMemory :=
  let magic := s.load32 i
  if magic = idtStubNrMagic then { s with patchIndex := i }
  else if magic = idtStubCxMagic then { s with patchCtxt := i }
  else if magic = symbols.swapgsSlow ∨ magic = symbols.swapgsFast then { s with patchJump := i }
  else s

def detectPatchOffsets (s : StubMemory) : Bool × StubMemory :=
  let s := (List.range (s.size sizeAt)).foldl (detectAt symbols) s
  (decide (s.patchIndex > 0 ∧ s.patchCtxt > 0 ∧ s.patchJump > 0), s)

/-- What `register_irq_handler` writes in its pass `i`, with `stub` at the given offset. -/
def takeStub (s : StubMemory) (i stub : Nat) (fn ucontext : UInt64) (swapgsFast : Bool) : StubMemory :=
  let s := s.store32 (stub + s.patchIndex) (UInt32.ofNat (idtReserved + i))
  let s := s.store64 (stub + s.patchCtxt) ucontext
  let s := s.store32 (stub + s.patchJump) (if swapgsFast then symbols.swapgsFast else symbols.swapgsSlow)
  { s with
    interruptPointerTable := Function.update s.interruptPointerTable (idtReserved + i) fn
    idt := Function.update s.idt (idtReserved + i)
      (.to (symbols.stubBase + UInt64.ofNat stub) 0x08 0 (kTypeIRQ ||| kPresent ||| kAccessSys)) }

/-- `register_irq_handler`: `stub` moves on by one size in each pass. -/
def registerIrqHandler (s : StubMemory) (fn ucontext : UInt64) (swapgsFast : Bool) : Option UInt32 × StubMemory :=
  let size := s.size sizeAt
  let passes := List.range' 1 (idtDescriptors - idtReserved - 1)
  match passes.find? fun i => s.load32 (size * (i - 1) + s.patchIndex) == idtStubNrMagic with
  | some i => (some (UInt32.ofNat (idtReserved + i)), s.takeStub symbols i (size * (i - 1)) fn ucontext swapgsFast)
  | none => (none, s)

def releaseIrqHandler (s : StubMemory) (index : UInt32) : StubMemory :=
  if index.toNat ≤ idtReserved ∨ index.toNat > idtDescriptors then s
  else
    let stub := s.size sizeAt * index.toNat
    let s := s.store32 (stub + s.patchIndex) idtStubNrMagic
    let s := s.store32 (stub + s.patchJump) symbols.swapgsFast
    let s := s.store32 (stub + s.patchCtxt) idtStubCxMagic
    let s := s.store32 (stub + s.patchCtxt + 4) 0xffffffff
    { s with
      interruptPointerTable := Function.update s.interruptPointerTable index.toNat 0xbadf00d
      idt := Function.update s.idt index.toNat
        { s.idt index.toNat with type := (s.idt index.toNat).type &&& ~~~kPresent } }

end StubMemory

end Hotarubi.Idt
