import Mathlib.Logic.Function.Basic

/-! The interrupt descriptor table and the patched stubs that dynamic vectors go
through. A stub is given by the three words that the code patches; every stub
has them at the same offsets, since one macro assembles them all. -/

namespace Hotarubi.Idt

def idtDescriptors : Nat := 255
def idtReserved : Nat := 32

def idtStubNrMagic : UInt32 := 0xdeadbeef
def idtStubCxMagic : UInt32 := 0x0badf00d

def kAccessSys : UInt8 := 0x00
def kAccessUsr : UInt8 := 0x60
def kPresent : UInt8 := 0x80
def kTypeIRQ : UInt8 := 0x0e

/-- What the linker supplies. `stub0` is `_interrupt_stub_0`, `systemStubSize` the
distance to `_interrupt_stub_1`, `stubSize` the quotient both functions compute. -/
structure Symbols where
  stub0 : UInt64
  systemStubSize : UInt64
  stubBase : UInt64
  stubSize : UInt64
  defaultIrqStub : UInt64
  swapgsSlow : UInt32
  swapgsFast : UInt32

/-- The words at `patch_index`, `patch_ctxt` and `patch_jump`. -/
structure Stub where
  nr : UInt32
  context : UInt64
  handler : UInt32
  deriving DecidableEq, Repr

structure Descriptor where
  targetLo : UInt16
  selector : UInt16
  ist : UInt8
  type : UInt8
  targetHi : UInt16
  targetXt : UInt32
  deriving DecidableEq, Repr

/-- The address the processor jumps to. -/
def Descriptor.target (descr : Descriptor) : UInt64 :=
  descr.targetLo.toUInt64 + descr.targetHi.toUInt64 <<< 16 + descr.targetXt.toUInt64 <<< 32

/-- `stub` and the tables are total: what lies behind the last element is memory
that an index can reach as well. -/
structure State where
  stub : Nat → Stub
  interruptPointerTable : Nat → UInt64
  idt : Nat → Descriptor

variable (symbols : Symbols)

/-- The address of the stub with the given index. -/
def stubAddr (i : Nat) : UInt64 := symbols.stubBase + symbols.stubSize * UInt64.ofNat i

/-- The fields `_setup_idt_descriptor` fills in. -/
def Descriptor.to (target : UInt64) (selector : UInt16) (stack type : UInt8) : Descriptor where
  targetLo := target.toUInt16
  targetHi := (target >>> 16).toUInt16
  targetXt := (target >>> 32).toUInt32
  selector := selector
  type := type
  ist := stack

def setupIdtDescriptor (s : State) (index : Nat) (target : UInt64) (selector : UInt16) (stack type : UInt8) : State :=
  { s with idt := Function.update s.idt index (.to target selector stack type) }

def registerSystemHandler (s : State) (index : Nat) (fn : UInt64) : Bool × State :=
  if index ≤ idtReserved then
    if s.interruptPointerTable index = 0 ∨ s.interruptPointerTable index = symbols.defaultIrqStub then
      (true, { s with interruptPointerTable := Function.update s.interruptPointerTable index fn })
    else (false, s)
  else (false, s)

/-- What `register_irq_handler` writes once the stub of number `i` is found free. -/
def takeStub (s : State) (i : Nat) (fn ucontext : UInt64) (swapgsFast : Bool) : State :=
  setupIdtDescriptor
    { s with
      stub := Function.update s.stub (i - 1)
        ⟨UInt32.ofNat (idtReserved + i), ucontext, if swapgsFast then symbols.swapgsFast else symbols.swapgsSlow⟩
      interruptPointerTable := Function.update s.interruptPointerTable (idtReserved + i) fn }
    (idtReserved + i) (stubAddr symbols (i - 1)) 0x08 0 (kTypeIRQ ||| kPresent ||| kAccessSys)

/-- `register_irq_handler`: the loop runs over the numbers from 1 and visits the stubs from 0. -/
def registerIrqHandler (s : State) (fn ucontext : UInt64) (swapgsFast : Bool) : Option UInt32 × State :=
  match (List.range' 1 (idtDescriptors - idtReserved - 1)).find? fun i => (s.stub (i - 1)).nr == idtStubNrMagic with
  | some i => (some (UInt32.ofNat (idtReserved + i)), takeStub symbols s i fn ucontext swapgsFast)
  | none => (none, s)

/-- `release_irq_handler`: the stub is selected by the vector itself. -/
def releaseIrqHandler (s : State) (index : UInt32) : State :=
  if index.toNat ≤ idtReserved ∨ index.toNat > idtDescriptors then s
  else
    { stub := Function.update s.stub index.toNat
        ⟨idtStubNrMagic, 0xffffffff00000000 ||| idtStubCxMagic.toUInt64, symbols.swapgsFast⟩
      interruptPointerTable := Function.update s.interruptPointerTable index.toNat 0xbadf00d
      idt := Function.update s.idt index.toNat
        { s.idt index.toNat with type := (s.idt index.toNat).type &&& ~~~kPresent } }

/-- The `switch` in `init`: type and stack of a vector, unless it is skipped. -/
def vectorKind (i : Nat) : Option (UInt8 × UInt8) :=
  match i with
  | 1 => some (kTypeIRQ ||| kPresent ||| kAccessSys, 1)
  | 2 => some (kTypeIRQ ||| kPresent ||| kAccessSys, 2)
  | 8 => some (kTypeIRQ ||| kPresent ||| kAccessSys, 3)
  | 18 => some (kTypeIRQ ||| kPresent ||| kAccessSys, 4)
  | 15 => none
  | 32 => some (kTypeIRQ ||| kPresent ||| kAccessUsr, 0)
  | i =>
    if 20 ≤ i ∧ i ≤ 31 then none
    else if 33 ≤ i then some (kTypeIRQ ||| kAccessSys, 0)
    else some (kTypeIRQ ||| kPresent ||| kAccessSys, 0)

/-- One pass of the loop in `init`, with the running `stub_base`. -/
def initVector (now : State × UInt64) (i : Nat) : State × UInt64 :=
  let s := if i ≤ idtReserved then (registerSystemHandler symbols now.1 i symbols.defaultIrqStub).2 else now.1
  match vectorKind i with
  | none => (s, now.2)
  | some (type, stack) =>
    (setupIdtDescriptor s i now.2 0x08 stack type, now.2 + if i > idtReserved then 0 else symbols.systemStubSize)

/-- `init` on the bootstrap processor. -/
def init (s : State) : State :=
  ((List.range idtDescriptors).foldl (initVector symbols)
    ({ s with idt := fun _ => ⟨0, 0, 0, 0, 0, 0⟩ }, symbols.stub0)).1

end Hotarubi.Idt
