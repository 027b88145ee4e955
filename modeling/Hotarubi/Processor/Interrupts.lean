import Hotarubi.Base.Machine
import Hotarubi.Processor.Idt

/-! The code that the processor enters on an interrupt: a stub for each vector, and
the two common paths that call the handler and return. -/

namespace Hotarubi.Idt
open Base

-- `table` is the low word of the address of `_interrupt_pointer_table`.
variable (symbols : Symbols) (table : UInt32)

/-- `interrupt_stub nr, has_ec, read_msr` -/
def interruptStub (nr : UInt32) (hasEc readMsr : Bool) : List Instr :=
  (if hasEc = false then [.pushImm 0] else []) ++
    [.pushImm nr,
     .pushImm 0,
     .push .rax,
     .lea (if readMsr = false then symbols.swapgsFast else symbols.swapgsSlow) .rax,
     .jmp .rax]

/-- `interrupt_stub_base` with the patched words. -/
def interruptStubBase (stub : Stub) : List Instr :=
  [.pushImm 0,
   .pushImm stub.nr,
   .pushImm 0,
   .push .rax,
   .movImm stub.context .rax,
   .store .rax 8 .rsp,
   .lea stub.handler .rax,
   .jmp .rax]

def interruptCallUp : List Instr :=
  [.push .rbp,
   .mov .rsp .rbp,
   .push .r15, .push .r14, .push .r13, .push .r12, .push .r11, .push .r10, .push .r9, .push .r8,
   .push .rdx, .push .rcx, .push .rbx, .push .rax, .push .rdi, .push .rsi,
   .xor .rax .rax,
   .readDs .rax,
   .push .rax,
   .readCr2 .rax,
   .push .rax,
   .movImm16 0x10 .rax,
   .writeDs .rax,
   .mov .rsp .rdi,
   .lea table .rbx,
   .load 16 .rbp .rcx,
   .loadIndex .rbx .rcx .rax,
   .call .rax,
   .add 8 .rsp,
   .pop .rax,
   .writeDs .rax,
   .pop .rsi, .pop .rdi, .pop .rax, .pop .rbx, .pop .rcx, .pop .rdx,
   .pop .r8, .pop .r9, .pop .r10, .pop .r11, .pop .r12, .pop .r13, .pop .r14, .pop .r15,
   .pop .rbp,
   .add 24 .rsp]

/-- `L_interrupt_swapgs_fast` -/
def interruptSwapgsFast : List Instr :=
  [.pop .rax, .cmpl 0x08 32 .rsp, .je 1, .swapgs] ++
    interruptCallUp table ++
    [.cmpl 0x08 8 .rsp, .je 1, .swapgs, .iretq]

/-- `L_interrupt_swapgs_slow` -/
def interruptSwapgsSlow : List Instr :=
  [.pop .rax,
   .push .rcx, .push .rax, .push .rdx,
   .movImm 0xc0000101 .rcx,
   .rdmsr,
   .bt 31 .rdx,
   .pop .rdx, .pop .rax, .pop .rcx,
   .jc (interruptCallUp table).length.succ.succ.succ] ++
    (.swapgs :: interruptCallUp table ++ [.swapgs, .iretq]) ++
    (interruptCallUp table ++ [.iretq])

/-- The stubs of the system vectors in the order of the text: number, `has_ec`, `read_msr`. -/
def systemStubs : List (UInt32 × Bool × Bool) :=
  [(0, false, false), (1, false, true), (2, false, true), (3, false, false), (4, false, false), (5, false, false),
   (6, false, false), (7, false, false), (8, true, false), (9, false, false), (10, true, false), (11, true, false),
   (12, true, false), (13, true, false), (14, true, false), (16, false, false), (17, true, false), (18, false, true),
   (19, false, false), (32, false, false)]

/-- The address of the system stub with the given place in the text. -/
def systemStubAddr (k : Nat) : UInt64 := symbols.stub0 + symbols.systemStubSize * UInt64.ofNat k

/-- The code at an address, if a stub starts there. -/
def stubAt (s : State) (address : UInt64) : Option (List Instr) :=
  match (List.range systemStubs.length).find? fun k => systemStubAddr symbols k = address with
  | some k => systemStubs[k]?.map fun stub => interruptStub symbols stub.1 stub.2.1 stub.2.2
  | none =>
    ((List.range (idtDescriptors - idtReserved)).find? fun i => stubAddr symbols i = address).map fun i =>
      interruptStubBase (s.stub i)

/-- The code that a stub jumps to. -/
def pathAt (address : UInt64) : Option (List Instr) :=
  if address = signExtend symbols.swapgsFast then some (interruptSwapgsFast table)
  else if address = signExtend symbols.swapgsSlow then some (interruptSwapgsSlow table)
  else none

/-- The stacks of the task state segment. -/
structure Stacks where
  rsp0 : UInt64
  ist : UInt8 → UInt64

/-- The stack the processor changes to for a gate: the gate's own, or the kernel's
when it comes from user mode. -/
def Stacks.choose (tss : Stacks) (cs : UInt16) (ist : UInt8) : Option UInt64 :=
  if ist ≠ 0 then some (tss.ist ist)
  else if cs &&& 3 ≠ 0 then some tss.rsp0
  else none

/-- An interrupt on a vector, from the interrupted machine to the one it goes on with.
Without a present gate or code to run there is no answer. -/
def deliver (callees : Callees) (tss : Stacks) (s : State) (m : Machine) (vector : Nat) (errorCode : Option UInt64) :
    Option Machine := do
  let gate := s.idt vector
  guard (gate.type &&& kPresent ≠ 0)
  let stub ← stubAt symbols s gate.target
  let entered := m.interrupt gate.target gate.selector (tss.choose m.cs gate.ist) errorCode
  match runCode callees stub 0 entered with
  | (.jumped target, m) =>
    let path ← pathAt symbols table target
    match runCode callees path 0 m with
    | (.returned, m) => some m
    | (_, _) => none
  | (_, _) => none

/-- `irq_stack_frame` -/
structure IrqStackFrame where
  cr2 : UInt64
  ds : UInt16
  rsi : UInt64
  rdi : UInt64
  rax : UInt64
  rbx : UInt64
  rcx : UInt64
  rdx : UInt64
  r8 : UInt64
  r9 : UInt64
  r10 : UInt64
  r11 : UInt64
  r12 : UInt64
  r13 : UInt64
  r14 : UInt64
  r15 : UInt64
  rbp : UInt64
  context : UInt64
  irqNr : UInt64
  errorCode : UInt32
  rip : UInt64
  cs : UInt16
  rflags : UInt64
  rsp : UInt64
  ss : UInt16
  deriving DecidableEq, Repr

/-- A quadword of the structure; padding fills each narrow field up to one. -/
def quad (memory : UInt64 → UInt64) (address : UInt64) (n : Nat) : UInt64 := memory (address + 8 * UInt64.ofNat n)

/-- The structure a handler finds at the address it is passed. -/
def frameAt (memory : UInt64 → UInt64) (address : UInt64) : IrqStackFrame where
  cr2 := quad memory address 0
  ds := (quad memory address 1).toUInt16
  rsi := quad memory address 2
  rdi := quad memory address 3
  rax := quad memory address 4
  rbx := quad memory address 5
  rcx := quad memory address 6
  rdx := quad memory address 7
  r8 := quad memory address 8
  r9 := quad memory address 9
  r10 := quad memory address 10
  r11 := quad memory address 11
  r12 := quad memory address 12
  r13 := quad memory address 13
  r14 := quad memory address 14
  r15 := quad memory address 15
  rbp := quad memory address 16
  context := quad memory address 17
  irqNr := quad memory address 18
  errorCode := (quad memory address 19).toUInt32
  rip := quad memory address 20
  cs := (quad memory address 21).toUInt16
  rflags := quad memory address 22
  rsp := quad memory address 23
  ss := (quad memory address 24).toUInt16

end Hotarubi.Idt
