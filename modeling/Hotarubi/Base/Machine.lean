import Mathlib.Algebra.Group.Nat.Defs
import Mathlib.Data.List.Basic
import Mathlib.Logic.Function.Basic

/-! A 64-bit processor with a stack that grows downwards, as far as the code that
enters and leaves interrupts goes: straight code with forward jumps, the frame an
interrupt pushes and `iretq` pops. Memory is read and written in aligned quadwords. -/

namespace Hotarubi.Base

inductive Reg where
  | rax | rbx | rcx | rdx | rsi | rdi | rbp | rsp
  | r8 | r9 | r10 | r11 | r12 | r13 | r14 | r15
  deriving DecidableEq, Repr

structure Regs where
  (rax rbx rcx rdx rsi rdi rbp rsp : UInt64)
  (r8 r9 r10 r11 r12 r13 r14 r15 : UInt64)
  deriving DecidableEq, Repr

def Regs.get (regs : Regs) : Reg → UInt64
  | .rax => regs.rax | .rbx => regs.rbx | .rcx => regs.rcx | .rdx => regs.rdx
  | .rsi => regs.rsi | .rdi => regs.rdi | .rbp => regs.rbp | .rsp => regs.rsp
  | .r8 => regs.r8 | .r9 => regs.r9 | .r10 => regs.r10 | .r11 => regs.r11
  | .r12 => regs.r12 | .r13 => regs.r13 | .r14 => regs.r14 | .r15 => regs.r15

def Regs.set (regs : Regs) (value : UInt64) : Reg → Regs
  | .rax => { regs with rax := value } | .rbx => { regs with rbx := value }
  | .rcx => { regs with rcx := value } | .rdx => { regs with rdx := value }
  | .rsi => { regs with rsi := value } | .rdi => { regs with rdi := value }
  | .rbp => { regs with rbp := value } | .rsp => { regs with rsp := value }
  | .r8 => { regs with r8 := value } | .r9 => { regs with r9 := value }
  | .r10 => { regs with r10 := value } | .r11 => { regs with r11 := value }
  | .r12 => { regs with r12 := value } | .r13 => { regs with r13 := value }
  | .r14 => { regs with r14 := value } | .r15 => { regs with r15 := value }

/-- `memory` gives the quadword at an aligned address. Of the status flags only ZF and CF
are there, and only the instructions whose flags the code goes on to test set them. -/
structure Machine where
  regs : Regs
  rip : UInt64
  rflags : UInt64
  cs : UInt16
  ss : UInt16
  ds : UInt16
  cr2 : UInt64
  gsBase : UInt64
  kernelGsBase : UInt64
  memory : UInt64 → UInt64

namespace Machine

def setReg (m : Machine) (r : Reg) (value : UInt64) : Machine := { m with regs := m.regs.set value r }

def push (m : Machine) (value : UInt64) : Machine :=
  { m with
    regs := { m.regs with rsp := m.regs.rsp - 8 }
    memory := Function.update m.memory (m.regs.rsp - 8) value }

def pushAll (m : Machine) (values : List UInt64) : Machine := values.foldl push m

/-- The quadword `n` places above the top of the stack. -/
def slot (m : Machine) (n : Nat) : UInt64 := m.memory (m.regs.rsp + 8 * UInt64.ofNat n)

def swapgs (m : Machine) : Machine := { m with gsBase := m.kernelGsBase, kernelGsBase := m.gsBase }

def zf : UInt64 := 0x40
def cf : UInt64 := 0x1

def setFlag (m : Machine) (flag : UInt64) (value : Bool) : Machine :=
  { m with rflags := if value then m.rflags ||| flag else m.rflags &&& ~~~flag }

def flag (m : Machine) (flag : UInt64) : Bool := m.rflags &&& flag != 0

/-- What the processor clears in RFLAGS when it takes an interrupt gate: TF, IF, NT, RF and VM. -/
def gateFlags : UInt64 := 0x34300

/-- The processor takes an interrupt: it changes to another stack if it has to, aligns
the stack pointer and pushes the frame, with an error code for some vectors. -/
def interrupt (m : Machine) (target : UInt64) (selector : UInt16) (stack errorCode : Option UInt64) : Machine :=
  let aligned := { m with regs := { m.regs with rsp := stack.getD m.regs.rsp &&& ~~~15 } }
  let framed := aligned.pushAll [m.ss.toUInt64, m.regs.rsp, m.rflags, m.cs.toUInt64, m.rip]
  let framed := framed.pushAll errorCode.toList
  { framed with rip := target, cs := selector, rflags := m.rflags &&& ~~~gateFlags }

def iretq (m : Machine) : Machine :=
  { m with
    rip := m.slot 0
    cs := (m.slot 1).toUInt16
    rflags := m.slot 2
    regs := { m.regs with rsp := m.slot 3 }
    ss := (m.slot 4).toUInt16 }

end Machine

/-- An immediate or a displacement of 32 bits in 64-bit code. -/
def signExtend (v : UInt32) : UInt64 :=
  if v &&& 0x80000000 = 0 then v.toUInt64 else v.toUInt64 ||| 0xffffffff00000000

/-- Operands are in the assembler's order. `je` and `jc` skip instructions. -/
inductive Instr where
  | pushImm (value : UInt32)
  | push (src : Reg)
  | pop (dst : Reg)
  | mov (src dst : Reg)
  | movImm (value : UInt64) (dst : Reg)
  | movImm16 (value : UInt16) (dst : Reg)
  | load (disp : UInt64) (base dst : Reg)
  | loadIndex (base index dst : Reg)
  | store (src : Reg) (disp : UInt64) (base : Reg)
  | lea (disp : UInt32) (dst : Reg)
  | xor (src dst : Reg)
  | add (value : UInt64) (dst : Reg)
  | readDs (dst : Reg)
  | writeDs (src : Reg)
  | readCr2 (dst : Reg)
  | cmpl (value : UInt32) (disp : UInt64) (base : Reg)
  | bt (bit : UInt64) (src : Reg)
  | swapgs
  | rdmsr
  | je (skip : Nat)
  | jc (skip : Nat)
  | call (target : Reg)
  | jmp (target : Reg)
  | iretq
  deriving DecidableEq, Repr

/-- How a piece of code is left. -/
inductive Exit where
  | fell
  | jumped (target : UInt64)
  | returned
  | fault
  deriving DecidableEq, Repr

/-- The functions that code calls, from entry to return, and the address they return to. -/
structure Callees where
  run : UInt64 → Machine → Machine
  back : UInt64

/-- A function keeps to the calling convention: it pops its return address, and it
leaves the two GS bases alone. -/
structure Callees.Returns (callees : Callees) (f : UInt64) : Prop where
  stack : ∀ m, (callees.run f m).regs.rsp = m.regs.rsp + 8
  gsBase : ∀ m, (callees.run f m).gsBase = m.gsBase
  kernelGsBase : ∀ m, (callees.run f m).kernelGsBase = m.kernelGsBase

def low16 (old : UInt64) (value : UInt16) : UInt64 := (old &&& ~~~0xffff) ||| value.toUInt64

def gsBaseMsr : UInt32 := 0xc0000101
def kernelGsBaseMsr : UInt32 := 0xc0000102

open Machine in
/-- One instruction that neither jumps nor ends the code; `none` is a fault. -/
def Instr.exec (callees : Callees) (m : Machine) : Instr → Option Machine
  | .pushImm value => some (m.push (signExtend value))
  | .push src => some (m.push (m.regs.get src))
  | .pop dst => some ({ m with regs := { m.regs with rsp := m.regs.rsp + 8 } }.setReg dst (m.slot 0))
  | .mov src dst => some (m.setReg dst (m.regs.get src))
  | .movImm value dst => some (m.setReg dst value)
  | .movImm16 value dst => some (m.setReg dst (low16 (m.regs.get dst) value))
  | .load disp base dst => some (m.setReg dst (m.memory (m.regs.get base + disp)))
  | .loadIndex base index dst => some (m.setReg dst (m.memory (m.regs.get base + 8 * m.regs.get index)))
  | .store src disp base => some { m with memory := Function.update m.memory (m.regs.get base + disp) (m.regs.get src) }
  | .lea disp dst => some (m.setReg dst (signExtend disp))
  | .xor src dst =>
    let value := m.regs.get dst ^^^ m.regs.get src
    some ((m.setReg dst value).setFlag zf (value == 0))
  | .add value dst => some (m.setReg dst (m.regs.get dst + value))
  | .readDs dst => some (m.setReg dst (low16 (m.regs.get dst) m.ds))
  | .writeDs src => some { m with ds := (m.regs.get src).toUInt16 }
  | .readCr2 dst => some (m.setReg dst m.cr2)
  | .cmpl value disp base => some (m.setFlag zf ((m.memory (m.regs.get base + disp)).toUInt32 == value))
  | .bt bit src => some (m.setFlag cf (m.regs.get src >>> bit &&& 1 != 0))
  | .swapgs => some m.swapgs
  | .rdmsr =>
    let value :=
      if (m.regs.get .rcx).toUInt32 = gsBaseMsr then some m.gsBase
      else if (m.regs.get .rcx).toUInt32 = kernelGsBaseMsr then some m.kernelGsBase
      else none
    value.map fun value => (m.setReg .rax (value &&& 0xffffffff)).setReg .rdx (value >>> 32)
  | .call target => some (callees.run (m.regs.get target) (m.push callees.back))
  | .je _ | .jc _ | .jmp _ | .iretq => none

open Machine in
/-- Straight code with forward jumps: how it is left, and with which machine. -/
def runCode (callees : Callees) : List Instr → Nat → Machine → Exit × Machine
  | [], _, m => (.fell, m)
  | _ :: rest, skip + 1, m => runCode callees rest skip m
  | i :: rest, 0, m =>
    match i with
    | .je skip => runCode callees rest (if m.flag zf then skip else 0) m
    | .jc skip => runCode callees rest (if m.flag cf then skip else 0) m
    | .jmp target => (.jumped (m.regs.get target), m)
    | .iretq => (.returned, m.iretq)
    | i =>
      match i.exec callees m with
      | some m => runCode callees rest 0 m
      | none => (.fault, m)

section Code
variable {callees : Callees} {rest : List Instr} {m m' : Machine}

theorem runCode_exec {i : Instr} (plain : i.exec callees m = some m') :
    runCode callees (i :: rest) 0 m = runCode callees rest 0 m' := by
  cases i
  case je => cases plain
  case jc => cases plain
  case jmp => cases plain
  case iretq => cases plain
  all_goals rw [runCode, plain] <;> simp only [reduceCtorEq, false_imp_iff, implies_true]

theorem runCode_drop (n : Nat) : runCode callees rest n m = runCode callees (rest.drop n) 0 m := by
  induction rest generalizing n with
  | nil =>
    rw [List.drop_nil]
    rfl
  | cons i rest ih =>
    cases n with
    | zero => rfl
    | succ n => exact ih n

theorem runCode_je (skip : Nat) : runCode callees (.je skip :: rest) 0 m =
    runCode callees (if m.flag Machine.zf then rest.drop skip else rest) 0 m := by
  rw [runCode, runCode_drop]
  split
  · rfl
  · rfl

theorem runCode_jc (skip : Nat) : runCode callees (.jc skip :: rest) 0 m =
    runCode callees (if m.flag Machine.cf then rest.drop skip else rest) 0 m := by
  rw [runCode, runCode_drop]
  split
  · rfl
  · rfl

end Code

namespace Machine

/-- From `bottom` down the stack holds the values, the last pushed one first, and nothing
else of the memory has changed but the next `depth` quadwords below `bottom`. -/
structure Stacked (base : UInt64 → UInt64) (bottom : UInt64) (depth : Nat) (values : List UInt64) (m : Machine) : Prop where
  top : m.regs.rsp = bottom - 8 * UInt64.ofNat values.length
  holds : ∀ j (inside : j < values.length), m.slot j = values[j]
  outside : ∀ a, (∀ i < depth, a ≠ bottom - 8 * UInt64.ofNat (i + 1)) → m.memory a = base a

variable {base : UInt64 → UInt64} {bottom : UInt64} {depth : Nat} {values : List UInt64} {m m' : Machine} {v : UInt64}

theorem slot_zero (a : UInt64) : a + 8 * UInt64.ofNat 0 = a := UInt64.add_zero a

theorem slot_succ (a : UInt64) (j : Nat) : a - 8 + 8 * UInt64.ofNat (j + 1) = a + 8 * UInt64.ofNat j := by
  rw [UInt64.ofNat_add]
  grind

theorem slot_below (a : UInt64) (n : Nat) : a - 8 * UInt64.ofNat n - 8 = a - 8 * UInt64.ofNat (n + 1) := by
  rw [UInt64.ofNat_add]
  grind

/-- Few slots do not wrap around the address space. -/
theorem slot_apart {a : UInt64} {j : Nat} (small : j < 2 ^ 60) : a + 8 * UInt64.ofNat j ≠ a - 8 := by
  intro same
  have zero : 8 * UInt64.ofNat (j + 1) = 0 := by
    rw [UInt64.ofNat_add]
    grind
  have := congrArg UInt64.toNat zero
  rw [UInt64.toNat_mul, UInt64.toNat_ofNat', show (8 : UInt64).toNat = 8 from rfl, show (0 : UInt64).toNat =
    0 from rfl] at this
  omega

theorem Stacked.push (stacked : Stacked base bottom depth values m) (room : values.length < depth)
    (small : depth < 2 ^ 60) :
    Stacked base bottom depth (v :: values) (m.push v) := by
  have top : m.regs.rsp - 8 = bottom - 8 * UInt64.ofNat (values.length + 1) := by
    rw [stacked.top, slot_below]
  constructor
  case top => exact top
  case holds =>
    intro j inside
    cases j with
    | zero =>
      simp only [slot, Machine.push, slot_zero, Function.update_self, List.getElem_cons_zero]
    | succ j =>
      rw [List.length_cons] at inside
      have apart : m.regs.rsp + 8 * UInt64.ofNat j ≠ m.regs.rsp - 8 := slot_apart (by omega)
      have kept := stacked.holds j (by omega)
      simp only [slot, Machine.push, slot_succ, Function.update_of_ne apart, List.getElem_cons_succ]
      exact kept
  case outside =>
    intro a away
    have different : a ≠ m.regs.rsp - 8 := by
      rw [top]
      exact away values.length room
    simp only [Machine.push, Function.update_of_ne different]
    exact stacked.outside a away

theorem Stacked.pop (stacked : Stacked base bottom depth (v :: values) m) :
    m.slot 0 = v ∧ Stacked base bottom depth values { m with regs := { m.regs with rsp := m.regs.rsp + 8 } } := by
  refine ⟨stacked.holds 0 (Nat.succ_pos _), ?_⟩
  constructor
  case top =>
    have top := stacked.top
    rw [List.length_cons, ← slot_below] at top
    rw [top, UInt64.sub_add_cancel]
  case holds =>
    intro j inside
    have kept := stacked.holds (j + 1) (Nat.succ_lt_succ inside)
    rw [List.getElem_cons_succ, slot, ← UInt64.add_sub_cancel m.regs.rsp 8, slot_succ] at kept
    exact kept
  case outside => exact stacked.outside

theorem slot_inj {a : UInt64} {i j : Nat} (left : i < 2 ^ 60) (right : j < 2 ^ 60)
    (same : a + 8 * UInt64.ofNat i = a + 8 * UInt64.ofNat j) : i = j := by
  have equal : 8 * UInt64.ofNat i = 8 * UInt64.ofNat j := by grind
  have := congrArg UInt64.toNat equal
  simp only [UInt64.toNat_mul, UInt64.toNat_ofNat', show (8 : UInt64).toNat = 8 from rfl] at this
  omega

/-- A store into a slot that is in use. -/
theorem Stacked.store (stacked : Stacked base bottom depth values m) {j : Nat} (inside : j < values.length)
    (room : values.length ≤ depth) (small : depth < 2 ^ 60) :
    Stacked base bottom depth (values.set j v)
      { m with memory := Function.update m.memory (m.regs.rsp + 8 * UInt64.ofNat j) v } := by
  constructor
  case top =>
    rw [List.length_set]
    exact stacked.top
  case holds =>
    intro i bound
    rw [List.length_set] at bound
    dsimp only [Machine.slot]
    by_cases same : i = j
    · subst same
      rw [Function.update_self, List.getElem_set_self]
    · have apart : m.regs.rsp + 8 * UInt64.ofNat i ≠ m.regs.rsp + 8 * UInt64.ofNat j :=
        fun equal => same (slot_inj (by omega) (by omega) equal)
      rw [Function.update_of_ne apart, List.getElem_set_ne (Ne.symm same)]
      exact stacked.holds i bound
  case outside =>
    intro a away
    have different : a ≠ m.regs.rsp + 8 * UInt64.ofNat j := by
      have place : m.regs.rsp + 8 * UInt64.ofNat j = bottom - 8 * UInt64.ofNat (values.length - j - 1 + 1) := by
        rw [stacked.top, Nat.sub_add_cancel (by omega), UInt64.ofNat_sub (by omega)]
        grind
      rw [place]
      exact away _ (by omega)
    dsimp only
    rw [Function.update_of_ne different]
    exact stacked.outside a away

/-- Only the stack pointer and the memory matter. -/
theorem Stacked.congr (stacked : Stacked base bottom depth values m) (top : m'.regs.rsp = m.regs.rsp)
    (memory : m'.memory = m.memory) : Stacked base bottom depth values m' where
  top := top.trans stacked.top
  holds j inside := by
    rw [slot, top, memory]
    exact stacked.holds j inside
  outside a away := by
    rw [memory]
    exact stacked.outside a away

/-- A pop into a register other than the stack pointer. -/
theorem Stacked.pop_exec (stacked : Stacked base bottom depth (v :: values) m) (callees : Callees) (dst : Reg)
    (other : dst ≠ .rsp) :
    ∃ m', Instr.exec callees m (.pop dst) = some m' ∧ Stacked base bottom depth values m' ∧
      m' = { m with regs := { m.regs with rsp := m.regs.rsp + 8 } }.setReg dst v := by
  obtain ⟨top, rest⟩ := stacked.pop
  have kept (value : UInt64) (regs : Regs) : (regs.set value dst).rsp = regs.rsp := by
    cases dst
    case rsp => exact absurd rfl other
    all_goals rfl
  refine ⟨{ m with regs := { m.regs with rsp := m.regs.rsp + 8 } }.setReg dst v, ?_, rest.congr (kept ..) rfl, rfl⟩
  rw [Instr.exec, top]

theorem Stacked.pushAll (new : List UInt64) (stacked : Stacked base bottom depth values m)
    (room : values.length + new.length ≤ depth) (small : depth < 2 ^ 60) :
    Stacked base bottom depth (new.reverse ++ values) (m.pushAll new) := by
  induction new generalizing m values with
  | nil => exact stacked
  | cons v new ih =>
    rw [List.length_cons] at room
    rw [List.reverse_cons, List.append_assoc]
    exact ih (stacked.push (by omega) small) (by rw [List.length_append, List.length_singleton]; omega)

/-- An empty stack below any address. -/
theorem stacked_start (m : Machine) (depth : Nat) : Stacked m.memory m.regs.rsp depth [] m where
  top := (UInt64.sub_zero _).symm
  holds _ inside := absurd inside (Nat.not_lt_zero _)
  outside _ _ := rfl

theorem low16_xor_self (old : UInt64) (v : UInt16) : low16 (old ^^^ old) v = v.toUInt64 := by
  simp [low16]

theorem low16_toUInt16 (old : UInt64) (v : UInt16) : (low16 old v).toUInt16 = v := by
  apply UInt16.toBitVec_inj.mp
  ext i inside
  simp [low16]

/-- IF, the flag that lets interrupts in. -/
def interruptFlag : UInt64 := 0x200

/-- The status flags do not touch IF. -/
theorem setFlag_masked (masked : m.rflags &&& interruptFlag = 0) (value : Bool) :
    (m.setFlag zf value).rflags &&& interruptFlag = 0 ∧ (m.setFlag cf value).rflags &&& interruptFlag = 0 := by
  have bits := congrArg UInt64.toBitVec masked
  have clear (flag : BitVec 64) : m.rflags.toBitVec &&& flag &&& 512#64 = 0#64 := by
    rw [BitVec.and_assoc, BitVec.and_comm flag, ← BitVec.and_assoc]
    simp only [interruptFlag, UInt64.toBitVec_and] at bits
    rw [show m.rflags.toBitVec &&& 512#64 = 0#64 from bits, BitVec.zero_and]
  have set (flag : BitVec 64) (other : flag &&& 512#64 = 0#64) : (m.rflags.toBitVec ||| flag) &&& 512#64 = 0#64 := by
    simp only [interruptFlag, UInt64.toBitVec_and] at bits
    rw [BitVec.and_or_distrib_right, show m.rflags.toBitVec &&& 512#64 = 0#64 from bits, other, BitVec.or_self]
  cases value with
  | true => exact ⟨UInt64.toBitVec_inj.mp (set 64#64 rfl), UInt64.toBitVec_inj.mp (set 1#64 rfl)⟩
  | false => exact ⟨UInt64.toBitVec_inj.mp (clear (~~~64#64)), UInt64.toBitVec_inj.mp (clear (~~~1#64))⟩

theorem flag_setFlag {flag : UInt64} (some' : flag ≠ 0) (value : Bool) : (m.setFlag flag value).flag flag = value := by
  cases value with
  | true =>
    have absorbed : (m.rflags ||| flag) &&& flag = flag := by
      apply UInt64.toBitVec_inj.mp
      ext i inside
      simpa using Or.inr
    rw [Machine.flag, setFlag, if_pos rfl, absorbed]
    exact bne_iff_ne.mpr some'
  | false =>
    have cleared : (m.rflags &&& ~~~flag) &&& flag = 0 := by
      rw [UInt64.and_assoc, UInt64.not_and_self, UInt64.and_zero]
    rw [Machine.flag, setFlag, if_neg Bool.false_ne_true, cleared]
    rfl

theorem gate_masked (flags : UInt64) : (flags &&& ~~~gateFlags) &&& interruptFlag = 0 := by
  rw [UInt64.and_assoc, show ~~~gateFlags &&& interruptFlag = 0 from rfl, UInt64.and_zero]

/-- What pushing leaves alone. -/
theorem pushAll_eq (m : Machine) (new : List UInt64) :
    m.pushAll new = { m with
      regs := { m.regs with rsp := (m.pushAll new).regs.rsp }
      memory := (m.pushAll new).memory } := by
  induction new generalizing m with
  | nil => rfl
  | cons v new ih =>
    have rest := ih (m.push v)
    exact rest

/-- The stack on which an interrupt is taken. -/
def interruptBottom (m : Machine) (stack : Option UInt64) : UInt64 := stack.getD m.regs.rsp &&& ~~~15

theorem interrupt_stacked (m : Machine) (target : UInt64) (selector : UInt16) (stack errorCode : Option UInt64)
    (depth : Nat) (room : 6 ≤ depth) (small : depth < 2 ^ 60) :
    Stacked m.memory (m.interruptBottom stack) depth
      (errorCode.toList ++ [m.rip, m.cs.toUInt64, m.rflags, m.regs.rsp, m.ss.toUInt64])
      (m.interrupt target selector stack errorCode) := by
  have start := stacked_start { m with regs := { m.regs with rsp := m.interruptBottom stack } } depth
  have pushed := start.pushAll [m.ss.toUInt64, m.regs.rsp, m.rflags, m.cs.toUInt64, m.rip]
    (by simp only [List.length_cons, List.length_nil]; omega) small
  have coded := pushed.pushAll errorCode.toList (by
    cases errorCode <;> simp <;> omega) small
  have reversed : errorCode.toList.reverse = errorCode.toList := by
    cases errorCode with
    | none => rfl
    | some code => rfl
  rw [reversed] at coded
  exact coded.congr rfl rfl

theorem interrupt_eq (m : Machine) (target : UInt64) (selector : UInt16) (stack errorCode : Option UInt64) :
    m.interrupt target selector stack errorCode = { m with
      rip := target
      cs := selector
      rflags := m.rflags &&& ~~~gateFlags
      regs := { m.regs with rsp := (m.interrupt target selector stack errorCode).regs.rsp }
      memory := (m.interrupt target selector stack errorCode).memory } := by
  cases errorCode with
  | none => simp only [interrupt, pushAll, List.foldl_cons, List.foldl_nil, Option.toList_none, push]
  | some code => simp only [interrupt, pushAll, List.foldl_cons, List.foldl_nil, Option.toList_some, push]

end Machine

end Hotarubi.Base
