import Hotarubi.Processor.Interrupts

/-! The common code around a handler: what the handler finds, and what the processor
goes on with when the handler has returned. -/

namespace Hotarubi.Idt
open Base Base.Machine

variable {symbols : Symbols} {table : UInt32} {callees : Callees} {rest : List Instr}

/-- The part of `interruptCallUp` behind the call. -/
def callUpEnd : List Instr :=
  [.add 8 .rsp,
   .pop .rax,
   .writeDs .rax,
   .pop .rsi, .pop .rdi, .pop .rax, .pop .rbx, .pop .rcx, .pop .rdx,
   .pop .r8, .pop .r9, .pop .r10, .pop .r11, .pop .r12, .pop .r13, .pop .r14, .pop .r15,
   .pop .rbp,
   .add 24 .rsp]

/-- What `interruptCallUp` pushes. -/
def callUpSaves (m : Machine) : List UInt64 :=
  [m.regs.rbp, m.regs.r15, m.regs.r14, m.regs.r13, m.regs.r12, m.regs.r11, m.regs.r10, m.regs.r9, m.regs.r8,
   m.regs.rdx, m.regs.rcx, m.regs.rbx, m.regs.rax, m.regs.rdi, m.regs.rsi,
   low16 (m.regs.rax ^^^ m.regs.rax) m.ds, m.cr2]

/-- The machine at the call of the handler. -/
def atCall (table : UInt32) (m : Machine) : Machine :=
  let p := m.pushAll (callUpSaves m)
  let nr := p.memory (m.regs.rsp - 8 + 16)
  { p with
    regs := { p.regs with
      rdi := p.regs.rsp
      rbp := m.regs.rsp - 8
      rbx := signExtend table
      rcx := nr
      rax := p.memory (signExtend table + 8 * nr) }
    rflags := (m.setFlag zf (m.regs.rax ^^^ m.regs.rax == 0)).rflags
    ds := (low16 m.cr2 0x10).toUInt16 }

private theorem callUp_enter (m : Machine) : runCode callees (interruptCallUp table ++ rest) 0 m =
    runCode callees (callUpEnd ++ rest) 0 (callees.run (atCall table m).regs.rax ((atCall table m).push callees.back)) := by
  simp only [interruptCallUp, List.cons_append, List.nil_append, runCode, Instr.exec, Regs.get, Machine.setReg, Regs.set,
    Machine.push, Machine.setFlag]
  simp only [atCall, callUpSaves, Machine.pushAll, List.foldl_cons, List.foldl_nil, Machine.push, Machine.setFlag]
  rfl

/-- The machine behind `interruptCallUp`, from the one the handler returns. -/
def leaveCallUp (r : Machine) : Machine :=
  let f := frameAt r.memory r.regs.rsp
  { r with
    regs := ⟨f.rax, f.rbx, f.rcx, f.rdx, f.rsi, f.rdi, f.rbp, r.regs.rsp + 160,
      f.r8, f.r9, f.r10, f.r11, f.r12, f.r13, f.r14, f.r15⟩
    ds := f.ds }

private theorem callUp_leave (r : Machine) : runCode callees (callUpEnd ++ rest) 0 r = runCode callees rest 0
    (leaveCallUp r) := by
  simp only [callUpEnd, List.cons_append, List.nil_append, runCode, Instr.exec, Regs.get, Machine.setReg, Regs.set,
    Machine.slot, leaveCallUp, frameAt, quad, UInt64.add_assoc, UInt64.reduceAdd, UInt64.reduceMul,
    UInt64.reduceOfNat]

/-- What the processor pushes, the last value first. -/
def hardwareFrame (m : Machine) : List UInt64 := [m.rip, m.cs.toUInt64, m.rflags, m.regs.rsp, m.ss.toUInt64]

/-- The structure that holds the whole of an interrupted machine. -/
def saved (m : Machine) (context nr errorCode : UInt64) : IrqStackFrame where
  cr2 := m.cr2
  ds := m.ds
  rsi := m.regs.rsi
  rdi := m.regs.rdi
  rax := m.regs.rax
  rbx := m.regs.rbx
  rcx := m.regs.rcx
  rdx := m.regs.rdx
  r8 := m.regs.r8
  r9 := m.regs.r9
  r10 := m.regs.r10
  r11 := m.regs.r11
  r12 := m.regs.r12
  r13 := m.regs.r13
  r14 := m.regs.r14
  r15 := m.regs.r15
  rbp := m.regs.rbp
  context := context
  irqNr := nr
  errorCode := errorCode.toUInt32
  rip := m.rip
  cs := m.cs
  rflags := m.rflags
  rsp := m.regs.rsp
  ss := m.ss

/-- The quadwords below an aligned stack that an interrupt uses up to its handler. -/
def entryDepth : Nat := 26

/-- An address that no push of the entry code reaches. -/
def Untouched (bottom a : UInt64) : Prop := ∀ i < entryDepth, a ≠ bottom - 8 * UInt64.ofNat (i + 1)

/-- The two GS bases, exchanged or not. -/
def gsBases (m : Machine) (swap : Bool) : UInt64 × UInt64 :=
  if swap then (m.kernelGsBase, m.gsBase) else (m.gsBase, m.kernelGsBase)

/-- What a handler is called with: the interrupted machine in the structure it is passed,
kernel segments, interrupts masked and the rest of the memory as it was. -/
structure HandlerEntry (m e : Machine) (bottom context nr errorCode : UInt64) (swap : Bool) : Prop where
  argument : e.regs.rdi = bottom - 200
  frame : frameAt e.memory (bottom - 200) = saved m context nr errorCode
  -- The fast path compares 32 bits of the selector, so the padding matters as well.
  selector : quad e.memory (bottom - 200) 21 = m.cs.toUInt64
  cs : e.cs = 0x08
  ds : e.ds = 0x10
  masked : e.rflags &&& interruptFlag = 0
  gs : (e.gsBase, e.kernelGsBase) = gsBases m swap
  outside : ∀ a, Untouched bottom a → e.memory a = m.memory a

/-- The machine in front of `interruptCallUp`: nothing is lost yet but the stack pointer,
which is on the stack. -/
structure Ready (m n : Machine) (bottom context nr errorCode : UInt64) (swap : Bool) : Prop where
  regs : n.regs = { m.regs with rsp := bottom - 64 }
  stack : Stacked m.memory bottom entryDepth (context :: nr :: errorCode :: hardwareFrame m) n
  cs : n.cs = 0x08
  ds : n.ds = m.ds
  cr2 : n.cr2 = m.cr2
  masked : n.rflags &&& interruptFlag = 0
  gs : (n.gsBase, n.kernelGsBase) = gsBases m swap

section Call
variable {m n : Machine} {bottom context nr errorCode : UInt64} {swap : Bool}

/-- The structure as it lies in memory. -/
def frameValues (m : Machine) (context nr errorCode : UInt64) : List UInt64 :=
  [m.cr2, m.ds.toUInt64, m.regs.rsi, m.regs.rdi, m.regs.rax, m.regs.rbx, m.regs.rcx, m.regs.rdx, m.regs.r8, m.regs.r9,
   m.regs.r10, m.regs.r11, m.regs.r12, m.regs.r13, m.regs.r14, m.regs.r15, m.regs.rbp, context, nr, errorCode] ++
    hardwareFrame m

private theorem frameValues_length : (frameValues m context nr errorCode).length = 25 := rfl

private theorem frameAt_saved {memory : UInt64 → UInt64} {address : UInt64}
    (quads : ∀ j (inside : j < 25), quad memory address j = (frameValues m context nr errorCode)[j]) :
    frameAt memory address = saved m context nr errorCode := by
  have low (v : UInt16) : v.toUInt64.toUInt16 = v := UInt16.toUInt16_toUInt64 v
  rw [frameAt, saved, IrqStackFrame.mk.injEq]
  refine ⟨quads 0 (by decide), ?_, quads 2 (by decide), quads 3 (by decide), quads 4 (by decide), quads 5 (by decide),
    quads 6 (by decide), quads 7 (by decide), quads 8 (by decide), quads 9 (by decide), quads 10 (by decide),
    quads 11 (by decide), quads 12 (by decide), quads 13 (by decide), quads 14 (by decide), quads 15 (by decide),
    quads 16 (by decide), quads 17 (by decide), quads 18 (by decide), ?_, quads 20 (by decide), ?_, quads 22 (by decide),
    quads 23 (by decide), ?_⟩
  · exact (congrArg UInt64.toUInt16 (quads 1 (by decide))).trans (low m.ds)
  · exact congrArg UInt64.toUInt32 (quads 19 (by decide))
  · exact (congrArg UInt64.toUInt16 (quads 21 (by decide))).trans (low m.cs)
  · exact (congrArg UInt64.toUInt16 (quads 24 (by decide))).trans (low m.ss)

private theorem Ready.saves (ready : Ready m n bottom context nr errorCode swap) :
    callUpSaves n = [m.regs.rbp, m.regs.r15, m.regs.r14, m.regs.r13, m.regs.r12, m.regs.r11, m.regs.r10, m.regs.r9,
      m.regs.r8, m.regs.rdx, m.regs.rcx, m.regs.rbx, m.regs.rax, m.regs.rdi, m.regs.rsi, m.ds.toUInt64, m.cr2] := by
  rw [callUpSaves, low16_xor_self, ready.regs, ready.ds, ready.cr2]

/-- The stack at the call of the handler. -/
theorem Ready.pushed (ready : Ready m n bottom context nr errorCode swap) :
    Stacked m.memory bottom entryDepth (frameValues m context nr errorCode) (n.pushAll (callUpSaves n)) := by
  have all := ready.stack.pushAll (callUpSaves n) (Nat.le_of_ble_eq_true rfl) (by decide)
  rw [ready.saves] at all ⊢
  exact all

private theorem atCall_eq (table : UInt32) (n : Machine) : atCall table n = { n with
    regs := (atCall table n).regs
    memory := (n.pushAll (callUpSaves n)).memory
    rflags := (n.setFlag zf (n.regs.rax ^^^ n.regs.rax == 0)).rflags
    ds := 0x10 } := by
  rw [atCall, pushAll_eq, low16_toUInt16]

theorem Ready.number (ready : Ready m n bottom context nr errorCode swap) :
    (n.pushAll (callUpSaves n)).memory (n.regs.rsp - 8 + 16) = nr := by
  have found := ready.pushed.holds 18 (by rw [frameValues_length]; decide)
  have place : n.regs.rsp - 8 + 16 = bottom - 200 + 8 * UInt64.ofNat 18 := by
    rw [ready.regs, show 8 * UInt64.ofNat 18 = 144 from rfl]
    dsimp only
    grind
  have top : (n.pushAll (callUpSaves n)).regs.rsp = bottom - 200 := ready.pushed.top
  rw [place, ← top]
  exact found

private theorem quads_of_stacked {e : Machine} {v : UInt64}
    (after : Stacked m.memory bottom entryDepth (v :: frameValues m context nr errorCode) e) (j : Nat) (inside : j < 25) :
    quad e.memory (bottom - 200) j = (frameValues m context nr errorCode)[j] := by
  have found := after.holds (j + 1) (Nat.succ_lt_succ inside)
  have top : e.regs.rsp = bottom - 200 - 8 := by
    rw [after.top, List.length_cons, ← slot_below]
    rfl
  rw [Machine.slot, top, slot_succ, List.getElem_cons_succ] at found
  exact found

theorem Ready.call (ready : Ready m n bottom context nr errorCode swap) (callees : Callees) (table : UInt32)
    (apart : Untouched bottom (signExtend table + 8 * nr)) :
    HandlerEntry m ((atCall table n).push callees.back) bottom context nr errorCode swap ∧
      (atCall table n).regs.rax = m.memory (signExtend table + 8 * nr) ∧
      (atCall table n).regs.rsp = bottom - 200 := by
  have top : (n.pushAll (callUpSaves n)).regs.rsp = bottom - 200 := ready.pushed.top
  have same : Stacked m.memory bottom entryDepth (frameValues m context nr errorCode) (atCall table n) :=
    ready.pushed.congr rfl rfl
  have after := same.push (v := callees.back) (by rw [frameValues_length]; decide) (by decide)
  have handler : (atCall table n).regs.rax = (n.pushAll (callUpSaves n)).memory (signExtend table + 8 *
      (n.pushAll (callUpSaves n)).memory (n.regs.rsp - 8 + 16)) := rfl
  refine ⟨?_, ?_, top⟩
  · constructor
    case argument => exact top
    case frame => exact frameAt_saved (quads_of_stacked after)
    case selector => exact quads_of_stacked after 21 (by decide)
    case cs =>
      rw [Machine.push, atCall_eq]
      exact ready.cs
    case ds => rw [Machine.push, atCall_eq]
    case masked =>
      rw [Machine.push, atCall_eq]
      exact (setFlag_masked ready.masked _).1
    case gs =>
      rw [Machine.push, atCall_eq]
      exact ready.gs
    case outside => exact after.outside
  · rw [handler, ready.number]
    exact ready.pushed.outside _ apart

end Call

/-- The machine that goes on behind `iretq`, from the one the handler returns. -/
def resume (r : Machine) (address : UInt64) (swap : Bool) : Machine :=
  let f := frameAt r.memory address
  { regs := ⟨f.rax, f.rbx, f.rcx, f.rdx, f.rsi, f.rdi, f.rbp, f.rsp,
      f.r8, f.r9, f.r10, f.r11, f.r12, f.r13, f.r14, f.r15⟩
    rip := f.rip
    rflags := f.rflags
    cs := f.cs
    ss := f.ss
    ds := f.ds
    cr2 := r.cr2
    gsBase := (gsBases r swap).1
    kernelGsBase := (gsBases r swap).2
    memory := r.memory }

private theorem slow_leaves (callees : Callees) (rest : List Instr) (r : Machine) :
    runCode callees (.swapgs :: .iretq :: rest) 0 (leaveCallUp r) = (.returned, resume r r.regs.rsp true) ∧
      runCode callees (.iretq :: rest) 0 (leaveCallUp r) = (.returned, resume r r.regs.rsp false) := by
  simp only [runCode, Instr.exec, Machine.swapgs, Machine.iretq, Machine.slot, leaveCallUp, resume, frameAt, quad, gsBases,
    UInt64.add_assoc, UInt64.reduceAdd, UInt64.reduceMul, UInt64.reduceOfNat, if_true, Bool.false_eq_true, if_false,
      and_self]

private theorem fast_leaves (r : Machine) :
    runCode callees [.cmpl 0x08 8 .rsp, .je 1, .swapgs, .iretq] 0 (leaveCallUp r) =
      (.returned, resume r r.regs.rsp ((quad r.memory r.regs.rsp 21).toUInt32 != 0x08)) := by
  have kernel : (leaveCallUp r).memory ((leaveCallUp r).regs.rsp + 8) = quad r.memory r.regs.rsp 21 := by
    simp only [leaveCallUp, quad, UInt64.add_assoc, UInt64.reduceAdd, UInt64.reduceMul, UInt64.reduceOfNat]
  have compared : Instr.exec callees (leaveCallUp r) (.cmpl 0x08 8 .rsp) =
      some ((leaveCallUp r).setFlag zf ((quad r.memory r.regs.rsp 21).toUInt32 == 0x08)) := by
    rw [← kernel]
    rfl
  rw [runCode_exec compared, runCode_je, flag_setFlag (by decide), bne]
  cases (quad r.memory r.regs.rsp 21).toUInt32 == 0x08 with
  | true => exact (slow_leaves callees [] r).2
  | false => exact (slow_leaves callees [] r).1

/-- The machine at the label that a stub jumps to, with RAX still on the stack. -/
structure AtPath (m n : Machine) (bottom context nr errorCode : UInt64) : Prop where
  regs : ∃ rax, n.regs = { m.regs with rax := rax, rsp := bottom - 72 }
  stack : Stacked m.memory bottom entryDepth (m.regs.rax :: context :: nr :: errorCode :: hardwareFrame m) n
  cs : n.cs = 0x08
  ds : n.ds = m.ds
  cr2 : n.cr2 = m.cr2
  masked : n.rflags &&& interruptFlag = 0
  gs : (n.gsBase, n.kernelGsBase) = gsBases m false

/-- The fast path exchanges the GS bases unless the interrupted code is the kernel's. -/
def swapsFast (m : Machine) : Bool := m.cs != 0x08

/-- The slow path exchanges them unless the base in use lies in the upper half. -/
def swapsSlow (m : Machine) : Bool := m.gsBase >>> 32 >>> 31 &&& 1 == 0

theorem selector_compared (cs : UInt16) : (cs.toUInt64.toUInt32 == 0x08) = (cs == 0x08) := by
  rw [UInt16.toUInt32_toUInt64, Bool.eq_iff_iff, beq_iff_eq, beq_iff_eq]
  exact UInt16.toUInt32_inj (b := 0x08)

section Paths
variable {m n : Machine} {bottom context nr errorCode : UInt64} {swap : Bool}

/-- The handler runs on the whole interrupted machine, and what it returns is taken up. -/
def Serves (callees : Callees) (table : UInt32) (m n : Machine) (bottom context nr errorCode : UInt64) (swap : Bool)
    (swapBack : Machine → Bool) (path : List Instr) : Prop :=
  ∃ e, HandlerEntry m e bottom context nr errorCode swap ∧
    let r := callees.run (m.memory (signExtend table + 8 * nr)) e
    runCode callees path 0 n = (.returned, resume r (bottom - 200) (swapBack r))

theorem Ready.serves (ready : Ready m n bottom context nr errorCode swap)
    (returns : callees.Returns (m.memory (signExtend table + 8 * nr)))
    (apart : Untouched bottom (signExtend table + 8 * nr)) {swapBack : Machine → Bool} {rest : List Instr}
    (leaves : ∀ r, r.regs.rsp = bottom - 200 →
      runCode callees rest 0 (leaveCallUp r) = (.returned, resume r r.regs.rsp (swapBack r))) :
    Serves callees table m n bottom context nr errorCode swap swapBack (interruptCallUp table ++ rest) := by
  obtain ⟨entry, handler, top⟩ := ready.call callees table apart
  refine ⟨_, entry, ?_⟩
  have stack : (callees.run (atCall table n).regs.rax ((atCall table n).push callees.back)).regs.rsp = bottom - 200 := by
    rw [handler, returns.stack, Machine.push, top, UInt64.sub_add_cancel]
  rw [callUp_enter, callUp_leave, leaves _ stack, stack, handler]

theorem Serves.of_run {n' : Machine} {swapBack : Machine → Bool} {path path' : List Instr}
    (serves : Serves callees table m n' bottom context nr errorCode swap swapBack path')
    (same : runCode callees path 0 n = runCode callees path' 0 n') :
    Serves callees table m n bottom context nr errorCode swap swapBack path := by
  obtain ⟨e, entry, ran⟩ := serves
  exact ⟨e, entry, same.trans ran⟩

theorem AtPath.pop (at' : AtPath m n bottom context nr errorCode) (callees : Callees) :
    ∃ n', Instr.exec callees n (.pop .rax) = some n' ∧ Ready m n' bottom context nr errorCode false := by
  obtain ⟨rax, regs⟩ := at'.regs
  obtain ⟨first, stack⟩ := at'.stack.pop
  have top : n.regs.rsp + 8 = bottom - 64 := by
    rw [regs]
    dsimp only
    grind
  refine ⟨_, rfl, ?_⟩
  constructor
  case regs =>
    simp only [Machine.setReg, Regs.set, first, regs, Regs.mk.injEq, true_and, and_true]
    rw [← top, regs]
  case stack => exact stack.congr rfl rfl
  case cs => exact at'.cs
  case ds => exact at'.ds
  case cr2 => exact at'.cr2
  case masked => exact at'.masked
  case gs => exact at'.gs

theorem Ready.setFlag (ready : Ready m n bottom context nr errorCode swap) (value : Bool) :
    Ready m (n.setFlag zf value) bottom context nr errorCode swap ∧
      Ready m (n.setFlag cf value) bottom context nr errorCode swap := by
  obtain ⟨zero, carry⟩ := setFlag_masked ready.masked value
  exact ⟨⟨ready.regs, ready.stack.congr rfl rfl, ready.cs, ready.ds, ready.cr2, zero, ready.gs⟩,
    ⟨ready.regs, ready.stack.congr rfl rfl, ready.cs, ready.ds, ready.cr2, carry, ready.gs⟩⟩

theorem Ready.swapgs (ready : Ready m n bottom context nr errorCode false) :
    Ready m n.swapgs bottom context nr errorCode true := by
  refine ⟨ready.regs, ready.stack.congr rfl rfl, ready.cs, ready.ds, ready.cr2, ready.masked, ?_⟩
  have gs := Prod.mk.inj ready.gs
  exact Prod.mk.injEq .. ▸ ⟨gs.2, gs.1⟩

theorem fast_serves (at' : AtPath m n bottom context nr errorCode)
    (returns : callees.Returns (m.memory (signExtend table + 8 * nr)))
    (apart : Untouched bottom (signExtend table + 8 * nr)) :
    Serves callees table m n bottom context nr errorCode (swapsFast m)
      (fun r => (quad r.memory (bottom - 200) 21).toUInt32 != 0x08) (interruptSwapgsFast table) := by
  have leaves (r : Machine) (top : r.regs.rsp = bottom - 200) :
      runCode callees [.cmpl 0x08 8 .rsp, .je 1, .swapgs, .iretq] 0 (leaveCallUp r) =
        (.returned, resume r r.regs.rsp ((quad r.memory (bottom - 200) 21).toUInt32 != 0x08)) := by
    rw [fast_leaves, top]
  obtain ⟨n1, popped, ready⟩ := at'.pop callees
  have kernel : n1.memory (n1.regs.rsp + 32) = m.cs.toUInt64 := ready.stack.holds 4 (Nat.le_of_ble_eq_true rfl)
  have compared : Instr.exec callees n1 (.cmpl 0x08 32 .rsp) = some (n1.setFlag zf (m.cs == 0x08)) := by
    rw [← selector_compared, ← kernel]
    rfl
  have tested := (ready.setFlag (m.cs == 0x08)).1
  have reaches : runCode callees (interruptSwapgsFast table) 0 n = runCode callees
      (if m.cs == 0x08 then interruptCallUp table ++ [.cmpl 0x08 8 .rsp, .je 1, .swapgs, .iretq]
        else .swapgs :: (interruptCallUp table ++ [.cmpl 0x08 8 .rsp, .je 1, .swapgs, .iretq])) 0
      (n1.setFlag zf (m.cs == 0x08)) := by
    rw [interruptSwapgsFast, List.append_assoc]
    simp only [List.cons_append, List.nil_append]
    rw [runCode_exec popped, runCode_exec compared, runCode_je, flag_setFlag (by decide)]
    rfl
  cases test : m.cs == 0x08 with
  | true =>
    have swap : swapsFast m = false := by rw [swapsFast, bne, test, Bool.not_true]
    rw [swap]
    apply (tested.serves returns apart leaves).of_run
    rw [reaches, test, if_pos rfl]
  | false =>
    have swap : swapsFast m = true := by rw [swapsFast, bne, test, Bool.not_false]
    rw [swap]
    apply (tested.swapgs.serves returns apart leaves).of_run
    rw [reaches, test, if_neg Bool.false_ne_true]
    exact runCode_exec rfl

/-- The test of the slow path leaves the machine as it was but for CF. -/
theorem Ready.rdmsr (ready : Ready m n bottom context nr errorCode false) (callees : Callees) (rest : List Instr) :
    ∃ n', Ready m n' bottom context nr errorCode false ∧ n'.flag cf = !swapsSlow m ∧
      runCode callees ([.push .rcx, .push .rax, .push .rdx, .movImm 0xc0000101 .rcx, .rdmsr, .bt 31 .rdx,
        .pop .rdx, .pop .rax, .pop .rcx] ++ rest) 0 n = runCode callees rest 0 n' := by
  have gs : n.gsBase = m.gsBase := (Prod.mk.inj ready.gs).1
  have pushed := ready.stack.pushAll [n.regs.rcx, n.regs.rax, n.regs.rdx] (Nat.le_of_ble_eq_true rfl) (by decide)
  let read : Machine := ((n.pushAll [n.regs.rcx, n.regs.rax, n.regs.rdx]).setReg .rcx 0xc0000101 |>.setReg .rax
    (n.gsBase &&& 0xffffffff) |>.setReg .rdx (n.gsBase >>> 32)).setFlag cf (n.gsBase >>> 32 >>> 31 &&& 1 != 0)
  have stack : Stacked m.memory bottom entryDepth _ read := pushed.congr rfl rfl
  obtain ⟨n1, first, stack1, eq1⟩ := stack.pop_exec callees .rdx (by decide)
  obtain ⟨n2, second, stack2, eq2⟩ := stack1.pop_exec callees .rax (by decide)
  obtain ⟨n3, third, stack3, eq3⟩ := stack2.pop_exec callees .rcx (by decide)
  have whole : n3 = { n with
      rflags := read.rflags
      regs := n3.regs
      memory := n3.memory } := by
    rw [eq3, eq2, eq1]
    rfl
  have regs : n3.regs = n.regs := by
    have top : n.regs.rsp - 8 - 8 - 8 + 8 + 8 + 8 = n.regs.rsp := by grind
    rw [eq3, eq2, eq1]
    simp only [read, Machine.setReg, Regs.set, Machine.setFlag, Machine.pushAll, List.foldl_cons, List.foldl_nil,
      Machine.push, top]
  refine ⟨n3, ?_, ?_, ?_⟩
  · constructor
    case regs => rw [regs, ready.regs]
    case stack => exact stack3
    case cs =>
      rw [whole]
      exact ready.cs
    case ds =>
      rw [whole]
      exact ready.ds
    case cr2 =>
      rw [whole]
      exact ready.cr2
    case masked =>
      rw [whole]
      exact (setFlag_masked ready.masked _).2
    case gs =>
      rw [whole]
      exact ready.gs
  · have flags : n3.rflags = read.rflags := by rw [whole]
    rw [Machine.flag, flags, ← Machine.flag, flag_setFlag (by decide), gs]
    rfl
  · simp only [List.cons_append, List.nil_append]
    rw [runCode_exec rfl, runCode_exec rfl, runCode_exec rfl, runCode_exec rfl]
    have selected : Instr.exec callees ((n.pushAll [n.regs.rcx, n.regs.rax, n.regs.rdx]).setReg .rcx 0xc0000101) .rdmsr =
        some ((n.pushAll [n.regs.rcx, n.regs.rax, n.regs.rdx]).setReg .rcx 0xc0000101 |>.setReg .rax
          (n.gsBase &&& 0xffffffff) |>.setReg .rdx (n.gsBase >>> 32)) := by
      rfl
    exact (runCode_exec selected).trans ((runCode_exec rfl).trans ((runCode_exec first).trans
      ((runCode_exec second).trans (runCode_exec third))))

theorem slow_serves (at' : AtPath m n bottom context nr errorCode)
    (returns : callees.Returns (m.memory (signExtend table + 8 * nr)))
    (apart : Untouched bottom (signExtend table + 8 * nr)) :
    Serves callees table m n bottom context nr errorCode (swapsSlow m) (fun _ => swapsSlow m)
      (interruptSwapgsSlow table) := by
  obtain ⟨n1, popped, ready⟩ := at'.pop callees
  obtain ⟨n2, ready2, carry, reaches⟩ := ready.rdmsr callees
    (.jc (interruptCallUp table).length.succ.succ.succ ::
      (.swapgs :: (interruptCallUp table ++ .swapgs :: .iretq :: (interruptCallUp table ++ [.iretq]))))
  have same : runCode callees (interruptSwapgsSlow table) 0 n = runCode callees
      (if !swapsSlow m then interruptCallUp table ++ [.iretq]
        else .swapgs :: (interruptCallUp table ++ .swapgs :: .iretq :: (interruptCallUp table ++ [.iretq]))) 0 n2 := by
    rw [← carry]
    refine (runCode_exec popped).trans ?_
    refine Eq.trans ?_ (reaches.trans (runCode_jc _))
    rfl
  cases test : swapsSlow m with
  | true =>
    apply (ready2.swapgs.serves returns apart (fun r _ => (slow_leaves callees _ r).1)).of_run
    rw [same, test]
    exact runCode_exec rfl
  | false =>
    apply (ready2.serves returns apart (fun r _ => (slow_leaves callees [] r).2)).of_run
    rw [same, test]
    rfl

end Paths

end Hotarubi.Idt
