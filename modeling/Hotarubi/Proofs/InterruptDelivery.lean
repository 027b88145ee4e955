import Hotarubi.Proofs.IdtVectors
import Hotarubi.Proofs.InterruptEntry

/-! Interrupts from the gate to the handler and back. Every stub ends at one of the two
common paths with the same frame on the stack. -/

namespace Hotarubi.Idt
open Base Base.Machine

variable {symbols : Symbols} {table : UInt32} {callees : Callees} {m : Machine} {target : UInt64}
  {stack errorCode : Option UInt64}

section Stubs

private theorem atPath_of_pushed {new : List UInt64} {context nr code rax : UInt64}
    (values : new.reverse ++ (errorCode.toList ++ hardwareFrame m) =
      m.regs.rax :: context :: nr :: code :: hardwareFrame m) :
    AtPath m (((m.interrupt target 0x08 stack errorCode).pushAll new).setReg .rax rax) (m.interruptBottom stack)
      context nr code := by
  have entered := m.interrupt_stacked target 0x08 stack errorCode entryDepth (by decide) (by decide)
  have fits : (errorCode.toList ++ hardwareFrame m).length + new.length ≤ entryDepth := by
    have lengths := congrArg List.length values
    rw [List.length_append, List.length_reverse] at lengths
    rw [Nat.add_comm, lengths]
    exact Nat.le_of_ble_eq_true rfl
  have pushed := entered.pushAll new fits (by decide)
  rw [show [m.rip, m.cs.toUInt64, m.rflags, m.regs.rsp, m.ss.toUInt64] = hardwareFrame m from rfl, values] at pushed
  have whole := pushAll_eq (m.interrupt target 0x08 stack errorCode) new
  have rest := m.interrupt_eq target 0x08 stack errorCode
  generalize (m.interrupt target 0x08 stack errorCode) = entered' at pushed whole rest
  have top : (entered'.pushAll new).regs.rsp = m.interruptBottom stack - 72 := pushed.top
  constructor
  case regs =>
    refine ⟨rax, ?_⟩
    rw [whole, top, rest]
    rfl
  case stack => exact pushed.congr rfl rfl
  case cs =>
    rw [whole, rest]
    rfl
  case ds =>
    rw [whole, rest]
    rfl
  case cr2 =>
    rw [whole, rest]
    rfl
  case masked =>
    rw [whole, rest]
    exact gate_masked m.rflags
  case gs =>
    rw [whole, rest]
    rfl

theorem AtPath.store {n : Machine} {bottom context nr code : UInt64} (at' : AtPath m n bottom 0 nr code) (rax : UInt64) :
    AtPath m ({ n with memory := Function.update n.memory (n.regs.rsp + 8) context }.setReg .rax rax) bottom context nr
      code := by
  obtain ⟨old, regs⟩ := at'.regs
  constructor
  case regs =>
    refine ⟨rax, ?_⟩
    rw [Machine.setReg, regs]
    rfl
  case stack =>
    have stored := at'.stack.store (v := context) (j := 1) (Nat.le_of_ble_eq_true rfl) (Nat.le_of_ble_eq_true rfl)
      (by decide)
    exact stored.congr rfl rfl
  case cs => exact at'.cs
  case ds => exact at'.ds
  case cr2 => exact at'.cr2
  case masked => exact at'.masked
  case gs => exact at'.gs

/-- The label a stub jumps to. -/
def stubPath (symbols : Symbols) (readMsr : Bool) : UInt64 :=
  signExtend (if readMsr = false then symbols.swapgsFast else symbols.swapgsSlow)

private theorem interruptStub_run (n : Machine) (nr : UInt32) (hasEc readMsr : Bool) :
    runCode callees (interruptStub symbols nr hasEc readMsr) 0 n = (.jumped (stubPath symbols readMsr),
      (n.pushAll ((if hasEc = false then [0] else []) ++ [signExtend nr, 0, n.regs.rax])).setReg .rax
        (stubPath symbols readMsr)) := by
  cases hasEc with
  | false => rfl
  | true => rfl

private theorem interruptStubBase_run (n : Machine) (stub : Stub) :
    runCode callees (interruptStubBase stub) 0 n = (.jumped (signExtend stub.handler),
      let saved := (n.pushAll [0, signExtend stub.nr, 0, n.regs.rax]).setReg .rax stub.context
      { saved with memory := Function.update saved.memory (saved.regs.rsp + 8) stub.context }.setReg .rax
        (signExtend stub.handler)) :=
  rfl

private theorem interrupt_rax (m : Machine) (target : UInt64) (stack errorCode : Option UInt64) :
    (m.interrupt target 0x08 stack errorCode).regs.rax = m.regs.rax := by
  rw [interrupt_eq]

/-- The static stubs, of vectors with an error code from the processor and without. -/
theorem interruptStub_jumps (symbols : Symbols) (callees : Callees) (m : Machine) (target : UInt64)
    (stack errorCode : Option UInt64) (nr : UInt32) (readMsr : Bool) :
    ∃ n, runCode callees (interruptStub symbols nr errorCode.isSome readMsr) 0 (m.interrupt target 0x08 stack errorCode) =
        (.jumped (stubPath symbols readMsr), n) ∧
      AtPath m n (m.interruptBottom stack) 0 (signExtend nr) (errorCode.getD 0) := by
  refine ⟨_, interruptStub_run .., ?_⟩
  rw [interrupt_rax]
  apply atPath_of_pushed
  cases errorCode with
  | none => rfl
  | some code => rfl

theorem interruptStubBase_jumps (callees : Callees) (m : Machine) (target : UInt64) (stack : Option UInt64) (stub : Stub) :
    ∃ n, runCode callees (interruptStubBase stub) 0 (m.interrupt target 0x08 stack none) =
        (.jumped (signExtend stub.handler), n) ∧
      AtPath m n (m.interruptBottom stack) stub.context (signExtend stub.nr) 0 := by
  refine ⟨_, interruptStubBase_run .., ?_⟩
  rw [interrupt_rax]
  apply AtPath.store
  exact atPath_of_pushed rfl

end Stubs

/-- Every piece of code has an address of its own. -/
structure Laid (symbols : Symbols) : Prop where
  system : ∀ k < systemStubs.length, ∀ k' < systemStubs.length,
    systemStubAddr symbols k = systemStubAddr symbols k' → k = k'
  dynamic : ∀ i < idtDescriptors - idtReserved, ∀ i' < idtDescriptors - idtReserved,
    stubAddr symbols i = stubAddr symbols i' → i = i'
  apart : ∀ k < systemStubs.length, ∀ i < idtDescriptors - idtReserved, systemStubAddr symbols k ≠ stubAddr symbols i
  paths : signExtend symbols.swapgsFast ≠ signExtend symbols.swapgsSlow

/-- The table in memory is the one that the registrations write, and no interrupt taken on
the stack at `bottom` overwrites it. -/
structure Linked (table : UInt32) (s : State) (m : Machine) (bottom : UInt64) : Prop where
  holds : ∀ i < idtDescriptors, m.memory (signExtend table + 8 * UInt64.ofNat i) = s.interruptPointerTable i
  apart : ∀ i < idtDescriptors, Untouched bottom (signExtend table + 8 * UInt64.ofNat i)

/-- An interrupt that calls the handler `fn` once, on the whole interrupted machine, and
goes on with what the handler leaves in the structure; a handler that leaves it alone
changes nothing of the interrupted machine but CR2 and memory. -/
def Delivered (symbols : Symbols) (table : UInt32) (callees : Callees) (tss : Stacks) (s : State) (m : Machine)
    (vector : Nat) (errorCode : Option UInt64) (fn context : UInt64) (fast : Bool) : Prop :=
  let bottom := m.interruptBottom (tss.choose m.cs (s.idt vector).ist)
  let swap := if fast then swapsFast m else swapsSlow m
  ∃ e, HandlerEntry m e bottom context (UInt64.ofNat vector) (errorCode.getD 0) swap ∧
    let r := callees.run fn e
    let swapBack := if fast then (quad r.memory (bottom - 200) 21).toUInt32 != 0x08 else swap
    deliver symbols table callees tss s m vector errorCode = some (resume r (bottom - 200) swapBack) ∧
      ((∀ j < 25, quad r.memory (bottom - 200) j = quad e.memory (bottom - 200) j) →
        resume r (bottom - 200) swapBack = { m with cr2 := r.cr2, memory := r.memory })

private theorem frameAt_congr {memory memory' : UInt64 → UInt64} {address : UInt64}
    (same : ∀ j < 25, quad memory' address j = quad memory address j) :
    frameAt memory' address = frameAt memory address := by
  simp (disch := decide) only [frameAt, same]

section Restore
variable {e r : Machine} {bottom context nr code : UInt64} {swap : Bool}

private theorem gsBases_twice (back : (r.gsBase, r.kernelGsBase) = gsBases m swap) :
    gsBases r swap = (m.gsBase, m.kernelGsBase) := by
  cases swap with
  | true =>
    obtain ⟨user, kernel⟩ := Prod.mk.inj back
    exact Prod.mk.injEq .. ▸ ⟨kernel, user⟩
  | false => exact back

private theorem resume_saved (frame : frameAt r.memory (bottom - 200) = saved m context nr code)
    (back : (r.gsBase, r.kernelGsBase) = gsBases m swap) :
    resume r (bottom - 200) swap = { m with cr2 := r.cr2, memory := r.memory } := by
  rw [resume, frame, gsBases_twice back]
  rfl

/-- A handler that leaves the structure alone is followed by the interrupted machine. -/
theorem HandlerEntry.restored (entry : HandlerEntry m e bottom context nr code swap) {fn : UInt64}
    (returns : callees.Returns fn)
    (kept : ∀ j < 25, quad (callees.run fn e).memory (bottom - 200) j = quad e.memory (bottom - 200) j) :
    resume (callees.run fn e) (bottom - 200) swap =
      { m with cr2 := (callees.run fn e).cr2, memory := (callees.run fn e).memory } := by
  apply resume_saved
  · rw [frameAt_congr kept]
    exact entry.frame
  · rw [returns.gsBase, returns.kernelGsBase]
    exact entry.gs

end Restore

section Gates
variable {s : State} {tss : Stacks} {vector : Nat} {fn context : UInt64} {fast : Bool} {code : List Instr}

private theorem stubPath_code (laid : Laid symbols) : pathAt symbols table (stubPath symbols (!fast)) =
    some (if fast then interruptSwapgsFast table else interruptSwapgsSlow table) := by
  cases fast with
  | true => exact if_pos rfl
  | false => exact (if_neg (Ne.symm laid.paths)).trans (if_pos rfl)

/-- From the label a stub jumps to until the interrupted code goes on. -/
theorem AtPath.serves {n : Machine} {bottom nr code : UInt64} (at' : AtPath m n bottom context nr code)
    (handler : m.memory (signExtend table + 8 * nr) = fn) (returns : callees.Returns fn)
    (apart : Untouched bottom (signExtend table + 8 * nr)) (fast : Bool) :
    let swap := if fast then swapsFast m else swapsSlow m
    ∃ e, HandlerEntry m e bottom context nr code swap ∧
      let r := callees.run fn e
      let swapBack := if fast then (quad r.memory (bottom - 200) 21).toUInt32 != 0x08 else swap
      runCode callees (if fast then interruptSwapgsFast table else interruptSwapgsSlow table) 0 n =
          (.returned, resume r (bottom - 200) swapBack) ∧
        ((∀ j < 25, quad r.memory (bottom - 200) j = quad e.memory (bottom - 200) j) → swapBack = swap) := by
  subst handler
  cases fast with
  | true =>
    obtain ⟨e, entry, ran⟩ := fast_serves at' returns apart
    refine ⟨e, entry, ran, ?_⟩
    intro kept
    rw [if_pos rfl, if_pos rfl, kept 21 (by decide), entry.selector, bne, selector_compared]
    rfl
  | false =>
    obtain ⟨e, entry, ran⟩ := slow_serves at' returns apart
    exact ⟨e, entry, ran, fun _ => rfl⟩

private theorem find_only {n k : Nat} {p : Nat → Bool} (inside : k < n) (hit : p k) (only : ∀ j < n, p j → j = k) :
    (List.range n).find? p = some k := by
  rw [List.find?_range_eq_some]
  refine ⟨hit, List.mem_range.mpr inside, ?_⟩
  intro j before
  rw [Bool.not_eq_true']
  by_contra other
  exact Nat.ne_of_lt before (only j (Nat.lt_trans before inside) (Bool.not_eq_false _ ▸ other))

theorem stubAt_system (laid : Laid symbols) (s : State) {k : Nat} (inside : k < systemStubs.length) :
    stubAt symbols s (systemStubAddr symbols k) =
      some (interruptStub symbols systemStubs[k].1 systemStubs[k].2.1 systemStubs[k].2.2) := by
  have found : (List.range systemStubs.length).find? (fun j => systemStubAddr symbols j =
    systemStubAddr symbols k) = some k := by
    apply find_only inside (decide_eq_true rfl)
    intro j bound same
    exact laid.system j bound k inside (of_decide_eq_true same)
  simp only [stubAt, found, List.getElem?_eq_getElem inside, Option.map_some]

theorem stubAt_dynamic (laid : Laid symbols) (s : State) {i : Nat} (inside : i < idtDescriptors - idtReserved) :
    stubAt symbols s (stubAddr symbols i) = some (interruptStubBase (s.stub i)) := by
  have system : (List.range systemStubs.length).find? (fun j => systemStubAddr symbols j = stubAddr symbols i) = none := by
    rw [List.find?_range_eq_none]
    intro k bound
    rw [Bool.not_eq_true', decide_eq_false_iff_not]
    exact laid.apart k bound i inside
  have found : (List.range (idtDescriptors - idtReserved)).find?
    (fun j => stubAddr symbols j = stubAddr symbols i) = some i := by
    apply find_only inside (decide_eq_true rfl)
    intro j bound same
    exact laid.dynamic j bound i inside (of_decide_eq_true same)
  simp only [stubAt, system, found, Option.map_some]

/-- An interrupt whose gate leads to a stub that saves the number and the context. -/
theorem delivered_of_stub (laid : Laid symbols)
    (linked : Linked table s m (m.interruptBottom (tss.choose m.cs (s.idt vector).ist)))
    (inside : vector < idtDescriptors) (returns : callees.Returns (s.interruptPointerTable vector))
    (present : (s.idt vector).type &&& kPresent ≠ 0) (selector : (s.idt vector).selector = 0x08)
    (stub : stubAt symbols s (s.idt vector).target = some code)
    (jumps : ∃ n, runCode callees code 0
        (m.interrupt (s.idt vector).target 0x08 (tss.choose m.cs (s.idt vector).ist) errorCode) =
          (.jumped (stubPath symbols (!fast)), n) ∧
      AtPath m n (m.interruptBottom (tss.choose m.cs (s.idt vector).ist)) context (UInt64.ofNat vector)
        (errorCode.getD 0)) :
    Delivered symbols table callees tss s m vector errorCode (s.interruptPointerTable vector) context fast := by
  obtain ⟨n, jumped, at'⟩ := jumps
  obtain ⟨e, entry, ran, back⟩ := at'.serves (linked.holds vector inside) returns (linked.apart vector inside) fast
  refine ⟨e, entry, ?_, ?_⟩
  · simp only [deliver, guard, present, ne_eq, not_false_eq_true, if_true, selector, stub, jumped, stubPath_code laid,
      ran, Option.pure_def, Option.bind_eq_bind, Option.bind_some]
  · intro kept
    rw [back kept]
    exact entry.restored returns kept

end Gates

end Hotarubi.Idt
