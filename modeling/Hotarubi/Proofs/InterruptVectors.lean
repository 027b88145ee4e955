import Hotarubi.Proofs.InterruptDelivery

/-! Interrupts in runs of calls that write the tables. A vector is closed until it is
registered, and the handler of a registered vector is called until a release frees
its stub: the one of the vector itself, or the one of the vector 33 below. -/

namespace Hotarubi.Idt
open Base Base.Machine

/-- The calls that write the tables after `init`. -/
inductive TableCall where
  | system (index : Nat) (fn : UInt64)
  | register (r : Registration)
  | release (v : UInt32)
  deriving DecidableEq, Repr

def TableCall.exec (symbols : Symbols) (s : State) : TableCall → State
  | .system index fn => (registerSystemHandler symbols s index fn).2
  | .register r => (request symbols s r).2
  | .release v => releaseIrqHandler symbols s v

def runTable (symbols : Symbols) (s : State) (calls : List TableCall) : State := calls.foldl (TableCall.exec symbols) s

variable {symbols : Symbols} {table : UInt32} {callees : Callees} {tss : Stacks} {s : State} {m : Machine}

section Calls

private theorem registerSystemHandler_eq (s : State) (index : Nat) (fn : UInt64) :
    (registerSystemHandler symbols s index fn).2 =
      { s with interruptPointerTable := (registerSystemHandler symbols s index fn).2.interruptPointerTable } := by
  rw [registerSystemHandler]
  split
  · split
    · rfl
    · rfl
  · rfl

private theorem registerSystemHandler_other (symbols : Symbols) {index v : Nat} (fn : UInt64)
    (other : index ≤ idtReserved → v ≠ index) :
    (registerSystemHandler symbols s index fn).2.interruptPointerTable v = s.interruptPointerTable v := by
  rw [registerSystemHandler]
  split
  next low =>
    split
    · exact Function.update_of_ne (other low) ..
    · rfl
  · rfl

private theorem releaseIrqHandler_other (symbols : Symbols) (s : State) {u : UInt32} {v : Nat}
    (other : idtReserved < u.toNat → v ≠ u.toNat) :
    (releaseIrqHandler symbols s u).interruptPointerTable v = s.interruptPointerTable v ∧
      (releaseIrqHandler symbols s u).idt v = s.idt v ∧ (releaseIrqHandler symbols s u).stub v = s.stub v := by
  rw [releaseIrqHandler]
  split
  · exact ⟨rfl, rfl, rfl⟩
  next visited =>
    have different := other (Nat.lt_of_not_le fun low => visited (Or.inl low))
    exact ⟨Function.update_of_ne different .., Function.update_of_ne different .., Function.update_of_ne different ..⟩

private theorem request_other (r : Registration) {v : Nat}
    (other : ∀ i < 222, (request symbols s r).1 = some (UInt32.ofNat (33 + i)) → v ≠ 33 + i) :
    (request symbols s r).2.interruptPointerTable v = s.interruptPointerTable v ∧
      (request symbols s r).2.idt v = s.idt v := by
  rcases request_cases symbols s r with none' | ⟨i, inside, _, some'⟩
  · rw [none']
    exact ⟨rfl, rfl⟩
  · have different : v ≠ idtReserved + (i + 1) := by
      have := other i inside (congrArg Prod.fst some')
      simp only [idtReserved]
      omega
    rw [some']
    exact ⟨Function.update_of_ne different .., Function.update_of_ne different ..⟩

end Calls

section Example

private theorem laid_image : Laid image := by
  have number (n : Nat) (small : n < 255) : (64 * UInt64.ofNat n).toNat = 64 * n := by
    rw [UInt64.toNat_mul, UInt64.toNat_ofNat', show (64 : UInt64).toNat = 64 from rfl]
    omega
  have place (base : UInt64) (low : base.toNat < 2 ^ 32) (n : Nat) (small : n < 255) :
      (base + 64 * UInt64.ofNat n).toNat = base.toNat + 64 * n := by
    rw [UInt64.toNat_add, number n small]
    omega
  constructor
  case system =>
    intro k bound k' bound' same
    have equal := congrArg UInt64.toNat same
    simp only [systemStubs, List.length_cons, List.length_nil] at bound bound'
    rw [systemStubAddr, systemStubAddr, image, place _ (by decide) k (by omega), place _ (by decide) k' (by omega)] at equal
    omega
  case dynamic =>
    intro i bound i' bound' same
    have equal := congrArg UInt64.toNat same
    simp only [idtDescriptors, idtReserved] at bound bound'
    rw [stubAddr, stubAddr, image, place _ (by decide) i (by omega), place _ (by decide) i' (by omega)] at equal
    omega
  case apart =>
    intro k bound i bound' same
    have equal := congrArg UInt64.toNat same
    simp only [systemStubs, List.length_cons, List.length_nil] at bound
    simp only [idtDescriptors, idtReserved] at bound'
    rw [systemStubAddr, stubAddr, image, place _ (by decide) k (by omega), place _ (by decide) i (by omega),
      show UInt64.toNat 0x100000 = 0x100000 from rfl, show UInt64.toNat 0x200000 = 0x200000 from rfl] at equal
    omega
  case paths => decide

/-- User code with the table at 4 MiB. -/
def userMachine (s : State) : Machine where
  regs := ⟨1, 2, 3, 4, 5, 6, 7, 0x7ff8, 9, 10, 11, 12, 13, 14, 15, 16⟩
  rip := 0x1234
  rflags := 0x202
  cs := 0x1b
  ss := 0x23
  ds := 0x23
  cr2 := 0
  gsBase := 0x7000
  kernelGsBase := 0xffff800000000000
  memory a := s.interruptPointerTable ((a.toNat - 0x400000) / 8)

def kernelStacks : Stacks := ⟨0x900000, fun k => 0xa00000 + 0x1000 * k.toUInt64⟩

private theorem linked_user (s : State) : Linked 0x400000 s (userMachine s) 0x900000 := by
  have place (i : Nat) (inside : i < idtDescriptors) :
      (signExtend 0x400000 + 8 * UInt64.ofNat i).toNat = 0x400000 + 8 * i := by
    simp only [idtDescriptors] at inside
    rw [UInt64.toNat_add, UInt64.toNat_mul, UInt64.toNat_ofNat', show (signExtend 0x400000).toNat = 0x400000 from rfl,
      show (8 : UInt64).toNat = 8 from rfl]
    omega
  constructor
  case holds =>
    intro i inside
    simp only [userMachine]
    rw [place i inside, Nat.add_sub_cancel_left, Nat.mul_div_cancel_left i (by decide)]
  case apart =>
    intro i inside j small same
    have equal := congrArg UInt64.toNat same
    simp only [idtDescriptors] at inside
    simp only [entryDepth] at small
    rw [place i inside, UInt64.toNat_sub, UInt64.toNat_mul, UInt64.toNat_ofNat', show (8 : UInt64).toNat = 8 from rfl,
      show (0x900000 : UInt64).toNat = 0x900000 from rfl] at equal
    omega

/-- Handlers that return at once. -/
def returning : Callees := ⟨fun _ m => { m with regs := { m.regs with rsp := m.regs.rsp + 8 } }, 0x500000⟩

private theorem returning_returns (f : UInt64) : returning.Returns f := ⟨fun _ => rfl, fun _ => rfl, fun _ => rfl⟩

end Example

section Dynamic
variable {v : UInt32} {r : Registration}

/-- A live vector whose stub leads to the path it was registered with. -/
structure Owned (symbols : Symbols) (s : State) (v : UInt32) (r : Registration) : Prop extends Held symbols s v r where
  path : (s.stub (v.toNat - 33)).handler = if r.swapgsFast then symbols.swapgsFast else symbols.swapgsSlow

private theorem request_owned (answered : (request symbols s r).1 = some v) : Owned symbols
    (request symbols s r).2 v r := by
  rcases request_cases symbols s r with none' | ⟨i, inside, _, some'⟩
  · rw [none'] at answered
    cases answered
  · rw [some'] at answered ⊢
    cases answered
    refine ⟨takeStub_held s inside r, ?_⟩
    rw [vector_toNat inside]
    simp only [takeStub, setupIdtDescriptor, Nat.add_sub_cancel, Nat.add_sub_cancel_left, Function.update_self]

/-- The calls that leave a live vector alone. -/
def TableCall.Spares (v : UInt32) : TableCall → Prop
  | .release u => u ≠ v ∧ u.toNat + 33 ≠ v.toNat
  | _ => True

theorem Owned.exec (owned : Owned symbols s v r) {call : TableCall} (spares : call.Spares v) :
    Owned symbols (call.exec symbols s) v r := by
  have above := owned.above
  have below := owned.below
  cases call with
  | system index fn =>
    have other : index ≤ idtReserved → v.toNat ≠ index := by
      intro low
      simp only [idtReserved] at low
      omega
    have handler := registerSystemHandler_other (s := s) symbols fn other
    simp only [TableCall.exec]
    rw [registerSystemHandler_eq]
    exact ⟨⟨above, below, handler.trans owned.handler, owned.gate, owned.nr, owned.context⟩, owned.path⟩
  | register q =>
    have taken : (s.stub (v.toNat - 33)).nr ≠ idtStubNrMagic := by
      rw [owned.nr]
      exact marker_not_vector below
    have stub : (request symbols s q).2.stub _ = _ := request_stub taken q
    have held : Held symbols (request symbols s q).2 v r := by
      rcases request_cases symbols s q with none' | ⟨i, inside, free, some'⟩
      · rw [none']
        exact owned.toHeld
      · rw [some']
        exact (takeStub_other inside free q owned.toHeld).2
    exact ⟨held, (congrArg Stub.handler stub).trans owned.path⟩
  | release u =>
    obtain ⟨vector, neighbour⟩ := spares
    have different : v.toNat ≠ u.toNat := fun same => vector (UInt32.toNat_inj.mp same.symm)
    obtain ⟨handler, gate, -⟩ := releaseIrqHandler_other symbols s fun _ : idtReserved < u.toNat => different
    obtain ⟨-, -, stub⟩ := releaseIrqHandler_other symbols s (u := u) (v := v.toNat - 33) (by omega)
    exact ⟨⟨above, below, handler.trans owned.handler, gate.trans owned.gate, (congrArg Stub.nr stub).trans owned.nr,
      (congrArg Stub.context stub).trans owned.context⟩, (congrArg Stub.handler stub).trans owned.path⟩

theorem Owned.run (owned : Owned symbols s v r) {calls : List TableCall} (spare : ∀ call ∈ calls, call.Spares v) :
    Owned symbols (runTable symbols s calls) v r := by
  induction calls generalizing s with
  | nil => exact owned
  | cons call calls ih =>
    obtain ⟨first, rest⟩ := List.forall_mem_cons.mp spare
    exact ih (owned.exec first) rest

private theorem signExtend_vector (below : v.toNat < idtDescriptors) : signExtend v = UInt64.ofNat v.toNat := by
  have all : ∀ n < idtDescriptors, signExtend (UInt32.ofNat n) = UInt64.ofNat n := by decide +kernel
  have mine := all v.toNat below
  rwa [UInt32.ofNat_toNat] at mine

private theorem stubPath_chosen (fast : Bool) :
    signExtend (if fast then symbols.swapgsFast else symbols.swapgsSlow) = stubPath symbols (!fast) := by
  cases fast with
  | true => rfl
  | false => rfl

theorem Owned.delivered (owned : Owned symbols s v r) (laid : Laid symbols)
    (linked : Linked table s m (m.interruptBottom (tss.choose m.cs 0))) (returns : callees.Returns r.fn) :
    Delivered symbols table callees tss s m v.toNat none r.fn r.ucontext r.swapgsFast := by
  have above := owned.above
  have below := owned.below
  have index : v.toNat - 33 < idtDescriptors - idtReserved := by
    simp only [idtDescriptors, idtReserved] at below ⊢
    omega
  have gate := owned.gate
  have leads : (s.idt v.toNat).target = stubAddr symbols (v.toNat - 33) := by rw [gate, descriptor_target]
  have stack : (s.idt v.toNat).ist = 0 := by
    rw [gate]
    rfl
  have jumps := interruptStubBase_jumps callees m (s.idt v.toNat).target (tss.choose m.cs 0)
    (s.stub (v.toNat - 33))
  rw [owned.path, stubPath_chosen, owned.nr, owned.context, signExtend_vector below] at jumps
  rw [← owned.handler] at returns ⊢
  apply delivered_of_stub laid
  · rwa [stack]
  · exact below
  · exact returns
  · exact owned.reaches.present
  · rw [gate]
    rfl
  · rw [leads]
    exact stubAt_dynamic laid s index
  · rw [stack]
    exact jumps

/-- Whatever was called before and whatever is called later, with the exception of the two
releases that free its stub, a registered vector calls its handler with its context. -/
theorem registered_interrupts_delivered (laid : Laid symbols) (s : State) (r : Registration) (v : UInt32)
    (answered : (request symbols s r).1 = some v) (later : List TableCall) (spared : ∀ call ∈ later, call.Spares v)
    (linked : Linked table (runTable symbols (request symbols s r).2 later) m (m.interruptBottom (tss.choose m.cs 0)))
    (returns : callees.Returns r.fn) :
    Delivered symbols table callees tss (runTable symbols (request symbols s r).2 later) m v.toNat none r.fn r.ucontext
      r.swapgsFast :=
  ((request_owned answered).run spared).delivered laid linked returns

theorem registered_interrupts_delivered_witness :
    let r : Registration := ⟨0x1000, 7, true⟩
    let s := runTable image (request image loaded r).2 [.system 14 0x5000, .register ⟨0x2000, 9, false⟩, .release 34]
    Delivered image 0x400000 returning kernelStacks s (userMachine s) 33 none 0x1000 7 true :=
  registered_interrupts_delivered laid_image loaded ⟨0x1000, 7, true⟩ 33 (by decide +kernel)
    [.system 14 0x5000, .register ⟨0x2000, 9, false⟩, .release 34]
    (by
      intro call listed
      simp only [List.mem_cons, List.not_mem_nil, or_false] at listed
      obtain rfl | rfl | rfl := listed
      · trivial
      · trivial
      · exact ⟨by decide, by decide⟩)
    (linked_user _) (returning_returns _)

end Dynamic

section System

/-- The vectors that have a stub of their own. -/
def systemVector (v : Nat) : Bool := v ≤ idtReserved && (vectorKind v).isSome

/-- How many stubs lie in front of the one for a vector. -/
def stubsBefore (v : Nat) : Nat := ((List.range v).filter systemVector).length

private theorem stubsBefore_succ (v : Nat) : stubsBefore (v + 1) = stubsBefore v + if systemVector v then 1 else 0 := by
  rw [stubsBefore, List.range_succ, List.filter_append, List.length_append, ← stubsBefore, List.filter_singleton]
  cases systemVector v with
  | true => rfl
  | false => rfl

/-- What the loop in `init` has done when it comes to vector `n`. -/
structure Filled (symbols : Symbols) (s : State) (n : Nat) (now : State × UInt64) : Prop where
  next : now.2 = systemStubAddr symbols (stubsBefore n)
  gate : ∀ v < n, ∀ kind ∈ vectorKind v, now.1.idt v = .to (systemStubAddr symbols (stubsBefore v)) 0x08 kind.2 kind.1
  unused : ∀ v, n ≤ v ∨ vectorKind v = none → now.1.idt v = s.idt v
  handler : ∀ v < n, v ≤ idtReserved →
    s.interruptPointerTable v = 0 ∨ s.interruptPointerTable v = symbols.defaultIrqStub →
    now.1.interruptPointerTable v = symbols.defaultIrqStub
  later : ∀ v, n ≤ v → now.1.interruptPointerTable v = s.interruptPointerTable v

private theorem systemStubAddr_succ (k : Nat) :
    systemStubAddr symbols (k + 1) = systemStubAddr symbols k + symbols.systemStubSize := by
  rw [systemStubAddr, systemStubAddr, UInt64.ofNat_add]
  grind

/-- The first part of a pass: the default handler for a reserved vector. -/
def initHandler (symbols : Symbols) (s : State) (n : Nat) : State :=
  if n ≤ idtReserved then (registerSystemHandler symbols s n symbols.defaultIrqStub).2 else s

private theorem initHandler_idt (s : State) (n : Nat) : (initHandler symbols s n).idt = s.idt := by
  rw [initHandler]
  split
  · rw [registerSystemHandler_eq]
  · rfl

private theorem initHandler_other {n v : Nat} (other : v ≠ n) :
    (initHandler symbols s n).interruptPointerTable v = s.interruptPointerTable v := by
  rw [initHandler]
  split
  · exact registerSystemHandler_other symbols _ fun _ => other
  · rfl

private theorem initHandler_default {n : Nat} (low : n ≤ idtReserved)
    (free : s.interruptPointerTable n = 0 ∨ s.interruptPointerTable n = symbols.defaultIrqStub) :
    (initHandler symbols s n).interruptPointerTable n = symbols.defaultIrqStub := by
  rw [initHandler, if_pos low, registerSystemHandler, if_pos low, if_pos free]
  exact Function.update_self ..

private theorem initVector_table (symbols : Symbols) (now : State × UInt64) (n : Nat) :
    (initVector symbols now n).1.interruptPointerTable = (initHandler symbols now.1 n).interruptPointerTable := by
  rw [initVector]
  cases vectorKind n with
  | none => rfl
  | some kind => rfl

private theorem initVector_idt (symbols : Symbols) (now : State × UInt64) (n v : Nat) :
    (initVector symbols now n).1.idt v =
      if v = n then ((vectorKind n).map fun kind => .to now.2 0x08 kind.2 kind.1).getD (now.1.idt n)
      else now.1.idt v := by
  have before : (initHandler symbols now.1 n).idt = now.1.idt := initHandler_idt now.1 n
  rw [initVector, ← initHandler]
  cases vectorKind n with
  | none =>
    rw [before]
    split
    next same =>
      subst same
      rfl
    · rfl
  | some kind =>
    simp only [setupIdtDescriptor, before, Function.update_apply, Option.map_some, Option.getD_some]

theorem Filled.vector {n : Nat} {now : State × UInt64} (filled : Filled symbols s n now) :
    Filled symbols s (n + 1) (initVector symbols now n) := by
  constructor
  case next =>
    rw [stubsBefore_succ, initVector, systemVector]
    cases vectorKind n with
    | none =>
      rw [Option.isSome_none, Bool.and_false]
      exact filled.next
    | some kind =>
      dsimp only
      rw [Option.isSome_some, Bool.and_true, filled.next]
      by_cases low : n ≤ idtReserved
      · rw [if_neg (Nat.not_lt_of_le low), decide_eq_true low, if_pos rfl, systemStubAddr_succ]
      · rw [if_pos (Nat.lt_of_not_le low), decide_eq_false low, if_neg Bool.false_ne_true, Nat.add_zero, UInt64.add_zero]
  case gate =>
    intro v bound kind chosen
    rw [initVector_idt]
    split
    next same =>
      subst same
      rw [Option.mem_def.mp chosen, filled.next]
      rfl
    next other => exact filled.gate v (by omega) kind chosen
  case unused =>
    intro v where'
    rw [initVector_idt]
    split
    next same =>
      subst same
      rcases where' with later | skipped
      · omega
      · rw [skipped]
        exact filled.unused v (.inl (Nat.le_refl v))
    next other => exact filled.unused v (where'.imp_left (by omega))
  case handler =>
    intro v bound low free
    rw [initVector_table]
    by_cases same : v = n
    · subst same
      apply initHandler_default low
      rwa [filled.later v (Nat.le_refl v)]
    · rw [initHandler_other same]
      exact filled.handler v (by omega) low free
  case later =>
    intro v bound
    rw [initVector_table, initHandler_other (by omega)]
    exact filled.later v (by omega)

private theorem loop_filled (symbols : Symbols) (start : State) (n : Nat) :
    Filled symbols start n ((List.range n).foldl (initVector symbols) (start, symbols.stub0)) := by
  induction n with
  | zero =>
    refine ⟨?_, nofun, fun _ _ => rfl, nofun, fun _ _ => rfl⟩
    exact (UInt64.add_zero _).symm
  | succ n ih =>
    rw [List.range_succ, List.foldl_append]
    exact ih.vector

private theorem init_filled (symbols : Symbols) (s : State) :
    ∃ last, Filled symbols { s with idt := fun _ => ⟨0, 0, 0, 0, 0, 0⟩ } idtDescriptors (init symbols s, last) := by
  have filled := loop_filled symbols { s with idt := fun _ => ⟨0, 0, 0, 0, 0, 0⟩ } idtDescriptors
  rw [init]
  generalize List.foldl _ _ _ = now at filled ⊢
  exact ⟨now.2, filled⟩

private theorem exec_reserved {v : Nat} (low : v ≤ idtReserved) (call : TableCall) : (call.exec symbols s).idt v =
    s.idt v := by
  cases call with
  | system index fn =>
    rw [TableCall.exec, registerSystemHandler_eq]
  | register r =>
    refine (request_other r fun i _ _ => ?_).2
    simp only [idtReserved] at low
    omega
  | release u => exact (releaseIrqHandler_other symbols s fun high => by omega).2.1

private theorem runTable_reserved (symbols : Symbols) (s : State) {v : Nat} (low : v ≤ idtReserved)
    (calls : List TableCall) :
    (runTable symbols s calls).idt v = s.idt v := by
  induction calls generalizing s with
  | nil => rfl
  | cons call calls ih => exact (ih (call.exec symbols s)).trans (exec_reserved low call)

/-- The vectors for which the processor pushes an error code. -/
def pushesErrorCode (v : Nat) : Bool := [8, 10, 11, 12, 13, 14, 17].contains v

/-- The vectors that may come in between the entry of the kernel and its `swapgs`. -/
def checksMsr (v : Nat) : Bool := [1, 2, 18].contains v

private theorem systemStubs_place {v : Nat} (vector : systemVector v = true) :
    systemStubs[stubsBefore v]? = some (UInt32.ofNat v, pushesErrorCode v, checksMsr v) := by
  have all : ∀ v ≤ idtReserved, systemVector v = true →
      systemStubs[stubsBefore v]? = some (UInt32.ofNat v, pushesErrorCode v, checksMsr v) := by decide
  have low : v ≤ idtReserved := of_decide_eq_true (Bool.and_eq_true_iff.mp vector).1
  exact all v low vector

/-- The handler that a call offers for a reserved vector. -/
def TableCall.handler (symbols : Symbols) (v : Nat) : TableCall → Option UInt64
  | .system index fn => if index = v ∧ fn ≠ symbols.defaultIrqStub then some fn else none
  | _ => none

/-- The first one wins; without one it is the default handler. -/
def firstHandler (symbols : Symbols) (calls : List TableCall) (v : Nat) : UInt64 :=
  (calls.findSome? (TableCall.handler symbols v)).getD symbols.defaultIrqStub

private theorem exec_handler {v : Nat} (low : v ≤ idtReserved) (call : TableCall) :
    (call.exec symbols s).interruptPointerTable v =
      if s.interruptPointerTable v = 0 ∨ s.interruptPointerTable v = symbols.defaultIrqStub then
        match call with
        | .system index fn => if index = v then fn else s.interruptPointerTable v
        | _ => s.interruptPointerTable v
      else s.interruptPointerTable v := by
  cases call with
  | system index fn =>
    by_cases same : index = v
    · subst same
      simp only [TableCall.exec, registerSystemHandler, if_pos low, if_true]
      split
      · exact Function.update_self ..
      · rfl
    · dsimp only
      rw [if_neg same, ite_self]
      exact registerSystemHandler_other symbols fn fun _ => Ne.symm same
  | register r =>
    rw [ite_self]
    refine (request_other r fun i _ _ => ?_).1
    simp only [idtReserved] at low
    omega
  | release u =>
    rw [ite_self]
    exact (releaseIrqHandler_other symbols s fun high => by omega).1

private theorem runTable_handler_kept {v : Nat} (low : v ≤ idtReserved) (calls : List TableCall)
    (taken : ¬ (s.interruptPointerTable v = 0 ∨ s.interruptPointerTable v = symbols.defaultIrqStub)) :
    (runTable symbols s calls).interruptPointerTable v = s.interruptPointerTable v := by
  induction calls generalizing s with
  | nil => rfl
  | cons call calls ih =>
    have first : (call.exec symbols s).interruptPointerTable v = s.interruptPointerTable v := by
      rw [exec_handler low, if_neg taken]
    have rest := ih (s := call.exec symbols s) (by rwa [first])
    exact rest.trans first

private theorem exec_offered {v : Nat} (low : v ≤ idtReserved) (call : TableCall)
    (free : s.interruptPointerTable v = symbols.defaultIrqStub) :
    (call.exec symbols s).interruptPointerTable v = (call.handler symbols v).getD symbols.defaultIrqStub := by
  rw [exec_handler low, if_pos (.inr free), free]
  cases call with
  | system index fn =>
    by_cases same : index = v
    · by_cases default : fn = symbols.defaultIrqStub
      · simp only [TableCall.handler, same, default, ne_eq, not_true_eq_false, and_false, if_true, if_false,
          Option.getD_none]
      · simp only [TableCall.handler, same, default, ne_eq, not_false_eq_true, and_self, if_true, Option.getD_some]
    · simp only [TableCall.handler, same, false_and, if_false, Option.getD_none]
  | register r => rfl
  | release u => rfl

private theorem handler_real {v : Nat} {call : TableCall} {fn : UInt64} (offered : call.handler symbols v = some fn) :
    call = .system v fn ∧ fn ≠ symbols.defaultIrqStub := by
  cases call with
  | system index fn' =>
    rw [TableCall.handler] at offered
    split at offered
    next chosen =>
      cases offered
      exact ⟨by rw [chosen.1], chosen.2⟩
    · cases offered
  | register r => cases offered
  | release u => cases offered

private theorem runTable_handler {v : Nat} (low : v ≤ idtReserved) (calls : List TableCall)
    (real : ∀ index, .system index 0 ∉ calls) (free : s.interruptPointerTable v = symbols.defaultIrqStub) :
    (runTable symbols s calls).interruptPointerTable v = firstHandler symbols calls v := by
  induction calls generalizing s with
  | nil => exact free
  | cons call calls ih =>
    have first := exec_offered low call free
    cases offered : call.handler symbols v with
    | none =>
      rw [offered] at first
      rw [firstHandler, List.findSome?_cons, offered]
      exact ih (fun index later => real index (List.mem_cons_of_mem _ later)) first
    | some fn =>
      obtain ⟨same, other⟩ := handler_real offered
      have some' : fn ≠ 0 := by
        intro null
        exact real v (by rw [same, null]; exact List.mem_cons_self)
      rw [offered] at first
      rw [firstHandler, List.findSome?_cons, offered]
      refine (runTable_handler_kept low calls ?_).trans first
      rw [first]
      exact not_or.mpr ⟨some', other⟩

private theorem vectorKind_present {v : Nat} {kind : UInt8 × UInt8} (low : v ≤ idtReserved)
    (chosen : vectorKind v = some kind) :
    kind.1 &&& kPresent ≠ 0 := by
  have all : ∀ v ≤ idtReserved, (vectorKind v).all (fun kind => kind.1 &&& kPresent != 0) = true := by decide
  have mine := all v low
  rw [chosen, Option.all_some] at mine
  exact bne_iff_ne.mp mine

private theorem signExtend_reserved {v : Nat} (low : v ≤ idtReserved) : signExtend (UInt32.ofNat v) = UInt64.ofNat v := by
  have number : (UInt32.ofNat v).toNat = v := by
    rw [UInt32.toNat_ofNat']
    exact Nat.mod_eq_of_lt (Nat.lt_of_le_of_lt low (by decide))
  have small : (UInt32.ofNat v).toNat < idtDescriptors := by
    rw [number]
    exact Nat.lt_of_le_of_lt low (by decide)
  rw [signExtend_vector small, number]

/-- After `init`, whatever is called, an exception goes through the stub of its vector to
the first handler registered for it. -/
theorem exceptions_delivered (laid : Laid symbols) (s : State) (empty : ∀ v, s.interruptPointerTable v = 0)
    (calls : List TableCall) (real : ∀ index, .system index 0 ∉ calls) {v : Nat} (vector : systemVector v = true)
    {errorCode : Option UInt64} (pushed : errorCode.isSome = pushesErrorCode v)
    (linked : Linked table (runTable symbols (init symbols s) calls) m
      (m.interruptBottom (tss.choose m.cs ((runTable symbols (init symbols s) calls).idt v).ist)))
    (returns : callees.Returns (firstHandler symbols calls v)) :
    Delivered symbols table callees tss (runTable symbols (init symbols s) calls) m v errorCode
      (firstHandler symbols calls v) 0 (!checksMsr v) := by
  obtain ⟨low, used⟩ := Bool.and_eq_true_iff.mp vector
  have low : v ≤ idtReserved := of_decide_eq_true low
  have inside : v < idtDescriptors := Nat.lt_of_le_of_lt low (by decide)
  obtain ⟨kind, chosen⟩ := Option.isSome_iff_exists.mp used
  obtain ⟨last, filled⟩ := init_filled symbols s
  have handler := runTable_handler low calls real (filled.handler v inside low (.inl (empty v)))
  have gate := (runTable_reserved symbols (init symbols s) low calls).trans (filled.gate v inside kind chosen)
  generalize runTable symbols (init symbols s) calls = s' at linked handler gate ⊢
  have place := systemStubs_place vector
  obtain ⟨bound, stub⟩ := List.getElem?_eq_some_iff.mp place
  have leads : (s'.idt v).target = systemStubAddr symbols (stubsBefore v) := by rw [gate, descriptor_target]
  have code := stubAt_system laid s' bound
  rw [stub, ← leads] at code
  dsimp only at code
  have jumps := interruptStub_jumps symbols callees m (s'.idt v).target
    (tss.choose m.cs (s'.idt v).ist) errorCode (UInt32.ofNat v) (checksMsr v)
  rw [pushed, signExtend_reserved low] at jumps
  rw [← handler] at returns ⊢
  apply delivered_of_stub laid linked inside returns
  · rw [gate]
    exact vectorKind_present low chosen
  · rw [gate]
    rfl
  · exact code
  · rw [Bool.not_not]
    exact jumps

theorem exceptions_delivered_witness :
    let s := runTable image (init image loaded) [.system 14 0x1000, .register ⟨0x2000, 9, false⟩]
    Delivered image 0x400000 returning kernelStacks s (userMachine s) 14 (some 7) 0x1000 0 true :=
  exceptions_delivered laid_image loaded (fun _ => rfl) [.system 14 0x1000, .register ⟨0x2000, 9, false⟩]
    (by
      intro index listed
      simp only [List.mem_cons, List.not_mem_nil, or_false, reduceCtorEq, TableCall.system.injEq] at listed
      exact absurd listed.2 (by decide))
    (v := 14) rfl rfl
    (by
      have stack :
          ((runTable image (init image loaded) [.system 14 0x1000, .register ⟨0x2000, 9, false⟩]).idt 14).ist = 0 := by
        decide +kernel
      rw [stack]
      exact linked_user _)
    (returning_returns _)

end System

section Gates
variable {v : Nat} {held : Bool}

/-- Whether a dynamic vector is in use after a call. -/
def TableCall.holds (symbols : Symbols) (s : State) (v : Nat) (held : Bool) : TableCall → Bool
  | .system _ _ => held
  | .register r => held || (request symbols s r).1 == some (UInt32.ofNat v)
  | .release u => held && u.toNat != v

/-- Whether a dynamic vector was handed out and not released after that. -/
def registered (symbols : Symbols) (v : Nat) (s : State) (held : Bool) : List TableCall → Bool
  | [] => held
  | call :: calls => registered symbols v (call.exec symbols s) (call.holds symbols s v held) calls

/-- A gate is open while its vector is in use, and never to the code of a user. -/
structure Guarded (s : State) (v : Nat) (held : Bool) : Prop where
  present : (s.idt v).type &&& kPresent ≠ 0 ↔ held = true
  user : (s.idt v).type &&& kAccessUsr = 0

theorem Guarded.congr {s' : State} (guarded : Guarded s v held) (same : s'.idt v = s.idt v) : Guarded s' v held := by
  constructor
  · rw [same]
    exact guarded.present
  · rw [same]
    exact guarded.user

private theorem takeStub_guarded (symbols : Symbols) (s : State) {i : Nat} (inside : i < 222) (r : Registration) :
    Guarded (takeStub symbols s (i + 1) r.fn r.ucontext r.swapgsFast) (33 + i) true := by
  have held : Held symbols _ _ r := takeStub_held s inside r
  have gate := held.gate
  rw [vector_toNat inside] at gate
  constructor
  · rw [gate]
    exact iff_of_true (by decide : (kTypeIRQ ||| kPresent ||| kAccessSys) &&& kPresent ≠ 0) rfl
  · rw [gate]
    exact (by decide : (kTypeIRQ ||| kPresent ||| kAccessSys) &&& kAccessUsr = 0)

private theorem masked_type (type : UInt8) :
    (type &&& ~~~kPresent) &&& kPresent = 0 ∧ (type &&& ~~~kPresent) &&& kAccessUsr = type &&& kAccessUsr := by
  constructor
  · rw [UInt8.and_assoc, UInt8.not_and_self, UInt8.and_zero]
  · rw [UInt8.and_assoc]
    rfl

theorem Guarded.exec (guarded : Guarded s v held) (above : idtReserved < v) (below : v < idtDescriptors)
    (call : TableCall) :
    Guarded (call.exec symbols s) v (call.holds symbols s v held) := by
  cases call with
  | system index fn =>
    apply guarded.congr
    rw [TableCall.exec, registerSystemHandler_eq]
  | register r =>
    rcases request_cases symbols s r with none' | ⟨i, inside, _, some'⟩
    · have unanswered : ((none : Option UInt32) == some (UInt32.ofNat v)) = false := rfl
      rw [TableCall.exec, TableCall.holds, none', unanswered, Bool.or_false]
      exact guarded
    · rw [TableCall.exec, TableCall.holds, some']
      by_cases same : v = 33 + i
      · subst same
        rw [beq_self_eq_true, Bool.or_true]
        exact takeStub_guarded symbols s inside r
      · have other : UInt32.ofNat (33 + i) ≠ UInt32.ofNat v := by
          intro equal
          have numbers := congrArg UInt32.toNat equal
          simp only [idtDescriptors] at below
          rw [vector_toNat inside, UInt32.toNat_ofNat', Nat.mod_eq_of_lt (by omega)] at numbers
          exact same numbers.symm
        have unanswered : (some (UInt32.ofNat (33 + i)) == some (UInt32.ofNat v)) = false := by
          rw [Option.some_beq_some]
          exact beq_false_of_ne other
        rw [unanswered, Bool.or_false]
        have different : v ≠ idtReserved + (i + 1) := by
          simp only [idtReserved]
          omega
        exact guarded.congr (Function.update_of_ne different ..)
  | release u =>
    rw [TableCall.exec, TableCall.holds]
    by_cases same : u.toNat = v
    · have visited : ¬ (u.toNat ≤ idtReserved ∨ u.toNat > idtDescriptors) := by omega
      obtain ⟨closed, user⟩ := masked_type (s.idt v).type
      have gate : ((releaseIrqHandler symbols s u).idt v).type = (s.idt v).type &&& ~~~kPresent := by
        rw [releaseIrqHandler, if_neg visited, ← same]
        simp only [Function.update_self]
      have unheld : (held && u.toNat != v) = false := by
        rw [same, bne_self_eq_false, Bool.and_false]
      rw [unheld]
      constructor
      · rw [gate, closed]
        exact iff_of_false (fun present => present rfl) Bool.false_ne_true
      · rw [gate, user]
        exact guarded.user
    · have kept : (held && u.toNat != v) = held := by
        rw [bne_iff_ne.mpr same, Bool.and_true]
      rw [kept]
      exact guarded.congr (releaseIrqHandler_other symbols s fun _ => Ne.symm same).2.1

theorem Guarded.run (guarded : Guarded s v held) (above : idtReserved < v) (below : v < idtDescriptors)
    (calls : List TableCall) : Guarded (runTable symbols s calls) v (registered symbols v s held calls) := by
  induction calls generalizing s held with
  | nil => exact guarded
  | cons call calls ih => exact ih (guarded.exec above below call)

private theorem init_guarded (symbols : Symbols) (s : State) (above : idtReserved < v) (below : v < idtDescriptors) :
    Guarded (init symbols s) v false := by
  obtain ⟨last, filled⟩ := init_filled symbols s
  have all : ∀ v < idtDescriptors, idtReserved < v → vectorKind v = some (kTypeIRQ ||| kAccessSys, 0) := by
    decide +kernel
  have gate := filled.gate v below _ (all v below above)
  dsimp only at gate
  constructor
  · rw [gate]
    exact iff_of_false (by decide : ¬ (kTypeIRQ ||| kAccessSys) &&& kPresent ≠ 0) Bool.false_ne_true
  · rw [gate]
    exact (by decide : (kTypeIRQ ||| kAccessSys) &&& kAccessUsr = 0)

private theorem vectorKind_user {kind : UInt8 × UInt8} (low : v ≤ idtReserved) (chosen : vectorKind v = some kind) :
    kind.1 &&& kAccessUsr ≠ 0 ↔ v = 32 := by
  have all : ∀ v ≤ idtReserved,
      (vectorKind v).all (fun kind => decide (kind.1 &&& kAccessUsr ≠ 0 ↔ v = 32)) = true := by decide
  have mine := all v low
  rw [chosen, Option.all_some] at mine
  exact of_decide_eq_true mine

/-- After `init`, whatever is called, the open gates are those of the vectors with a stub of
their own and those that are handed out; the only one open to users is the system call's. -/
theorem open_gates (symbols : Symbols) (s : State) (calls : List TableCall) (inside : v < idtDescriptors) :
    let gate := (runTable symbols (init symbols s) calls).idt v
    (gate.type &&& kPresent ≠ 0 ↔
        systemVector v = true ∨ idtReserved < v ∧ registered symbols v (init symbols s) false calls = true) ∧
      (gate.type &&& kAccessUsr ≠ 0 ↔ v = 32) := by
  by_cases low : v ≤ idtReserved
  · obtain ⟨last, filled⟩ := init_filled symbols s
    have kept := runTable_reserved symbols (init symbols s) low calls
    have reserved : ¬ idtReserved < v := Nat.not_lt_of_le low
    dsimp only
    rw [kept]
    cases kind : vectorKind v with
    | none =>
      have zero : (init symbols s).idt v = ⟨0, 0, 0, 0, 0, 0⟩ := filled.unused v (.inr kind)
      have unused : systemVector v = false := by rw [systemVector, kind, Option.isSome_none, Bool.and_false]
      have other : v ≠ 32 := by
        intro same
        rw [same] at kind
        cases kind
      rw [zero, unused]
      constructor
      · apply iff_of_false (by decide : ¬ (0 : UInt8) &&& kPresent ≠ 0)
        exact not_or.mpr ⟨Bool.false_ne_true, fun held => reserved held.1⟩
      · exact iff_of_false (by decide : ¬ (0 : UInt8) &&& kAccessUsr ≠ 0) other
    | some kind' =>
      have gate := filled.gate v inside kind' kind
      dsimp only at gate
      have used : systemVector v = true := by
        rw [systemVector, kind, Option.isSome_some, Bool.and_true]
        exact decide_eq_true low
      rw [gate]
      exact ⟨iff_of_true (vectorKind_present low kind) (.inl used), vectorKind_user low kind⟩
  · have above : idtReserved < v := Nat.lt_of_not_le low
    have guarded : Guarded (runTable symbols (init symbols s) calls) v _ :=
      (init_guarded symbols s above inside).run above inside calls
    have unused : systemVector v = false := by
      rw [systemVector, decide_eq_false low, Bool.false_and]
    dsimp only
    constructor
    · rw [guarded.present, unused]
      exact ⟨fun held => .inr ⟨above, held⟩, fun used => (used.resolve_left Bool.false_ne_true).2⟩
    · refine iff_of_false (fun user => user guarded.user) ?_
      intro same
      exact low (Nat.le_of_eq same)

theorem open_gates_witness :
    let calls := [.register ⟨0x1000, 7, true⟩, .release 33]
    let gate := (runTable image (init image loaded) calls).idt 33
    (gate.type &&& kPresent ≠ 0 ↔
        systemVector 33 = true ∨ idtReserved < 33 ∧ registered image 33 (init image loaded) false calls = true) ∧
      (gate.type &&& kAccessUsr ≠ 0 ↔ 33 = 32) :=
  open_gates image loaded [.register ⟨0x1000, 7, true⟩, .release 33] (by decide)

end Gates

end Hotarubi.Idt
