import Hotarubi.Base.Runs
import Hotarubi.Processor.Idt

/-! Dynamic interrupt vectors over runs of registrations and releases. A
registration pairs vector `33 + i` with stub `i`. A release patches the stub whose
index is the vector, so it frees another vector and keeps its own. -/

namespace Hotarubi.Idt
open Base

structure Registration where
  fn : UInt64
  ucontext : UInt64
  swapgsFast : Bool
  deriving DecidableEq, Repr

/-- The tables, and the registrations that were answered and not released. -/
structure World where
  state : State
  live : UInt32 → Option Registration

inductive Event where
  | register (r : Registration)
  | release (v : UInt32)
  deriving DecidableEq, Repr

variable (symbols : Symbols)

def request (s : State) (r : Registration) : Option UInt32 × State :=
  registerIrqHandler symbols s r.fn r.ucontext r.swapgsFast

def Event.exec (w : World) : Event → Option (Option UInt32 × World)
  | .register r =>
    match request symbols w.state r with
    | (some v, state) => some (some v, ⟨state, Function.update w.live v (some r)⟩)
    | (none, state) => some (none, ⟨state, w.live⟩)
  | .release v => some (none, ⟨releaseIrqHandler symbols w.state v, Function.update w.live v none⟩)

/-- Only a vector that is registered is released. -/
def Event.Permitted (w : World) : Event → Prop
  | .register _ => True
  | .release v => w.live v ≠ none

def Event.IsRelease : Event → Prop
  | .register _ => False
  | .release _ => True

/-- An interrupt on vector `v` runs the stub that carries `v` and the context, and then the handler. -/
structure Reaches (s : State) (v : UInt32) (r : Registration) : Prop where
  handler : s.interruptPointerTable v.toNat = r.fn
  present : (s.idt v.toNat).type &&& kPresent ≠ 0
  stub : ∃ i < idtDescriptors - idtReserved, (s.idt v.toNat).target = stubAddr symbols i ∧
    (s.stub i).nr = v ∧ (s.stub i).context = r.ucontext

/-- Some number of further registrations hands out `v`. -/
def Available (s : State) (v : UInt32) : Prop :=
  ∃ (earlier : List Registration) (last : Registration),
    (request symbols (earlier.foldl (fun s r => (request symbols s r).2) s) last).1 = some v

/-- The table entries and the stub that belong to a dynamic vector. -/
def SameVector (s s' : State) (v : Nat) : Prop :=
  s'.interruptPointerTable v = s.interruptPointerTable v ∧ s'.idt v = s.idt v ∧
    s'.stub (v - (idtReserved + 1)) = s.stub (v - (idtReserved + 1))

/-- What every call owes: vectors in range that nobody holds, live vectors that
reach their handlers, and a release that gives back its vector and no other. -/
def Event.Behaves (w : World) (event : Event) : Prop :=
  ∀ answer w', event.exec symbols w = some (answer, w') →
    (∀ v r, w'.live v = some r → Reaches symbols w'.state v r) ∧
    match event with
    | .register _ => ∀ v, answer = some v → idtReserved < v.toNat ∧ v.toNat < idtDescriptors ∧ w.live v = none
    | .release v => Available symbols w'.state v ∧
        ∀ u, idtReserved < u → u < idtDescriptors → u ≠ v.toNat → SameVector w.state w'.state u

theorem descriptor_target (target : UInt64) (selector : UInt16) (stack type : UInt8) :
    (Descriptor.to target selector stack type).target = target := by
  apply UInt64.toNat_inj.mp
  have bound := target.toNat_lt
  simp only [Descriptor.target, Descriptor.to, UInt64.toNat_add, UInt64.toNat_shiftLeft, UInt16.toNat_toUInt64,
    UInt32.toNat_toUInt64, UInt64.toNat_toUInt16, UInt64.toNat_toUInt32, UInt64.toNat_shiftRight,
    Nat.shiftLeft_eq, Nat.shiftRight_eq_div_pow, show UInt64.toNat 16 = 16 from rfl,
    show UInt64.toNat 32 = 32 from rfl]
  simp only [Nat.reduceMod, Nat.reducePow]
  omega

theorem request_cases (s : State) (r : Registration) :
    request symbols s r = (none, s) ∨ ∃ i, i < 222 ∧ (s.stub i).nr = idtStubNrMagic ∧
      request symbols s r =
        (some (UInt32.ofNat (33 + i)), takeStub symbols s (i + 1) r.fn r.ucontext r.swapgsFast) := by
  simp only [request, registerIrqHandler]
  split
  next number found =>
    obtain ⟨low, high⟩ := List.mem_range'_1.mp (List.mem_of_find?_eq_some found)
    have free := List.find?_some found
    obtain ⟨i, rfl⟩ : ∃ i, number = i + 1 := ⟨number - 1, by omega⟩
    refine .inr ⟨i, ?_, by simpa using free, ?_⟩
    · simp only [idtDescriptors, idtReserved] at high
      omega
    · rw [show idtReserved + (i + 1) = 33 + i by simp only [idtReserved]; omega]
  next => exact .inl rfl

variable {symbols} {s : State} {w : World}

theorem vector_toNat {i : Nat} (inside : i < 222) : (UInt32.ofNat (33 + i)).toNat = 33 + i := by
  rw [UInt32.toNat_ofNat']
  omega

theorem marker_not_vector {v : UInt32} (inside : v.toNat < idtDescriptors) : v ≠ idtStubNrMagic := by
  rintro rfl
  exact absurd inside (by decide)

/-- The invariant of registrations: a live vector `v` owns stub `v - 33`. -/
structure Held (symbols : Symbols) (s : State) (v : UInt32) (r : Registration) : Prop where
  above : 33 ≤ v.toNat
  below : v.toNat < idtDescriptors
  handler : s.interruptPointerTable v.toNat = r.fn
  gate : s.idt v.toNat = .to (stubAddr symbols (v.toNat - 33)) 0x08 0 (kTypeIRQ ||| kPresent ||| kAccessSys)
  nr : (s.stub (v.toNat - 33)).nr = v
  context : (s.stub (v.toNat - 33)).context = r.ucontext

def Consistent (symbols : Symbols) (w : World) : Prop := ∀ v r, w.live v = some r → Held symbols w.state v r

theorem Held.reaches {v : UInt32} {r : Registration} (held : Held symbols s v r) : Reaches symbols s v r where
  handler := held.handler
  present := by
    rw [held.gate]
    exact (by decide : (kTypeIRQ ||| kPresent ||| kAccessSys) &&& kPresent ≠ 0)
  stub := by
    have above := held.above
    have below := held.below
    refine ⟨v.toNat - 33, ?_, ?_, held.nr, held.context⟩
    · simp only [idtDescriptors, idtReserved] at below ⊢
      omega
    · rw [held.gate, descriptor_target]

theorem takeStub_held (s : State) {i : Nat} (inside : i < 222) (r : Registration) :
    Held symbols (takeStub symbols s (i + 1) r.fn r.ucontext r.swapgsFast) (UInt32.ofNat (33 + i)) r := by
  have number := vector_toNat inside
  have place : idtReserved + (i + 1) = 33 + i := by simp only [idtReserved]; omega
  constructor
  all_goals simp only [number, takeStub, setupIdtDescriptor, place, Function.update_self, Nat.add_sub_cancel,
    Nat.add_sub_cancel_left]
  · omega
  · simp only [idtDescriptors]
    omega

theorem takeStub_other {i : Nat} {v : UInt32} {q : Registration} (inside : i < 222)
    (free : (s.stub i).nr = idtStubNrMagic) (r : Registration) (held : Held symbols s v q) :
    v ≠ UInt32.ofNat (33 + i) ∧ Held symbols (takeStub symbols s (i + 1) r.fn r.ucontext r.swapgsFast) v q := by
  have above := held.above
  have apart : v.toNat - 33 ≠ i := by
    intro same
    rw [← same, held.nr] at free
    exact marker_not_vector held.below free
  have place : idtReserved + (i + 1) = 33 + i := by simp only [idtReserved]; omega
  have other : v.toNat ≠ 33 + i := by omega
  refine ⟨fun same => other (by rw [same, vector_toNat inside]), ?_⟩
  refine { above := above, below := held.below, handler := ?_, gate := ?_, nr := ?_, context := ?_ }
  all_goals simp only [takeStub, setupIdtDescriptor, place, Nat.add_sub_cancel, Function.update_of_ne apart,
    Function.update_of_ne other]
  · exact held.handler
  · exact held.gate
  · exact held.nr
  · exact held.context

private theorem register_consistent (consistent : Consistent symbols w) (r : Registration) {answer : Option UInt32}
    {w' : World} (executed : (Event.register r).exec symbols w = some (answer, w')) :
    Consistent symbols w' ∧ ∀ v, answer = some v → idtReserved < v.toNat ∧ v.toNat < idtDescriptors ∧ w.live v = none := by
  rcases request_cases symbols w.state r with none' | ⟨i, inside, free, some'⟩
  · simp only [Event.exec, none'] at executed
    cases executed
    exact ⟨consistent, nofun⟩
  · simp only [Event.exec, some'] at executed
    cases executed
    have mine : Held symbols _ _ r := takeStub_held w.state inside r
    refine ⟨fun v q live => ?_, ?_⟩
    · dsimp only at live
      by_cases same : v = UInt32.ofNat (33 + i)
      · subst same
        rw [Function.update_self] at live
        cases live
        exact mine
      · rw [Function.update_of_ne same] at live
        exact (takeStub_other inside free r (consistent v q live)).2
    · rintro v ⟨⟩
      refine ⟨mine.above, mine.below, ?_⟩
      cases live : w.live (UInt32.ofNat (33 + i)) with
      | none => rfl
      | some q => exact absurd rfl (takeStub_other inside free r (consistent _ q live)).1

private theorem register_total (symbols : Symbols) (w : World) (r : Registration) :
    ∃ answer w', (Event.register r).exec symbols w = some (answer, w') := by
  rcases request_cases symbols w.state r with none' | ⟨i, _, _, some'⟩
  · exact ⟨_, _, by simp only [Event.exec, none']; rfl⟩
  · exact ⟨_, _, by simp only [Event.exec, some']; rfl⟩

private theorem register_behaves (consistent : Consistent symbols w) (r : Registration) :
    (Event.register r).Behaves symbols w := by
  intro answer w' executed
  obtain ⟨kept, fresh⟩ := register_consistent consistent r executed
  exact ⟨fun v q live => (kept v q live).reaches, fresh⟩

theorem request_stub {i : Nat} (taken : (s.stub i).nr ≠ idtStubNrMagic) (r : Registration) :
    (request symbols s r).2.stub i = s.stub i := by
  rcases request_cases symbols s r with none' | ⟨j, _, free, some'⟩
  · rw [none']
  · have other : i ≠ j := fun same => taken (same ▸ free)
    rw [some']
    simp only [takeStub, setupIdtDescriptor, Nat.add_sub_cancel, Function.update_of_ne other]

private theorem registrations_stub (symbols : Symbols) {i : Nat} (requests : List Registration)
    (taken : (s.stub i).nr ≠ idtStubNrMagic) :
    (requests.foldl (fun s r => (request symbols s r).2) s).stub i = s.stub i := by
  induction requests generalizing s with
  | nil => rfl
  | cons r requests ih =>
    rw [List.foldl_cons, ih (by rwa [request_stub taken]), request_stub taken]

private theorem free_of_available {v : UInt32} (available : Available symbols s v) :
    (s.stub (v.toNat - 33)).nr = idtStubNrMagic := by
  obtain ⟨earlier, last, answered⟩ := available
  by_contra taken
  have kept := registrations_stub symbols earlier taken
  rcases request_cases symbols (earlier.foldl (fun s r => (request symbols s r).2) s) last with none' |
    ⟨i, inside, free, some'⟩
  · rw [none'] at answered
    cases answered
  · rw [some'] at answered
    cases answered
    rw [vector_toNat inside, Nat.add_sub_cancel_left] at taken kept
    rw [kept] at free
    exact taken free

private theorem release_misbehaves (consistent : Consistent symbols w) {v : UInt32}
    (permitted : (Event.release v).Permitted w) :
    ¬ (Event.release v).Behaves symbols w := by
  intro behaves
  obtain ⟨r, live⟩ := Option.ne_none_iff_exists'.mp permitted
  have held := consistent v r live
  have above := held.above
  have below := held.below
  have free := free_of_available (behaves none _ rfl).2.1
  have visited : ¬ (v.toNat ≤ idtReserved ∨ v.toNat > idtDescriptors) := by
    simp only [idtReserved]
    omega
  have other : v.toNat - 33 ≠ v.toNat := by omega
  simp only [releaseIrqHandler, if_neg visited, Function.update_of_ne other, held.nr] at free
  exact marker_not_vector below free

/-- In runs from `init` on, where only registered vectors are released, every call
behaves exactly when there is no release. -/
theorem vectors_behave_iff (s : State) {events : List Event}
    (permitted : EachStep (Event.exec symbols) (fun w event => event.Permitted w) ⟨init symbols s, fun _ => none⟩ events) :
    EachStep (Event.exec symbols) (fun w event => event.Behaves symbols w) ⟨init symbols s, fun _ => none⟩ events ↔
      ∀ event ∈ events, ¬ event.IsRelease := by
  have start : Consistent symbols ⟨init symbols s, fun _ => none⟩ := nofun
  generalize (⟨init symbols s, fun _ => none⟩ : World) = w at permitted start
  induction events generalizing w with
  | nil => simp [EachStep]
  | cons event events ih =>
    rw [List.forall_mem_cons]
    cases event with
    | release v =>
      have misbehaves := release_misbehaves start permitted.1
      simp only [EachStep, misbehaves, Event.IsRelease, not_true_eq_false, false_and]
    | register r =>
      obtain ⟨answer, w', executed⟩ := register_total symbols w r
      rw [eachStep_cons executed] at permitted ⊢
      simp only [register_behaves start r, Event.IsRelease, not_false_eq_true, true_and]
      exact ih w' permitted.2 (register_consistent start r executed).1

/-- The image as it is loaded, with stubs of 64 bytes. -/
def image : Symbols := ⟨0x100000, 64, 0x200000, 64, 0x300000, 0x110000, 0x110100⟩

def loaded : State :=
  ⟨fun _ => ⟨idtStubNrMagic, 0xffffffff0badf00d, 0x110100⟩, fun _ => 0, fun _ => ⟨0, 0, 0, 0, 0, 0⟩⟩

instance (w : World) (event : Event) : Decidable (event.Permitted w) :=
  match event with
  | .register _ => isTrue trivial
  | .release v => inferInstanceAs (Decidable (w.live v ≠ none))

theorem vectors_behave_iff_witness :
    let events : List Event := [.register ⟨0x1000, 7, true⟩, .register ⟨0x2000, 9, false⟩]
    EachStep (Event.exec image) (fun w event => event.Behaves image w) ⟨init image loaded, fun _ => none⟩ events ↔
      ∀ event ∈ events, ¬ event.IsRelease := by
  intro events
  exact vectors_behave_iff loaded (by decide +kernel)

/-- Once 34 vectors are registered, releasing 33 marks the stub of 66 as free. The
next registration gets 66, which is still live. -/
theorem vector_handed_out_twice : ¬ ∀ (symbols : Symbols) (s : State) (events : List Event),
    EachStep (Event.exec symbols) (fun w event => event.Permitted w) ⟨init symbols s, fun _ => none⟩ events →
      EachStep (Event.exec symbols) (fun w event => event.Behaves symbols w) ⟨init symbols s, fun _ => none⟩ events := by
  intro claim
  let again : Event := .register ⟨0x2000, 9, true⟩
  let events : List Event := List.replicate 34 (.register ⟨0x1000, 7, true⟩) ++ [.release 33]
  let start : World := ⟨init image loaded, fun _ => none⟩
  have each := claim image loaded (events ++ [again]) (by decide +kernel)
  let w := (runCalls (Event.exec image) start events).get (by decide +kernel)
  have behaves : again.Behaves image w :=
    (run_kept (fun _ _ _ _ _ _ _ => trivial) trivial each (Option.some_get _).symm).2
  have answered : (again.exec image w).map Prod.fst = some (some 66) := by decide +kernel
  obtain ⟨⟨answer, w'⟩, executed, rfl⟩ := Option.map_eq_some_iff.mp answered
  have unused : w.live 66 = none := ((behaves _ w' executed).2 66 rfl).2.2
  exact absurd unused (by decide +kernel)

end Hotarubi.Idt
