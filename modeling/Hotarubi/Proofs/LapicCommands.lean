import Hotarubi.Processor.Apic
import Mathlib.Data.List.Basic

/-! The two command words of the local APIC, over any sequence of calls. The high
command word stays as it is when the target is 0. -/

namespace Hotarubi.Processor.Lapic

inductive Call where
  | sendIpi (target vector : UInt8)
  | sendSipi (target bootVector : UInt8)
  | sendInit (target : UInt8)
  | broadcastIpi (mode : Broadcast) (vector : UInt8)
  | broadcastInit (mode : Broadcast)

def Call.exec : Call → Device → Device
  | .sendIpi target vector => Lapic.sendIpi target vector
  | .sendSipi target bootVector => Lapic.sendSipi target bootVector
  | .sendInit target => Lapic.sendInit target
  | .broadcastIpi mode vector => Lapic.broadcastIpi mode vector
  | .broadcastInit mode => Lapic.broadcastInit mode

def run (calls : List Call) (d : Device) : Device := calls.foldl (fun d call => call.exec d) d

/-- The target of a call that is no broadcast. -/
def Call.target : Call → Option UInt8
  | .sendIpi target _ | .sendSipi target _ | .sendInit target => some target
  | .broadcastIpi .. | .broadcastInit _ => none

/-- What a call that is no broadcast is to send. -/
def Call.wanted : Call → Option Message
  | .sendIpi target vector => some ⟨0, target.toUInt32, Delivery.fixed.numeric, vector.toUInt32⟩
  | .sendSipi target bootVector => some ⟨0, target.toUInt32, Delivery.sipi.numeric, bootVector.toUInt32⟩
  | .sendInit target => some ⟨0, target.toUInt32, Delivery.init.numeric, 0⟩
  | .broadcastIpi .. | .broadcastInit _ => none

/-- The destination in the high command word. -/
def destination (d : Device) : UInt32 := d.reg kLAPICInterruptCmdHi >>> 24

/-- Every call that is no broadcast sends what it is to send. -/
def Delivers (d : Device) (calls : List Call) : Prop :=
  ∀ earlier call later, calls = earlier ++ call :: later → ∀ wanted, call.wanted = some wanted →
    (call.exec (run earlier d)).sent = (run earlier d).sent ++ [wanted]

/-- A send to target 0 comes only while no other target has been in the high word. -/
def ZeroFirst (d : Device) (calls : List Call) : Prop :=
  ∀ earlier call later, calls = earlier ++ call :: later → call.target = some 0 →
    destination d = 0 ∧ ∀ before ∈ earlier, ∀ target, before.target = some target → target = 0

section Commands

variable {d : Device} {calls : List Call}

private theorem byte_cases {property : UInt8 → Prop} (all : ∀ n < 256, property (UInt8.ofNat n)) (byte : UInt8) :
    property byte := by
  have here := all byte.toNat byte.toNat_lt
  rwa [UInt8.ofNat_toNat] at here

private theorem target_word (target : UInt8) : (target.toUInt32 <<< 24) >>> 24 = target.toUInt32 ∧
    (target.toUInt32 <<< 24 = 0 ↔ target = 0) :=
  @byte_cases (fun target => (target.toUInt32 <<< 24) >>> 24 = target.toUInt32 ∧
    (target.toUInt32 <<< 24 = 0 ↔ target = 0)) (by decide +kernel) target

private theorem command_fields (vector : UInt8) : ∀ delivery ∈ [Delivery.fixed, .sipi, .init],
    let lo := 0 ||| delivery.numeric ||| vector.toUInt32 ||| bit 14
    (lo >>> 18) &&& 3 = 0 ∧ lo &&& 0x700 = delivery.numeric ∧ lo &&& 0xff = vector.toUInt32 :=
  @byte_cases (fun vector => ∀ delivery ∈ [Delivery.fixed, .sipi, .init],
    let lo := 0 ||| delivery.numeric ||| vector.toUInt32 ||| bit 14
    (lo >>> 18) &&& 3 = 0 ∧ lo &&& 0x700 = delivery.numeric ∧ lo &&& 0xff = vector.toUInt32)
    (by decide +kernel) vector

/-- The write of the high command word. -/
def highWord (target : UInt8) (d : Device) : Device :=
  if target.toUInt32 <<< 24 ≠ 0 then write d kLAPICInterruptCmdHi (target.toUInt32 <<< 24) else d

private theorem write_reg (d : Device) (reg : UInt16) (val : UInt32) : (write d reg val).reg =
    Function.update d.reg reg val := rfl

private theorem write_sent (d : Device) (reg : UInt16) (val : UInt32) : (write d reg val).sent =
    if reg = kLAPICInterruptCmdLo then d.sent ++ [message (d.reg kLAPICInterruptCmdHi) val] else d.sent := rfl

private theorem highWord_destination (target : UInt8) (d : Device) :
    destination (highWord target d) = if target = 0 then destination d else target.toUInt32 := by
  obtain ⟨back, zero⟩ := target_word target
  by_cases none : target = 0
  · rw [if_pos none, highWord, if_neg (not_not_intro (zero.mpr none))]
  · rw [if_neg none, highWord, if_pos (none ∘ zero.mp), destination, write_reg, Function.update_self, back]

private theorem highWord_sent (target : UInt8) (d : Device) : (highWord target d).sent = d.sent := by
  have apart : ¬kLAPICInterruptCmdHi = kLAPICInterruptCmdLo := by decide
  unfold highWord
  split
  next => rw [write_sent, if_neg apart]
  next => rfl

private theorem low_destination (d : Device) (lo : UInt32) : destination (write d kLAPICInterruptCmdLo lo) =
    destination d := by
  have apart : kLAPICInterruptCmdHi ≠ kLAPICInterruptCmdLo := by decide
  rw [destination, write_reg, Function.update_of_ne apart, destination]

/-- A command without a shorthand goes to the target, or, when that is 0, to the
destination that the high word had before. -/
private theorem command_sent (target vector : UInt8) (delivery : Delivery)
    (sends : delivery ∈ [Delivery.fixed, .sipi, .init]) (d : Device) :
    let after := write (highWord target d) kLAPICInterruptCmdLo (0 ||| delivery.numeric ||| vector.toUInt32 ||| bit 14)
    destination after = (if target = 0 then destination d else target.toUInt32) ∧
      after.sent = d.sent ++ [⟨0, destination after, delivery.numeric, vector.toUInt32⟩] := by
  obtain ⟨shorthand, mode, number⟩ := command_fields vector delivery sends
  refine ⟨?_, ?_⟩
  · rw [low_destination, highWord_destination]
  · rw [write_sent, if_pos rfl, highWord_sent, low_destination, message, shorthand, mode, number, destination]

private theorem exec_destination (call : Call) (d : Device) : destination (call.exec d) =
    match call.target with
    | some target => if target = 0 then destination d else target.toUInt32
    | none => destination d := by
  have silent (mode : Broadcast) (delivery : Delivery) (vector : UInt8) :
      destination (sendCommand 0 mode delivery vector d) = destination d := by
    cases mode <;> cases delivery <;> first | exact low_destination d _ | rfl
  cases call with
  | sendIpi target vector => exact (command_sent target vector .fixed (by simp) d).1
  | sendSipi target vector => exact (command_sent target vector .sipi (by simp) d).1
  | sendInit target => exact (command_sent target 0 .init (by simp) d).1
  | broadcastIpi mode vector => exact silent mode .fixed vector
  | broadcastInit mode => exact silent mode .init 0

private theorem exec_sent {call : Call} {wanted : Message} (asked : call.wanted = some wanted) (d : Device) :
    (call.exec d).sent = d.sent ++ [{ wanted with destination := destination (call.exec d) }] := by
  cases call with
  | sendIpi target vector =>
    obtain rfl := Option.some.inj asked
    exact (command_sent target vector .fixed (by simp) d).2
  | sendSipi target vector =>
    obtain rfl := Option.some.inj asked
    exact (command_sent target vector .sipi (by simp) d).2
  | sendInit target =>
    obtain rfl := Option.some.inj asked
    exact (command_sent target 0 .init (by simp) d).2
  | broadcastIpi mode vector => cases asked
  | broadcastInit mode => cases asked

private theorem target_wanted {call : Call} {target : UInt8} (named : call.target = some target) :
    ∃ wanted, call.wanted = some wanted ∧ wanted.destination = target.toUInt32 := by
  cases call
  case sendIpi | sendSipi | sendInit =>
    obtain rfl := Option.some.inj named
    exact ⟨_, rfl, rfl⟩
  case broadcastIpi | broadcastInit => cases named

private theorem wanted_target {call : Call} {wanted : Message} (asked : call.wanted = some wanted) :
    ∃ target, call.target = some target ∧ wanted.destination = target.toUInt32 := by
  cases call
  case sendIpi | sendSipi | sendInit =>
    obtain rfl := Option.some.inj asked
    exact ⟨_, rfl, rfl⟩
  case broadcastIpi | broadcastInit => cases asked

private theorem toUInt32_eq_zero (target : UInt8) : target.toUInt32 = 0 ↔ target = 0 :=
  ⟨fun zero => UInt8.toUInt32_inj.mp zero, fun zero => by rw [zero]; rfl⟩

private theorem exec_zero (call : Call) (d : Device) : destination (call.exec d) = 0 ↔
    destination d = 0 ∧ ∀ target, call.target = some target → target = 0 := by
  rw [exec_destination]
  cases call.target with
  | none => simp
  | some target =>
    by_cases none : target = 0
    · simp [none]
    · simp [none, toUInt32_eq_zero]

private theorem run_zero (calls : List Call) (d : Device) : destination (run calls d) = 0 ↔
    destination d = 0 ∧ ∀ call ∈ calls, ∀ target, call.target = some target → target = 0 := by
  induction calls generalizing d with
  | nil => simp [run]
  | cons call calls ih =>
    have rest := ih (call.exec d)
    rw [exec_zero] at rest
    rw [List.forall_mem_cons, ← and_assoc, ← rest]
    rfl

private theorem exec_wanted {call : Call} {wanted : Message} (asked : call.wanted = some wanted) (d : Device) :
    (call.exec d).sent = d.sent ++ [wanted] ↔ (call.target = some 0 → destination d = 0) := by
  obtain ⟨target, named, same⟩ := wanted_target asked
  have arrives : destination (call.exec d) = if target = 0 then destination d else target.toUInt32 := by
    rw [exec_destination, named]
  have sent : (call.exec d).sent = d.sent ++ [wanted] ↔ destination (call.exec d) = target.toUInt32 := by
    rw [exec_sent asked, List.append_right_inj, List.singleton_inj, ← same]
    exact ⟨fun equal => congrArg Message.destination equal, fun equal => by rw [equal]⟩
  rw [sent, arrives, named, Option.some.injEq]
  by_cases none : target = 0
  · simp [none]
  · simp [none]

/-- Every send that is no broadcast arrives as it is asked for exactly when the sends to
target 0 come before those to other targets. -/
theorem delivers_iff (d : Device) (calls : List Call) : Delivers d calls ↔ ZeroFirst d calls := by
  refine ⟨?_, ?_⟩
  · intro delivers earlier call later split zero
    obtain ⟨wanted, asked, _⟩ := target_wanted zero
    apply (run_zero earlier d).mp
    exact (exec_wanted asked _).mp (delivers earlier call later split wanted asked) zero
  · intro first earlier call later split wanted asked
    apply (exec_wanted asked _).mpr
    intro zero
    exact (run_zero earlier d).mpr (first earlier call later split zero)

/-- A send to target 1, and then one to target 0: the second one goes to 1 as well. -/
theorem second_send_astray : ¬Delivers ⟨fun _ => 0, [], []⟩ [.sendIpi 1 0x40, .sendIpi 0 0x41] := by
  intro delivers
  have here := delivers [.sendIpi 1 0x40] (.sendIpi 0 0x41) [] rfl _ rfl
  exact absurd here (by decide +kernel)

end Commands

end Hotarubi.Processor.Lapic
