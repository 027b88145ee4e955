import Hotarubi.Processor.Apic
import Mathlib.Data.List.Basic

/-! The NMI of a local APIC, asked for before `init` or after it. The first request is
carried out by `init` on a register that is no entry of the LVT, the second one waits
forever. -/

namespace Hotarubi.Processor.Lapic

/-- The register of the LVT that a LINT number stands for. -/
def lvt (lint : UInt32) : UInt16 := if lint = 0 then Interrupt.lint0.reg else Interrupt.lint1.reg

/-- The register that `set_nmi` takes for it. -/
def nmiReg (lint : UInt32) : UInt16 := (if lint = 0 then Interrupt.lint0 else Interrupt.lint1).numeric

/-- The writes that go to other registers than the one of the LINT. -/
def elsewhere (lint : UInt32) (log : List (Access UInt16)) : List (Access UInt16) :=
  log.filter fun access => match access with
    | .write reg _ => reg != lvt lint
    | .read _ => false

/-- The three bits of an entry of the LVT that are asked for. -/
structure RoutesNmi (trigger : TriggerMode) (polarity : Polarity) (entry : UInt32) : Prop where
  mode : entry &&& 0x700 = Delivery.nmi.numeric
  level : entry &&& bit 15 ≠ 0 ↔ trigger = .level
  low : entry &&& bit 13 ≠ 0 ↔ polarity = .low

/-- A request before `init` and one after it leave the same registers, with the NMI in
the entry of the LINT, and write no others than `init` does alone. -/
def OrderFree (msr : UInt32) (available : Bool) (vector : Option UInt32) (lint : UInt32)
    (trigger : TriggerMode) (polarity : Polarity) (fresh : State) : Prop :=
  ∃ alone early late,
    init msr available vector fresh = some alone ∧
    init msr available vector (setNmi lint trigger polarity fresh) = some early ∧
    late = setNmi lint trigger polarity alone ∧
    early.device.reg = late.device.reg ∧
    RoutesNmi trigger polarity (late.device.reg (lvt lint)) ∧
    elsewhere lint early.device.log = elsewhere lint alone.device.log ∧
    elsewhere lint late.device.log = elsewhere lint alone.device.log

section Requests

variable (msr address lint : UInt32) (id : UInt8) (vector : Option UInt32) (d : Device)
  (trigger : TriggerMode) (polarity : Polarity)

/-- The state that `init` begins its work with. -/
def State.addressed (msr : UInt32) (s : State) : State :=
  { s with initAddr := if s.initAddr = 0 then msr &&& ~~~0xfff else s.initAddr }

private theorem enable_setNmi (fresh : State) (waits : fresh.initDone = false) :
    enable vector ((setNmi lint trigger polarity fresh).addressed msr) =
      { enable vector (fresh.addressed msr) with initNmi := ⟨lint, trigger, polarity⟩ } := by
  rw [setNmi, if_pos waits]
  rfl

private theorem init_alone : init msr true vector (.fresh id address d) =
    some (eoi (enable vector ((State.fresh id address d).addressed msr))) := rfl

private theorem setNmi_device (s : State) (done : s.initDone = true) : ∃ change,
    (setNmi lint trigger polarity s).device = update s.device (nmiReg lint) change := by
  refine ⟨fun val => (val &&& ~~~0x00000070) ||| (irqFlags 12 trigger polarity ||| Delivery.nmi.numeric), ?_⟩
  rw [setNmi, if_neg (by rw [done]; decide), nmiReg]

private theorem init_early (real : lint ≠ 0xff) : ∃ early change,
    init msr true vector (setNmi lint trigger polarity (.fresh id address d)) = some early ∧
      early.device = write (update (enable vector ((State.fresh id address d).addressed msr)).device
        (nmiReg lint) change) kLAPICEOI 0 := by
  have started := enable_setNmi msr lint vector trigger polarity (State.fresh id address d) rfl
  obtain ⟨change, reached⟩ := setNmi_device lint trigger polarity
    { enable vector ((State.fresh id address d).addressed msr) with
      initNmi := ⟨lint, trigger, polarity⟩, initDone := true } rfl
  refine ⟨eoi (applyInitNmi (enable vector ((setNmi lint trigger polarity (.fresh id address d)).addressed msr))),
    change, rfl, ?_⟩
  rw [started, applyInitNmi, if_pos real, eoi, reached]

private theorem nmiReg_ne_lvt (lint : UInt32) : nmiReg lint ≠ lvt lint := by
  unfold nmiReg lvt
  split <;> decide

private theorem elsewhere_append (lint : UInt32) (first second : List (Access UInt16)) :
    elsewhere lint (first ++ second) = elsewhere lint first ++ elsewhere lint second :=
  List.filter_append ..

/-- The order of the two calls is never free. -/
theorem nmi_never_routed (msr : UInt32) (available : Bool) (vector : Option UInt32) (id : UInt8) (address : UInt32)
    (d : Device) (lint : UInt32) (trigger : TriggerMode) (polarity : Polarity) (known : lint = 0 ∨ lint = 1) :
    ¬OrderFree msr available vector lint trigger polarity (.fresh id address d) := by
  intro free
  obtain ⟨alone, early, late, served, served', _, _, _, silent, _⟩ := free
  have real : lint ≠ 0xff := by rcases known with rfl | rfl <;> decide
  cases available with
  | false => cases served
  | true =>
    rw [init_alone] at served
    obtain rfl := Option.some.inj served
    obtain ⟨other, change, served, device⟩ := init_early msr address lint id vector d trigger polarity real
    obtain rfl := Option.some.inj (served.symm.trans served')
    -- the write of the wrong register is the one that `init` alone does not make
    have wrong (value : UInt32) : (elsewhere lint [.write (nmiReg lint) value]).length = 1 := by
      simp [elsewhere, nmiReg_ne_lvt]
    have lengths := congrArg List.length silent
    rw [device] at lengths
    simp only [eoi, update, read, write, elsewhere_append, List.length_append, wrong] at lengths
    omega

theorem nmi_never_routed_witness : ((1 : UInt32) = 0 ∨ (1 : UInt32) = 1) ∧
    ¬OrderFree 0xfee00000 true (some 0x30) 1 .edge .high (.fresh 0 0 ⟨fun _ => 0, [], []⟩) :=
  ⟨.inr rfl, nmi_never_routed 0xfee00000 true (some 0x30) 0 0 ⟨fun _ => 0, [], []⟩ 1 .edge .high (.inr rfl)⟩

/-- The entry of LINT1 after `init` and then `set_nmi`: it is masked and says nothing
of an NMI. -/
theorem lint1_stays_masked : ¬OrderFree 0xfee00000 true none 1 .edge .high (.fresh 0 0xfee00000 ⟨fun _ => 0, [], []⟩) := by
  intro free
  obtain ⟨alone, early, late, served, _, again, _, routed, _⟩ := free
  obtain rfl := Option.some.inj served
  subst again
  exact absurd routed.mode (by decide +kernel)

end Requests

end Hotarubi.Processor.Lapic
