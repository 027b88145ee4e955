import Hotarubi.Base.Runs
import Hotarubi.Processor.Apic

/-! Interrupt routing: the table of interrupt lines, what `parse_madt` enters there and
tells the IO-APICs, and the two calls that program a redirection entry by way of the
table. A result of `none` is a panic, or an access of an IO-APIC that has no registers. -/

namespace Hotarubi.Processor

def numIrqEntries : Nat := 255

/-- `interrupt` -/
structure Interrupt where
  source : UInt8
  target : UInt8
  trigger : TriggerMode
  polarity : Polarity
  deriving DecidableEq, Repr

/-- `_interrupts` and the first `_ioapic_count` elements of `_ioapics`. -/
structure Routing where
  interrupts : Option (Nat → Interrupt)
  ioapics : List Ioapic.State

/-- The loop of `core::irqs` over a new table. -/
def newInterrupts (i : Nat) : Interrupt := ⟨i.toUInt8, i.toUInt8, .conform, .conform⟩

namespace Routing

/-- `core::irqs( void )` -/
def allIrqs (s : Routing) : (Nat → Interrupt) × Routing :=
  match s.interrupts with
  | some table => (table, s)
  | none => (newInterrupts, { s with interrupts := some newInterrupts })

/-- `core::irqs( n )` -/
def irqs (s : Routing) (n : Nat) : Option Interrupt × Routing :=
  if n < numIrqEntries then
    let (table, s) := s.allIrqs
    (some (table n), s)
  else (none, s)

def setInterrupt (s : Routing) (n : Nat) (irq : Interrupt) : Routing :=
  { s with interrupts := s.interrupts.map fun table => Function.update table n irq }

/-- The test of the two loops over the IO-APICs. -/
def serves (line : UInt8) (ioapic : Ioapic.State) : Bool :=
  decide (Ioapic.start ioapic ≤ line ∧ Ioapic.range ioapic ≥ line)

/-- Calls on an element of `_ioapics`. -/
def program (s : Routing) (i : Nat) (calls : Ioapic.State → Ioapic.State) : Option Routing := do
  let ioapic ← s.ioapics[i]?
  if ioapic.ioMem then some { s with ioapics := s.ioapics.set i (calls ioapic) } else none

def routeIsaIrq (s : Routing) (source target : UInt8) : Option (Bool × Routing) :=
  match s.irqs source.toNat with
  | (some irq, s) =>
    match s.ioapics.findIdx? (serves irq.target) with
    | some i => do
      let s ← s.program i fun ioapic =>
        Ioapic.setMask irq.target false (Ioapic.setRoute irq.target target irq.trigger irq.polarity ioapic)
      some (true, s)
    | none => some (false, s)
  | (none, s) => some (false, s)

/-- `core::set_nmi` -/
def setNmi (s : Routing) (source : UInt8) (trigger : TriggerMode) (polarity : Polarity) : Option (Bool × Routing) :=
  match s.irqs source.toNat with
  | (some irq, s) =>
    match s.ioapics.findIdx? (serves irq.target) with
    | some i => do
      let s ← (s.setInterrupt source.toNat { irq with trigger, polarity }).program i
        (Ioapic.setNmi irq.target trigger polarity)
      some (true, s)
    | none => some (false, s)
  | (none, s) => some (false, s)

end Routing

/-- The entries of a MADT that `parse_madt` has an interrupt case for. -/
inductive IrqEntry where
  | ioapic (address baseIrq : UInt32)
  | sourceOverride (sourceIrq : UInt8) (globalIrq : UInt32) (trigger : TriggerMode) (polarity : Polarity)
  | nmiSource (globalIrq : UInt32) (trigger : TriggerMode) (polarity : Polarity)
  | other
  deriving DecidableEq, Repr

/-- A source override in the first run of `parse_madt`; `setup` takes the low byte of the global line. -/
def applyOverride (s : Routing) : IrqEntry → Routing
  | .sourceOverride sourceIrq globalIrq trigger polarity =>
    match s.irqs sourceIrq.toNat with
    | (some _, s) => s.setInterrupt sourceIrq.toNat ⟨sourceIrq, globalIrq.toUInt8, trigger, polarity⟩
    | (none, s) => s
  | _ => s

/-- What answers at the address of an IO-APIC, and whether its region can be had. -/
structure Board where
  device : UInt32 → Ioapic.Device
  available : UInt32 → Bool

/-- The elements of `_ioapics` in the order of the second run. -/
def configureIoapics (board : Board) (entries : List IrqEntry) : List Ioapic.State :=
  entries.filterMap fun entry => match entry with
    | .ioapic address baseIrq =>
      some (Ioapic.init (board.available address) baseIrq.toUInt8 (.fresh (board.device address)))
    | _ => none

/-- A global NMI in the third run of `parse_madt`. -/
def applyNmiSource (s : Routing) : IrqEntry → Option Routing
  | .nmiSource globalIrq trigger polarity => do
    let (_, s) ← s.setNmi globalIrq.toUInt8 trigger polarity
    some s
  | _ => some s

/-- The interrupt part of `parse_madt`. The loop that logs the overrides stands between the
second and the third run. -/
def parseInterrupts (board : Board) (entries : List IrqEntry) : Option Routing :=
  let s := entries.foldl applyOverride ⟨none, []⟩
  let ioapics := configureIoapics board entries
  if ioapics.isEmpty then none
  else
    let (_, s) := ({ s with ioapics } : Routing).allIrqs
    entries.foldlM applyNmiSource s

/-- A call of `core::route_isa_irq`: the source and the vector. -/
def execRoute (s : Routing) (call : UInt8 × UInt8) : Option (Bool × Routing) := s.routeIsaIrq call.1 call.2

end Hotarubi.Processor
