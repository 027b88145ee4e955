import Hotarubi.Processor.Core

/-! The three runs of `parse_madt` over a MADT that also has LAPIC NMI entries, with
a panic told apart from an access through a null pointer. -/

namespace Hotarubi.Processor

inductive TriggerMode where
  | conform
  | edge
  | reserved
  | level
  deriving DecidableEq, Repr

inductive Polarity where
  | conform
  | high
  | reserved
  | low
  deriving DecidableEq, Repr

structure MadtLapicNmi where
  processorId : UInt8
  trigger : TriggerMode
  polarity : Polarity
  lint : UInt8
  deriving DecidableEq, Repr

/-- An entry of the MADT: one that the first two runs look at, or a LAPIC NMI. -/
inductive TableEntry where
  | madt (entry : MadtEntry)
  | lapicNmi (desc : MadtLapicNmi)
  deriving DecidableEq, Repr

/-- What the first two runs see: an NMI entry is in their `default` case. -/
def TableEntry.counted : TableEntry → MadtEntry
  | .madt entry => entry
  | .lapicNmi _ => .other

/-- The members `_init_nmi`, `_init_nmi_trigger` and `_init_nmi_polarity` of a LAPIC. -/
structure InitNmi where
  lint : UInt32
  trigger : TriggerMode
  polarity : Polarity
  deriving DecidableEq, Repr

/-- The records while they are configured, with the NMI that waits in the LAPIC of each. -/
structure Parsing (κ : Type) where
  cores : State κ
  initNmi : CoreRef → Option InitNmi

inductive Fault where
  | panic (message : String)
  | nullInstance
  deriving DecidableEq, Repr

variable {κ : Type}

/-- `lapic->set_nmi`, when the record has a LAPIC. None is initialised before the parser is done. -/
def Parsing.setNmi (p : Parsing κ) (record : CoreRef) (desc : MadtLapicNmi) : Parsing κ :=
  match (p.cores.core record).lapic with
  | some _ =>
    { p with initNmi := Function.update p.initNmi record (some ⟨desc.lint.toUInt32, desc.trigger, desc.polarity⟩) }
  | none => p

/-- `core::instance( core )->lapic` and `set_nmi` on it. -/
def instanceNmi (p : Parsing κ) (core : UInt32) (desc : MadtLapicNmi) : Option (Parsing κ) := do
  let record ← coreInstance p.cores core
  some (p.setNmi record desc)

/-- One entry in the third run of `parse_madt`. -/
def applyNmi (found : Resources) (p : Parsing κ) : TableEntry → Option (Parsing κ)
  | .lapicNmi desc =>
    if desc.processorId = 255 then
      (List.range p.cores.coreCount.toNat).foldlM (fun p i => instanceNmi p (.ofNat i) desc) p
    else if desc.processorId.toUInt32 - found.coreBase > p.cores.coreCount then some p
    else instanceNmi p (desc.processorId.toUInt32 - found.coreBase) desc
  | .madt _ => some p

/-- The second and the third run. -/
def configureTable (found : Resources) (table : List TableEntry) (s : State κ) : Option (Parsing κ) := do
  let cores ← (table.map TableEntry.counted).foldlM (configureEntry found) s
  table.foldlM (applyNmi found) ⟨cores, fun _ => none⟩

/-- `parse_madt` without the interrupt overrides and the global NMIs. -/
def parseTable (table : List TableEntry) (s : State κ) : Except Fault (Parsing κ) :=
  let found := countEntries (table.map TableEntry.counted)
  if found.coreCount = 0 then .error (.panic "acpi: no processor detected - wait WHAT!?")
  else if found.ioapicCount = 0 then .error (.panic "acpi: no IOAPICs - wait WHAT!?")
  else match configureTable found table (newCores s found.coreCount) with
    | some p => .ok p
    | none => .error .nullInstance

end Hotarubi.Processor
