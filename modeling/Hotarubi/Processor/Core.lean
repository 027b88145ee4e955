import Mathlib.Logic.Function.Basic

/-! The per-processor records: which one a starting processor installs, and which
one the MADT parser stores a local APIC in. A result of `none` is a panic or an
access through a null pointer. -/

namespace Hotarubi.Processor

/-- A `core*`: the static record of the bootstrap processor, or an element of an
array from `new`. The arrays are numbered from 1 as they are allocated; array 0
stands for the null pointer. -/
inductive CoreRef where
  | bsp
  | ap (array index : Nat)
  deriving DecidableEq, Repr

structure Lapic where
  initId : UInt8
  initAddr : UInt32
  deriving DecidableEq, Repr

/-- The members of `core_local_data` that the start of a processor uses. -/
structure Core where
  gsSelf : Option CoreRef
  id : UInt8
  lapic : Option Lapic
  deriving DecidableEq, Repr

/-- The variables of core.cc and the GS base register of every processor. -/
structure State (κ : Type) where
  core : CoreRef → Core
  activeCount : UInt32
  aps : Nat
  coreCount : UInt32
  gsBase : κ → Option CoreRef

variable {κ : Type}

/-- `core::instance` -/
def coreInstance (s : State κ) (core : UInt32) : Option CoreRef :=
  if core = 0 then some .bsp
  else if core < s.coreCount then some (.ap s.aps (core - 1).toNat) else none

/-- `core::current`: the first word of the record that GS points to. -/
def current (s : State κ) (cpu : κ) : Option CoreRef := do
  let record ← s.gsBase cpu
  (s.core record).gsSelf

def isBsp (s : State κ) (cpu : κ) : Bool :=
  match current s cpu with
  | none => true
  | some record => (s.core record).id == 0

inductive MadtEntry where
  | lapic (processorId apicId : UInt8)
  | ioapic
  | lapicAddressOverride (lapicBase : UInt64)
  | other
  deriving DecidableEq, Repr

/-- What the first run of `parse_madt` collects. -/
structure Resources where
  coreCount : UInt32
  ioapicCount : UInt32
  lapicBase : UInt32
  coreBase : UInt32
  deriving DecidableEq, Repr

def countEntry (found : Resources) : MadtEntry → Resources
  | .lapic processorId _ => { found with
      coreCount := found.coreCount + 1
      coreBase := if processorId.toUInt32 < found.coreBase then processorId.toUInt32 else found.coreBase }
  | .ioapic => { found with ioapicCount := found.ioapicCount + 1 }
  | .lapicAddressOverride lapicBase => { found with lapicBase := lapicBase.toUInt32 }
  | .other => found

def countEntries (madt : List MadtEntry) : Resources := madt.foldl countEntry ⟨0, 0, 0, 255⟩

/-- `new processor::core[core_count - 1]`: the constructor sets `_gs_self` only. -/
def newCores (s : State κ) (coreCount : UInt32) : State κ :=
  { s with
    core := fun record => match record with
      | .bsp => s.core .bsp
      | .ap array index =>
        if array = s.aps + 1 ∧ index < (coreCount - 1).toNat then
          { s.core (.ap array index) with gsSelf := some (.ap array index) }
        else s.core (.ap array index)
    aps := s.aps + 1
    coreCount }

def State.setLapic (s : State κ) (record : CoreRef) (lapic : Lapic) : State κ :=
  { s with core := Function.update s.core record { s.core record with lapic := some lapic } }

/-- One entry in the second run of `parse_madt`. -/
def configureEntry (found : Resources) (s : State κ) : MadtEntry → Option (State κ)
  | .lapic processorId apicId => do
    let record ← coreInstance s (processorId.toUInt32 - found.coreBase)
    some (s.setLapic record ⟨apicId, found.lapicBase⟩)
  | _ => some s

/-- `parse_madt` without the interrupt overrides. -/
def parseMadt (madt : List MadtEntry) (s : State κ) : Option (State κ) :=
  let found := countEntries madt
  if found.coreCount = 0 || found.ioapicCount = 0 then none
  else madt.foldlM (configureEntry found) (newCores s found.coreCount)

/-- The part of `processor::init` under `_processor_accounting_lock`, and the two MSR writes. -/
def account [DecidableEq κ] (s : State κ) (cpu : κ) : State κ :=
  let record := if s.activeCount = 0 then .bsp else .ap s.aps s.activeCount.toNat
  { s with
    core := Function.update s.core record { s.core record with gsSelf := some record, id := s.activeCount.toUInt8 }
    activeCount := s.activeCount + 1
    gsBase := Function.update s.gsBase cpu (some record) }

def parseAsBsp (madt : List MadtEntry) (s : State κ) (cpu : κ) : Option (State κ) :=
  if isBsp s cpu then parseMadt madt s else some s

/-- `processor::init`, which ends in `core::current()->lapic->init()`. -/
def init [DecidableEq κ] (madt : List MadtEntry) (s : State κ) (cpu : κ) : Option (State κ) := do
  let s ← parseAsBsp madt (account s cpu) cpu
  let record ← current s cpu
  let _ ← (s.core record).lapic
  some s

end Hotarubi.Processor
