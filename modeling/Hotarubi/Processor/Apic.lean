import Hotarubi.Processor.Madt

/-! The registers of the local APIC and of the IO-APICs, as the drivers see them. A
device keeps a log of the accesses, which is auxiliary. -/

namespace Hotarubi.Processor

/-- An access of a register: a read, or a write of a value. -/
inductive Access (ρ : Type) where
  | read (reg : ρ)
  | write (reg : ρ) (value : UInt32)
  deriving DecidableEq, Repr

def Access.reg {ρ : Type} : Access ρ → ρ
  | .read reg => reg
  | .write reg _ => reg

def bit (n : UInt32) : UInt32 := 1 <<< n

/-- `_irq_flags`, for the bit that is set for an active-low line. -/
def irqFlags (polarityBit : UInt32) (trigger : TriggerMode) (polarity : Polarity) : UInt32 :=
  let res : UInt32 := 0
  let res := match trigger with
    | .conform | .edge => res &&& ~~~bit 15
    | .level => res ||| bit 15
    | .reserved => res
  match polarity with
  | .conform | .high => res &&& ~~~bit polarityBit
  | .low => res ||| bit polarityBit
  | .reserved => res

namespace Ioapic

/-- `IOAPICRegs` and `IOAPICDelivery::kNMI` -/
def kIOAPICId : Nat := 0x00
def kIOAPICVersion : Nat := 0x01
def kIOAPICRedirectLo : Nat := 0x10
def kIOAPICRedirectHi : Nat := 0x11
def kNMI : UInt32 := 0x400

/-- The registers behind the select and window registers, by the index that is selected. -/
structure Device where
  reg : Nat → UInt32
  log : List (Access Nat)

/-- The members of an `ioapic` and its device. -/
structure State where
  id : UInt8
  base : UInt8
  size : UInt8
  version : UInt8
  ioMem : Bool
  device : Device

/-- A new `ioapic`. -/
def State.fresh (device : Device) : State := ⟨0xff, 0, 0, 0, false, device⟩

/-- `_read`: the index goes through the `uint8_t` of the parameter. -/
def read (d : Device) (reg : Nat) : UInt32 × Device :=
  let reg := reg % 256
  (d.reg reg, { d with log := d.log ++ [.read reg] })

/-- `_write` -/
def write (d : Device) (reg : Nat) (value : UInt32) : Device :=
  let reg := reg % 256
  ⟨Function.update d.reg reg value, d.log ++ [.write reg value]⟩

/-- One pass of the loop of `init`. -/
def maskEntry (d : Device) (i : Nat) : Device :=
  let (lo, d) := read d (kIOAPICRedirectLo + i * 2)
  let (hi, d) := read d (kIOAPICRedirectHi + i * 2)
  let d := write d (kIOAPICRedirectLo + i * 2) (lo ||| bit 16)
  write d (kIOAPICRedirectHi + i * 2) hi

/-- `ioapic::init`, given whether the region can be had. -/
def init (available : Bool) (irqBase : UInt8) (s : State) : State :=
  if s.ioMem then s
  else if !available then s
  else
    let (id, d) := read s.device kIOAPICId
    let (size, d) := read d kIOAPICVersion
    let (version, d) := read d kIOAPICVersion
    let size := ((size >>> 16) &&& 0xff).toUInt8
    { id := ((id >>> 24) &&& 0x0f).toUInt8
      base := irqBase
      size
      version := (version &&& 0xff).toUInt8
      ioMem := true
      device := (List.range size.toNat).foldl maskEntry d }

def start (s : State) : UInt8 := s.base

def range (s : State) : UInt8 := s.base + s.size

/-- The guard of the four calls below. -/
def outside (s : State) (source : UInt8) : Bool := decide (source < start s ∨ source > range s)

def setRoute (source target : UInt8) (trigger : TriggerMode) (polarity : Polarity) (s : State) : State :=
  if outside s source then s
  else
    let lo := 0 ||| irqFlags 13 trigger polarity
    let lo := lo ||| bit 11 ||| bit 16 ||| target.toUInt32
    let d := write s.device (kIOAPICRedirectHi + source.toNat * 2) 0xff000000
    { s with device := write d (kIOAPICRedirectLo + source.toNat * 2) lo }

/-- The calls that read an entry, change its low word and write it back. -/
def modify (source : UInt8) (change : UInt32 → UInt32) (s : State) : State :=
  if outside s source then s
  else
    let (lo, d) := read s.device (kIOAPICRedirectLo + source.toNat * 2)
    let (hi, d) := read d (kIOAPICRedirectHi + source.toNat * 2)
    let d := write d (kIOAPICRedirectLo + source.toNat * 2) (change lo)
    { s with device := write d (kIOAPICRedirectHi + source.toNat * 2) hi }

def setMask (source : UInt8) (masked : Bool) : State → State :=
  modify source fun lo => (lo &&& ~~~bit 16) ||| (masked.toUInt32 <<< 16)

def setNmi (source : UInt8) (trigger : TriggerMode) (polarity : Polarity) : State → State :=
  modify source fun lo => (lo &&& ~~~0x0000e700) ||| (irqFlags 13 trigger polarity ||| kNMI)

/-- `numeric( ~kNMI )` has 16 bits. -/
def clrNmi (source : UInt8) : State → State := modify source fun lo => lo &&& 0xfbff

end Ioapic

namespace Lapic

/-- The offsets of `LAPICRegs` that are used below. -/
def kLAPICId : UInt16 := 0x020
def kLAPICVersion : UInt16 := 0x030
def kLAPICEOI : UInt16 := 0x0b0
def kLAPICLogicalDestination : UInt16 := 0x0d0
def kLAPICDestinationFormat : UInt16 := 0x0e0
def kLAPICSpuriousInterrupt : UInt16 := 0x0f0
def kLAPICInterruptCmdLo : UInt16 := 0x300
def kLAPICInterruptCmdHi : UInt16 := 0x310
def kLAPICLvtTimer : UInt16 := 0x320
def kLAPICLvtThermal : UInt16 := 0x330
def kLAPICLvtPerfMon : UInt16 := 0x340
def kLAPICLvtLINT0 : UInt16 := 0x350
def kLAPICLvtLINT1 : UInt16 := 0x360
def kLAPICLvtError : UInt16 := 0x370

/-- `LAPICInterrupt` -/
inductive Interrupt where
  | lint0
  | lint1
  | timer
  | perfMon
  | thermal
  | error
  deriving DecidableEq, Repr

def Interrupt.numeric : Interrupt → UInt16
  | .lint0 => 1
  | .lint1 => 2
  | .timer => 3
  | .perfMon => 4
  | .thermal => 5
  | .error => 6

/-- The switch of `set_route` and `set_mask`. -/
def Interrupt.reg : Interrupt → UInt16
  | .lint0 => kLAPICLvtLINT0
  | .lint1 => kLAPICLvtLINT1
  | .timer => kLAPICLvtTimer
  | .perfMon => kLAPICLvtPerfMon
  | .thermal => kLAPICLvtThermal
  | .error => kLAPICLvtError

/-- `LAPICDelivery` -/
inductive Delivery where
  | fixed
  | smi
  | nmi
  | extInt
  | init
  | sipi
  deriving DecidableEq, Repr

def Delivery.numeric : Delivery → UInt32
  | .fixed => 0x000
  | .smi => 0x200
  | .nmi => 0x400
  | .extInt => 0x700
  | .init => 0x500
  | .sipi => 0x600

/-- `LAPICBroadcast`, with `LAPICBroadcast( 0 )`. -/
inductive Broadcast where
  | none
  | all
  | others
  | self
  deriving DecidableEq, Repr

def Broadcast.numeric : Broadcast → UInt32
  | .none => 0
  | .all => 0x80000
  | .others => 0xc0000
  | .self => 0x40000

/-- An interrupt that the command register has sent: the fields of its two words. -/
structure Message where
  shorthand : UInt32
  destination : UInt32
  delivery : UInt32
  vector : UInt32
  deriving DecidableEq, Repr

/-- The registers by their offsets, and what has been sent. -/
structure Device where
  reg : UInt16 → UInt32
  sent : List Message
  log : List (Access UInt16)

/-- The members of a `lapic` and its device. -/
structure State where
  id : UInt8
  version : UInt8
  ioMem : Bool
  initDone : Bool
  initId : UInt8
  initAddr : UInt32
  initNmi : InitNmi
  device : Device

/-- The constructor. -/
def State.fresh (id : UInt8) (address : UInt32) (device : Device) : State :=
  ⟨0, 0, false, false, id, address, ⟨0xff, .conform, .conform⟩, device⟩

/-- What the two words of the command register say. -/
def message (hi lo : UInt32) : Message :=
  ⟨(lo >>> 18) &&& 3, hi >>> 24, lo &&& 0x700, lo &&& 0xff⟩

/-- `_read` -/
def read (d : Device) (reg : UInt16) : UInt32 × Device := (d.reg reg, { d with log := d.log ++ [.read reg] })

/-- `_write`: a write to the low command word sends. -/
def write (d : Device) (reg : UInt16) (val : UInt32) : Device where
  reg := Function.update d.reg reg val
  sent := if reg = kLAPICInterruptCmdLo then d.sent ++ [message (d.reg kLAPICInterruptCmdHi) val] else d.sent
  log := d.log ++ [.write reg val]

/-- A register that is read, changed and written back. -/
def update (d : Device) (reg : UInt16) (change : UInt32 → UInt32) : Device :=
  let (val, d) := read d reg
  write d reg (change val)

def setMask (source : Interrupt) (masked : Bool) (d : Device) : Device :=
  update d source.reg fun val => if masked then val ||| bit 16 else val &&& ~~~bit 16

def acceptBroadcast (accept : Bool) (s : State) : State :=
  let d := write s.device kLAPICLogicalDestination (if accept then 0xff000000 else s.id.toUInt32 <<< 24)
  { s with device := update d kLAPICDestinationFormat (· &&& 0xf0000000) }

def eoi (s : State) : State := { s with device := write s.device kLAPICEOI 0 }

/-- `lapic::set_nmi`. Before `_init_done` the request waits in the members. -/
def setNmi (lintNo : UInt32) (trigger : TriggerMode) (polarity : Polarity) (s : State) : State :=
  if s.initDone = false then { s with initNmi := ⟨lintNo, trigger, polarity⟩ }
  else
    let reg := (if lintNo = 0 then Interrupt.lint0 else Interrupt.lint1).numeric
    { s with device := update s.device reg fun val =>
        (val &&& ~~~0x00000070) ||| (irqFlags 12 trigger polarity ||| Delivery.nmi.numeric) }

/-- The part of `init` behind `activate_region`, up to the NMI, for the vector that
`register_irq_handler` has found, if there is one. -/
def enable (vector : Option UInt32) (s : State) : State :=
  let (id, d) := read s.device kLAPICId
  let (version, d) := read d kLAPICVersion
  let s := acceptBroadcast true { s with
    id := (id >>> 24).toUInt8, version := (version &&& 0xff).toUInt8, ioMem := true, device := d }
  let d := [Interrupt.lint0, .lint1, .timer, .thermal, .perfMon, .error].foldl (fun d v => setMask v true d) s.device
  let d := match vector with
    | some vector => write d kLAPICSpuriousInterrupt (vector ||| 0x100)
    | none => d
  { s with device := d }

/-- The NMI that has waited for `init`. -/
def applyInitNmi (s : State) : State :=
  if s.initNmi.lint ≠ 0xff then
    setNmi s.initNmi.lint s.initNmi.trigger s.initNmi.polarity { s with initDone := true }
  else s

/-- `lapic::init`, given the base address that the MSR names and whether the region can
be had; without one, `eoi` is a wild access. With one already, no register is touched. -/
def init (msr : UInt32) (available : Bool) (vector : Option UInt32) (s : State) : Option State :=
  let s := { s with initAddr := if s.initAddr = 0 then msr &&& ~~~0xfff else s.initAddr }
  if s.ioMem then some s
  else if available then some (eoi (applyInitNmi (enable vector s)))
  else none

/-- `_send_ipi` -/
def sendCommand (target : UInt8) (mode : Broadcast) (delivery : Delivery) (vector : UInt8) (d : Device) : Device :=
  let lo : UInt32 := 0
  let (lo, hi) := match mode with
    | .all | .self | .others => (lo ||| mode.numeric, (0 : UInt32))
    | .none => (lo, target.toUInt32 <<< 24)
  let lo := lo ||| delivery.numeric
  let ready := match delivery with
    | .fixed | .sipi => some (lo ||| vector.toUInt32)
    | .smi | .nmi | .init => some lo
    | .extInt => none
  match ready with
  | none => d
  | some lo =>
    let lo := lo ||| bit 14
    let d := if hi ≠ 0 then write d kLAPICInterruptCmdHi hi else d
    write d kLAPICInterruptCmdLo lo

def sendIpi (target vector : UInt8) : Device → Device := sendCommand target .none .fixed vector

def sendSipi (target bootVector : UInt8) : Device → Device := sendCommand target .none .sipi bootVector

def sendInit (target : UInt8) : Device → Device := sendCommand target .none .init 0

def broadcastIpi (mode : Broadcast) (vector : UInt8) : Device → Device := sendCommand 0 mode .fixed vector

def broadcastInit (mode : Broadcast) : Device → Device := sendCommand 0 mode .init 0

end Lapic

end Hotarubi.Processor
