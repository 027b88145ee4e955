import Mathlib.Data.Nat.Notation

/-! The driver of the 8253/8254 interval timer. The bytes that go to its ports are
kept in a log, which is auxiliary. -/

namespace Hotarubi.Processor.Pit

/-- `PIT_CMD` and `PIT_DATA` -/
def pitCmd : UInt16 := 0x43
def pitData : UInt16 := 0x40

/-- `PIT_MODE_SINGLE` and `PIT_MODE_PERIOD` -/
def pitModeSingle : UInt8 := 0x30
def pitModePeriod : UInt8 := 0x34

def pitFrequency : UInt64 := 1193180

/-- `operator "" _s` and `operator "" _ms` -/
def seconds (n : UInt64) : UInt64 := n * 1000 * 1000
def milliseconds (n : UInt64) : UInt64 := n * 1000

/-- The handlers of a `pit`, and the values and ports of the calls of `outb`. -/
structure State (φ : Type) where
  oneShotHandler : Option φ
  periodicHandler : Option φ
  log : List (UInt8 × UInt16)
  deriving DecidableEq, Repr

variable {φ : Type}

def outb (val : UInt8) (port : UInt16) (s : State φ) : State φ := { s with log := s.log ++ [(val, port)] }

/-- What both functions do with the time. There is no result where a division by zero
traps. -/
def program (mode : UInt8) (time : UInt64) (s : State φ) : Option (State φ) :=
  if time = 0 then none
  else
    let hz := seconds 1 / time
    if hz = 0 then none
    else
      let divider := pitFrequency / hz
      let s := outb mode pitCmd s
      let s := outb ((divider >>> 0) &&& 0xff).toUInt8 pitData s
      some (outb ((divider >>> 8) &&& 0xff).toUInt8 pitData s)

/-- `one_shot` -/
def oneShot (time : UInt64) (fn : Option φ) (s : State φ) : Option (State φ) :=
  let s := { s with periodicHandler := none, oneShotHandler := fn }
  let time := if time > seconds 1 / 19 then seconds 1 / 19 else time
  program pitModeSingle time s

/-- `periodic`, which takes the time as it is. -/
def periodic (time : UInt64) (fn : Option φ) (s : State φ) : Option (State φ) :=
  program pitModePeriod time { s with periodicHandler := fn, oneShotHandler := none }

end Hotarubi.Processor.Pit
