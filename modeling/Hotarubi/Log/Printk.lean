import Hotarubi.Lib.Vcbprintf
import Mathlib.Logic.Function.Basic

/-! The log ring of printk.cc. Its positions stay below the length of the buffer, so
they are numbers without overflow. -/

namespace Hotarubi.Log

open Lib.Vcbprintf

/-- `ring_buffer`; `inPos` and `outPos` are its members `in` and `out`. -/
structure RingBuffer where
  data : Nat → UInt8
  inPos : Nat
  outPos : Nat
  len : Nat

/-- One pass of the loop in `emit`. -/
def emitByte (buffp : RingBuffer) (c : UInt8) : RingBuffer :=
  let buffp := { buffp with data := Function.update buffp.data buffp.inPos c, inPos := buffp.inPos + 1 }
  let buffp := if buffp.inPos ≥ buffp.len then { buffp with inPos := 0 } else buffp
  if buffp.outPos = buffp.inPos then
    let buffp := { buffp with outPos := buffp.outPos + 1 }
    if buffp.outPos ≥ buffp.len then { buffp with outPos := 0 } else buffp
  else buffp

def emit : Callback RingBuffer := fun p str n => (n, (str.take n).foldl emitByte p)

/-- The log ring after `init_printk`. -/
def initPrintk : RingBuffer := ⟨fun _ => 0, 0, 0, 4096⟩

/-- `printk`, with the log ring it leaves. -/
def printk (logring : RingBuffer) (fmt : List UInt8) (args : List Arg) : Except Fault Int × RingBuffer :=
  let (rc, x) := vcbprintf emit logring fmt args
  (rc, x.p)

end Hotarubi.Log
