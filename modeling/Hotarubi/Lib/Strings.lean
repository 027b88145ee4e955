import Hotarubi.Lib.Vcbprintf
import Hotarubi.Memory.Kmalloc

/-! The functions of strxxx.cc and strnxxx.cc, and `memmove`. For the string functions a
pointer is the list of the bytes that can be accessed from it on, a null pointer is `none`,
and a pointer into an argument is an offset. A fault is an access behind the bytes; where
a function does not test for null, a null pointer gives access to no byte. -/

namespace Hotarubi.Lib.Strings
open Vcbprintf Memory.Kmalloc

/-- The loop of `memmove`, from the back: the pointers stand behind the bytes to come. -/
def copyBytesBack (memory : Nat → UInt8) (c1 c2 : Nat) : Nat → Nat → UInt8
  | 0 => memory
  | n + 1 => copyBytesBack (Function.update memory (c1 - 1) (memory (c2 - 1))) (c1 - 1) (c2 - 1) n

/-- `memmove` of ranges that do not wrap: the pointer it gives back, and the memory. -/
def memmove (memory : Nat → UInt8) (s1 s2 n : Nat) : Nat × (Nat → UInt8) :=
  if s1 < s2 then (s1, memcpy memory s1 s2 n)
  else if s1 ≠ 0 ∧ s2 ≠ 0 ∧ n > 0 then (s1, copyBytesBack memory (s1 + n) (s2 + n) n)
  else (s1, memory)

abbrev Pointer := Option (List UInt8)

/-- The comparison behind the loops of `strcmp` and `strncmp`. -/
def compareLast (u1 u2 : UInt8) : Int := if u1 = u2 then 0 else if u1 < u2 then -1 else 1

/-- The loop of `strcmp`. -/
def strcmpFrom : List UInt8 → List UInt8 → Except Fault Int
  | u1 :: s1, u2 :: s2 =>
    if u1 ≠ 0 ∧ u2 ≠ 0 then
      if u1 ≠ u2 then .ok (if u1 < u2 then -1 else 1) else strcmpFrom s1 s2
    else .ok (compareLast u1 u2)
  | _, _ => .error .stringEnd

def strcmp (s1 s2 : Pointer) : Except Fault Int :=
  match s1, s2 with
  | some s1, some s2 => strcmpFrom s1 s2
  | _, _ => .ok 0

/-- The loop of `strncmp`, with `n` bytes to go. -/
def strncmpFrom : List UInt8 → List UInt8 → Nat → Except Fault Int
  | u1 :: s1, u2 :: s2, n + 2 =>
    if u1 ≠ 0 ∧ u2 ≠ 0 then
      if u1 ≠ u2 then .ok (if u1 < u2 then -1 else 1) else strncmpFrom s1 s2 (n + 1)
    else .ok (compareLast u1 u2)
  | u1 :: _, u2 :: _, _ => .ok (compareLast u1 u2)
  | _, _, _ => .error .stringEnd

def strncmp (s1 s2 : Pointer) (n : Nat) : Except Fault Int :=
  match s1, s2 with
  | some s1, some s2 => if n = 0 then .ok 0 else strncmpFrom s1 s2 n
  | _, _ => .ok 0

/-- The second loop of `strncpy`. -/
def padZeros : List UInt8 → Nat → Except Fault (List UInt8)
  | _ :: s1, n + 2 => (padZeros s1 (n + 1)).map (0 :: ·)
  | [], _ + 2 => .error .stringEnd
  | s1, _ => .ok s1

/-- `strncpy`: the buffer after the call. The NUL that ends the first loop is not
counted there, and so the second one stops a byte early. -/
def strncpy : (s1 s2 : List UInt8) → (n : Nat) → Except Fault (List UInt8)
  | s1, _, 0 => padZeros s1 0
  | _ :: s1, c :: s2, n + 1 =>
    if c ≠ 0 then (strncpy s1 s2 n).map (c :: ·) else (padZeros s1 (n + 1)).map (c :: ·)
  | _, _, _ + 1 => .error .stringEnd

/-- The loop of `strncat` from `p1` on, and the NUL behind it. -/
def strncatFrom : (p1 s2 : List UInt8) → (n : Nat) → Except Fault (List UInt8)
  | _ :: p1, _, 0 => .ok (0 :: p1)
  | _ :: p1, c :: s2, n + 1 => if c ≠ 0 then (strncatFrom p1 s2 n).map (c :: ·) else .ok (0 :: p1)
  | _, _, _ => .error .stringEnd

/-- `strncat`: the buffer after the call. -/
def strncat (s1 s2 : Pointer) (n : Nat) : Except Fault Pointer :=
  match s1, s2 with
  | some s1, some s2 =>
    if n ≠ 0 then do
      let len ← strlen s1
      let p1 ← strncatFrom (s1.drop len) s2 n
      .ok (some (s1.take len ++ p1))
    else .ok (some s1)
  | s1, _ => .ok s1

/-- An `int` as a `char`, and a `char` as an `int`. -/
def toChar (c : Int) : UInt8 := .ofNat (c % 256).toNat

def fromChar (c : UInt8) : Int := signed 8 c.toNat

/-- The loop of `strchr` from the `i`th byte on. -/
def strchrFrom (c : UInt8) : List UInt8 → (i : Nat) → Except Fault (Option Nat)
  | [], _ => .error .stringEnd
  | b :: s1, i => if b ≠ 0 then (if b = c then .ok (some i) else strchrFrom c s1 (i + 1)) else .ok none

def strchr (s1 : Pointer) (c : Int) : Except Fault (Option Nat) :=
  match s1 with
  | some s1 => do
    match ← strchrFrom (toChar c) s1 0 with
    | some i => .ok (some i)
    | none => if toChar c = 0 then (strlen s1).map some else .ok none
  | none => .ok none

/-- The loops of `strcspn` and `strspn` from the `i`th byte on: they leave at a byte that
`strchr` finds in `s2`, or at one that it does not. -/
def spanFrom (leave : Bool) (s2 : Pointer) : List UInt8 → (i : Nat) → Except Fault (Option Nat)
  | [], _ => .error .stringEnd
  | b :: s1, i =>
    if b ≠ 0 then do
      let place ← strchr s2 (fromChar b)
      if place.isSome = leave then .ok (some i) else spanFrom leave s2 s1 (i + 1)
    else .ok none

def strcspn (s1 s2 : Pointer) : Except Fault Nat :=
  match s1, s2 with
  | some s1, some s2 => do
    match ← spanFrom true (some s2) s1 0 with
    | some i => .ok i
    | none => strlen s1
  | _, _ => .ok 0

def strspn (s1 : List UInt8) (s2 : Pointer) : Except Fault Nat := do
  match ← spanFrom false s2 s1 0 with
  | some i => .ok i
  | none => strlen s1

/-- The inner loop of `strpbrk`. -/
def seekChar (c : UInt8) : List UInt8 → Except Fault Bool
  | [] => .error .stringEnd
  | b :: seek => if b ≠ 0 then (if c = b then .ok true else seekChar c seek) else .ok false

/-- The outer loop of `strpbrk` from the `i`th byte on. -/
def strpbrkFrom (s2 : List UInt8) : List UInt8 → (i : Nat) → Except Fault (Option Nat)
  | [], _ => .error .stringEnd
  | b :: s1, i =>
    if b ≠ 0 then do
      if ← seekChar b s2 then .ok (some i) else strpbrkFrom s2 s1 (i + 1)
    else .ok none

def strpbrk (s1 s2 : Pointer) : Except Fault (Option Nat) :=
  match s1, s2 with
  | some s1, some s2 => strpbrkFrom s2 s1 0
  | _, _ => .ok none

/-- The loop of `strstr` from the `i`th byte on, with that many passes to go. -/
def strstrFrom (s1 s2 : List UInt8) (l2 : Nat) : (passes i : Nat) → Except Fault (Option Nat)
  | 0, _ => .ok none
  | passes + 1, i => do
    let order ← strncmp (some (s1.drop i)) (some s2) l2
    if order = 0 then .ok (some i) else strstrFrom s1 s2 l2 passes (i + 1)

def strstr (s1 s2 : Pointer) : Except Fault (Option Nat) :=
  match s1, s2 with
  | some s1, some s2 => do
    let l1 ← strlen s1
    let l2 ← strlen s2
    strstrFrom s1 s2 l2 l1 0
  | _, _ => .ok none

end Hotarubi.Lib.Strings
