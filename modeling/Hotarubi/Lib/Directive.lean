import Hotarubi.Base.Numeral
import Hotarubi.Lib.Vcbprintf

/-! Conversion specifications as they are written, and the text that C99 asks for
where an integer is converted. Nothing here depends on how `_vcbprintf` works. -/

namespace Hotarubi.Lib.Vcbprintf
open Base.Numeral

section Syntax

inductive Flag where
  | separate
  | minus
  | plus
  | space
  | hash
  | zero
  deriving DecidableEq, Repr

def Flag.char : Flag → Char
  | .separate => '\''
  | .minus => '-'
  | .plus => '+'
  | .space => ' '
  | .hash => '#'
  | .zero => '0'

/-- A number as it is written in a format. -/
abbrev Literal := List (Fin 10)

def Literal.text (digits : Literal) : List UInt8 := digits.map fun digit : Fin 10 => UInt8.ofNat (48 + digit.val)

def Literal.value (digits : Literal) : Nat := horner 10 0 (digits.map Fin.val)

/-- A field width. Leading zeros are flags and not part of it. An asterisk stands
with the argument that it takes. -/
inductive Width where
  | absent
  | literal (first : Fin 10) (rest : Literal) (significant : first ≠ 0)
  | star (argument : UInt64)
  deriving DecidableEq, Repr

inductive Precision where
  | absent
  | literal (digits : Literal)
  | star (argument : UInt64)
  deriving DecidableEq, Repr

def Width.text : Width → List UInt8
  | .absent => []
  | .literal first rest _ => Literal.text (first :: rest)
  | .star _ => ['*'.toUInt8]

def Width.args : Width → List Arg
  | .absent | .literal .. => []
  | .star argument => [.word argument]

/-- The width that is asked for; a negative one asks for a left-justified field. -/
def Width.value : Width → Int
  | .absent => 0
  | .literal first rest _ => Literal.value (first :: rest)
  | .star argument => toInt argument.toNat

def Precision.text : Precision → List UInt8
  | .absent => []
  | .literal digits => '.'.toUInt8 :: digits.text
  | .star _ => ['.'.toUInt8, '*'.toUInt8]

def Precision.args : Precision → List Arg
  | .absent | .literal _ => []
  | .star argument => [.word argument]

/-- The number behind the dot. -/
def Precision.value : Precision → Option Int
  | .absent => none
  | .literal digits => some digits.value
  | .star argument => some (toInt argument.toNat)

/-- The precision is absent or at least one. -/
def Precision.Positive (precision : Precision) : Prop := ∀ value, precision.value = some value → 1 ≤ value

instance (precision : Precision) : Decidable precision.Positive :=
  match found : precision.value with
  | none => isTrue fun _ other => by simp [found] at other
  | some value => decidable_of_iff (1 ≤ value) (by simp [Precision.Positive, found])

def Length.text : Length → List UInt8
  | .char => ['h', 'h'].map Char.toUInt8
  | .short => ['h'].map Char.toUInt8
  | .int => []
  | .long => ['l'].map Char.toUInt8
  | .longLong => ['l', 'l'].map Char.toUInt8
  | .intMax => ['j'].map Char.toUInt8
  | .sizeT => ['z'].map Char.toUInt8
  | .ptrDiffT => ['t'].map Char.toUInt8

/-- A conversion specification without its conversion character. -/
structure Directive where
  flags : List Flag
  width : Width
  precision : Precision
  length : Length

/-- What stands between the `%` and the conversion character. -/
def Directive.body (d : Directive) : List UInt8 :=
  d.flags.map (fun flag => flag.char.toUInt8) ++ (d.width.text ++ (d.precision.text ++ d.length.text))

def Directive.format (d : Directive) (conversion : Char) : List UInt8 :=
  '%'.toUInt8 :: (d.body ++ [conversion.toUInt8])

def Directive.args (d : Directive) (value : Arg) : List Arg := d.width.args ++ (d.precision.args ++ [value])

end Syntax

section Reference

/-- The integer conversions. -/
inductive Conversion where
  | d
  | i
  | o
  | u
  | x
  | X
  deriving DecidableEq, Repr

def Conversion.char : Conversion → Char
  | .d => 'd'
  | .i => 'i'
  | .o => 'o'
  | .u => 'u'
  | .x => 'x'
  | .X => 'X'

def Conversion.signed : Conversion → Bool
  | .d | .i => true
  | .o | .u | .x | .X => false

def Conversion.base : Conversion → Nat
  | .d | .i | .u => 10
  | .o => 8
  | .x | .X => 16

/-- The argument converted to the type that a length modifier names. -/
def Conversion.value (conversion : Conversion) (length : Length) (argument : UInt64) : Int :=
  if conversion.signed then Vcbprintf.signed length.bits argument.toNat else argument.toNat % 2 ^ length.bits

/-- A number in a base, without leading zeros. -/
def numeral (base : Nat) (capitals : Bool) (n : Nat) : List UInt8 :=
  (places base n).map fun place => UInt8.ofNat
    (if place < 10 then '0'.toNat + place else (if capitals then 'A' else 'a').toNat + (place - 10))

def zeros (count : Nat) : List UInt8 := List.replicate count '0'.toUInt8

def spaces (count : Nat) : List UInt8 := List.replicate count ' '.toUInt8

/-- The sign of a signed conversion, or the `0x` of the alternate form. -/
def leader (flags : List Flag) (conversion : Conversion) (value : Int) : List UInt8 :=
  if conversion.signed then
    if value < 0 then ['-'.toUInt8]
    else if .plus ∈ flags then ['+'.toUInt8]
    else if .space ∈ flags then [' '.toUInt8]
    else []
  else if .hash ∈ flags ∧ value ≠ 0 then
    if conversion = .x then ['0'.toUInt8, 'x'.toUInt8]
    else if conversion = .X then ['0'.toUInt8, 'X'.toUInt8]
    else []
  else []

/-- The text of C99 for an integer, for a width that is not negative and a precision
that is absent or at least one. -/
def integerText (flags : List Flag) (width : Nat) (precision : Option Nat) (conversion : Conversion) (value : Int) :
    List UInt8 :=
  let digits := numeral conversion.base (conversion = .X) value.natAbs
  let number := zeros (precision.getD 1 - digits.length) ++ digits
  let lead := leader flags conversion value
  let missing := width - (lead ++ number).length
  if .minus ∈ flags then lead ++ number ++ spaces missing
  else if .zero ∈ flags ∧ precision = none then lead ++ zeros missing ++ number
  else spaces missing ++ lead ++ number

/-- The text of C99 for an integer where the precision is zero: a zero has no digits, and
zeros never fill the field. -/
def zeroPrecisionText (flags : List Flag) (width : Nat) (conversion : Conversion) (value : Int) : List UInt8 :=
  let digits := if value = 0 then [] else numeral conversion.base (conversion = .X) value.natAbs
  let lead := leader flags conversion value
  let missing := width - (lead ++ digits).length
  if .minus ∈ flags then lead ++ digits ++ spaces missing else spaces missing ++ lead ++ digits

/-- Some bytes in a field, on the left or on the right of it. -/
def fieldText (left : Bool) (width : Nat) (s : List UInt8) : List UInt8 :=
  if left then s ++ spaces (width - s.length) else spaces (width - s.length) ++ s

end Reference

section Reading

/-- The value of a text of at least one decimal digit and nothing else. -/
def readDigits (text : List UInt8) : Option Nat :=
  if text ≠ [] ∧ text.all fun c => decide (48 ≤ c.toNat ∧ c.toNat ≤ 57) then some
    (horner 10 0 (text.map fun c => c.toNat - 48))
  else none

/-- The integer that a text stands for: a sign, if there is one, and digits. -/
def readInteger : List UInt8 → Option Int
  | [] => none
  | c :: text =>
    if c = '-'.toUInt8 then (readDigits text).map fun n => -(n : Int)
    else if c = '+'.toUInt8 then (readDigits text).map fun n => (n : Int)
    else (readDigits (c :: text)).map fun n => (n : Int)

/-- A text without its spaces. -/
def trimmed (text : List UInt8) : List UInt8 := text.filter (· ≠ ' '.toUInt8)

end Reading

end Hotarubi.Lib.Vcbprintf
