import Mathlib.Algebra.Group.Int.Defs
import Mathlib.Algebra.GroupWithZero.Nat
import Mathlib.Data.List.Basic

/-! The formatted output of `_vcbprintf`. What it does depends on the callback only
in that a refused call ends it, so a format is first read into the output statements
it reaches, in their order, and these are then carried out until one of them fails. -/

namespace Hotarubi.Lib.Vcbprintf

/-- The value of an integer in a signed type: two's complement, and so for the
arithmetic on `int` where it overflows. -/
def signed (bits : Nat) (n : Int) : Int := (n + 2 ^ (bits - 1)) % 2 ^ bits - 2 ^ (bits - 1)

def toInt (n : Int) : Int := signed 32 n

/-- The value of an integer as a `size_t` or `uintmax_t`. -/
def toSize (n : Int) : Nat := (n % 2 ^ 64).toNat

/-- `enum length` -/
inductive Length where
  | char
  | short
  | int
  | long
  | longLong
  | intMax
  | sizeT
  | ptrDiffT
  deriving DecidableEq, Repr

/-- The width of the type a length stands for. -/
def Length.bits : Length → Nat
  | .char => 8
  | .short => 16
  | .int => 32
  | .long | .longLong | .intMax | .sizeT | .ptrDiffT => 64

/-- The width of the argument, after its promotion to at least `int`. -/
def Length.argBits (length : Length) : Nat := max 32 length.bits

/-- What `%n` writes to a variable of this length. -/
def Length.stored (length : Length) (n : Nat) : Int :=
  match length with
  | .sizeT => n % 2 ^ 64
  | _ => signed length.bits n

structure Flags where
  separateThousands : Bool
  leftJustify : Bool
  alwaysAddSign : Bool
  addSpace : Bool
  alternateForm : Bool
  fillWithZero : Bool
  deriving DecidableEq, Repr

/-- What a conversion specification says before its conversion character. -/
structure Spec where
  flags : Flags
  width : Int
  precision : Int
  haveDot : Bool
  havePrecision : Bool
  length : Length
  deriving DecidableEq, Repr

/-- An argument: a register with an integer or an address, a `char *` that is null or
has the given bytes to read, or the address of a variable. -/
inductive Arg where
  | word (value : UInt64)
  | string (array : Option (List UInt8))
  | variable (address : Nat)
  deriving DecidableEq, Repr

/-- A read behind the end of the format or of a string, or an argument that is missing
or of another kind. -/
inductive Fault where
  | formatEnd
  | stringEnd
  | argument
  deriving DecidableEq, Repr

/-- An output statement: `PUTS` and `PUTC` with the bytes that can be read at the
pointer they hand over, a call of `pad_string`, and the assignment of `%n`. -/
inductive Command where
  | puts (s : List UInt8) (l : Nat)
  | pad (useZero : Bool) (len : Int)
  | store (length : Length) (address : Nat)
  deriving DecidableEq, Repr

section Numbers

/-- The loop that counts the digits; it divides at least once. -/
def digitCount (base : Nat) : Nat → Nat → Nat
  | 0, _ => 0
  | limit + 1, tmp => if tmp / base = 0 then 1 else 1 + digitCount base limit (tmp / base)

/-- `convtab` -/
def digit (caps : Bool) (value : Nat) : UInt8 :=
  if value < 10 then UInt8.ofNat (48 + value) else UInt8.ofNat ((if caps then 55 else 87) + value)

/-- The loop that writes digits from index `i - 1` down. -/
def writeDigits (base : Nat) (caps : Bool) : Nat → Nat → List UInt8 → List UInt8
  | 0, _, s => s
  | i + 1, num, s => writeDigits base caps i (num / base) (s.set i (digit caps (num % base)))

/-- `convert_number`: the buffer after the digits and the terminator are written. -/
def convertNumber (s : List UInt8) (n : Nat) (num : UInt64) (base : Nat) (caps : Bool) : List UInt8 :=
  if n = 0 then s.set 0 0
  else
    let base := if base < 2 then 2 else if base > 16 then 16 else base
    let len := digitCount base 64 num.toNat
    let len := if len > n then n else len
    (writeDigits base caps len num.toNat s).set len 0

def maxNumberLen : Nat := 130

/-- `strlen`, for the bytes that can be read from the pointer on. -/
def strlen : List UInt8 → Except Fault Nat
  | [] => .error .stringEnd
  | c :: s => if c = 0 then .ok 0 else (strlen s).map (· + 1)

end Numbers

section Arguments

def vaWord : List Arg → Except Fault (UInt64 × List Arg)
  | .word value :: args => .ok (value, args)
  | _ => .error .argument

/-- `va_arg( ap, int )` -/
def vaInt (args : List Arg) : Except Fault (Int × List Arg) := do
  let (value, args) ← vaWord args
  .ok (toInt value.toNat, args)

/-- `va_arg( ap, char* )` -/
def vaString : List Arg → Except Fault (Option (List UInt8) × List Arg)
  | .string array :: args => .ok (array, args)
  | _ => .error .argument

def vaVariable : List Arg → Except Fault (Nat × List Arg)
  | .variable address :: args => .ok (address, args)
  | _ => .error .argument

end Arguments

section Reading

/-- The loop over the flags. -/
def readFlags : List UInt8 → Flags → Flags × List UInt8
  | [], flags => (flags, [])
  | c :: fmt, flags =>
    if c = '\''.toUInt8 then readFlags fmt { flags with separateThousands := true }
    else if c = '-'.toUInt8 then readFlags fmt { flags with leftJustify := true, fillWithZero := false }
    else if c = '+'.toUInt8 then readFlags fmt { flags with alwaysAddSign := true }
    else if c = ' '.toUInt8 then readFlags fmt { flags with addSpace := true }
    else if c = '#'.toUInt8 then readFlags fmt { flags with alternateForm := true }
    else if c = '0'.toUInt8 then
      readFlags fmt (if !flags.leftJustify then { flags with fillWithZero := true } else flags)
    else (flags, c :: fmt)

/-- The loops over the digits of the width and of the precision. -/
def readNumber : Int → List UInt8 → Int × List UInt8
  | n, [] => (n, [])
  | n, c :: fmt =>
    if '0'.toUInt8 ≤ c ∧ c ≤ '9'.toUInt8 then readNumber (toInt (n * 10 + c.toNat - 48)) fmt else (n, c :: fmt)

/-- The field width, and the flags, which a negative argument changes. -/
def readWidth (flags : Flags) (fmt : List UInt8) (args : List Arg) :
    Except Fault (Int × Flags × List UInt8 × List Arg) :=
  let (width, fmt) := readNumber 0 fmt
  if fmt.head? = some '*'.toUInt8 then do
    let (width, args) ← vaInt args
    if width < 0 then .ok (toInt (-width), { flags with leftJustify := true }, fmt.tail, args)
    else .ok (width, flags, fmt.tail, args)
  else .ok (width, flags, fmt, args)

/-- The precision, 0 where it is negative, and whether there was a dot. -/
def readPrecision (fmt : List UInt8) (args : List Arg) : Except Fault (Int × Bool × List UInt8 × List Arg) :=
  if fmt.head? = some '.'.toUInt8 then
    let (precision, fmt) := readNumber 0 fmt.tail
    if fmt.head? = some '*'.toUInt8 then do
      let (precision, args) ← vaInt args
      .ok (if precision < 0 then 0 else precision, true, fmt.tail, args)
    else .ok (precision, true, fmt, args)
  else .ok (0, false, fmt, args)

/-- `lenght_modifiers` -/
def lengthModifiers : List (List Char × Length) :=
  [(['h', 'h'], .char), (['l', 'l'], .longLong), (['h'], .short), (['l'], .long), (['j'], .intMax), (['z'], .sizeT),
    (['t'], .ptrDiffT)]

def readLength (fmt : List UInt8) : Length × List UInt8 :=
  match lengthModifiers.find? fun modifier => (modifier.1.map Char.toUInt8).isPrefixOf fmt with
  | some (str, key) => (key, fmt.drop str.length)
  | none => (.int, fmt)

/-- A specification up to its conversion character. -/
def readSpec (fmt : List UInt8) (args : List Arg) : Except Fault (Spec × List UInt8 × List Arg) := do
  let (flags, fmt) := readFlags fmt ⟨false, false, false, false, false, false⟩
  let (width, flags, fmt, args) ← readWidth flags fmt args
  let (precision, haveDot, fmt, args) ← readPrecision fmt args
  let havePrecision := haveDot && decide (0 < precision)
  let flags := { flags with fillWithZero := if havePrecision then false else flags.fillWithZero }
  let (length, fmt) := readLength fmt
  .ok ({ flags, width, precision, haveDot, havePrecision, length }, fmt, args)

end Reading

section Conversions

/-- The number of a numeric conversion and whether it was negative. -/
def fetchNumber (isSigned : Bool) (length : Length) (args : List Arg) : Except Fault (UInt64 × Bool × List Arg) := do
  let (value, args) ← vaWord args
  if isSigned then
    let signum := signed length.argBits value.toNat
    .ok (UInt64.ofNat (toSize (if signum < 0 then -signum else signum)), decide (signum < 0), args)
  else .ok (UInt64.ofNat (value.toNat % 2 ^ length.argBits), false, args)

/-- `sign` -/
def signText (flags : Flags) (isSigned negative : Bool) : Option (List UInt8) :=
  if isSigned && (negative || flags.alwaysAddSign || flags.addSpace) then
    some [if negative then '-'.toUInt8 else if flags.alwaysAddSign then '+'.toUInt8 else ' '.toUInt8]
  else none

/-- `prefix` -/
def prefixText (flags : Flags) (isSigned : Bool) (c : UInt8) (number : UInt64) : Option (List UInt8) :=
  if !isSigned && flags.alternateForm && number != 0 then
    some (if c = 'o'.toUInt8 then ['0'.toUInt8]
      else if c = 'X'.toUInt8 then ['0'.toUInt8, 'X'.toUInt8] else ['0'.toUInt8, 'x'.toUInt8])
  else none

/-- A text that is printed where there is one, with its terminator behind it. -/
def putsText (text : Option (List UInt8)) : List Command :=
  match text with
  | some s => [.puts (s ++ [0]) s.length]
  | none => []

/-- The output statements of a numeric conversion. -/
def numberCommands (spec : Spec) (sign lead : Option (List UInt8)) (zero : Bool) (numbuf : List UInt8) (numlen : Int) :
    List Command :=
  let flags := spec.flags
  let precisionWithPrefix := if spec.precision < numlen then numlen else spec.precision
  let precisionWithPrefix := toInt (precisionWithPrefix + (sign.getD []).length + (lead.getD []).length)
  let signs := putsText sign ++ putsText lead
  (if flags.leftJustify then []
    else (if flags.fillWithZero then signs else []) ++
      if precisionWithPrefix < spec.width then [.pad flags.fillWithZero (spec.width - precisionWithPrefix)] else []) ++
  (if flags.fillWithZero then [] else signs) ++
  (if spec.havePrecision && decide (0 < spec.precision) || !spec.havePrecision then
    (if numlen < spec.precision then [.pad true (spec.precision - numlen)] else []) ++
      if spec.haveDot && decide (spec.precision = 0) && zero then
        [.puts ((numbuf.set 0 ' '.toUInt8).set 1 0) 1]
      else [.puts numbuf (toSize numlen)]
  else []) ++
  if precisionWithPrefix < spec.width && flags.leftJustify then [.pad false (spec.width - precisionWithPrefix)] else []

/-- `case 'p'` to `case 'X'` -/
def convertInteger (spec : Spec) (c : UInt8) (args : List Arg) : Except Fault (List Command × List Arg) := do
  let spec := if c = 'p'.toUInt8 then
      { spec with flags := { spec.flags with alternateForm := true }, length := .ptrDiffT }
    else spec
  let base := if c = 'o'.toUInt8 then 8
    else if c = 'X'.toUInt8 ∨ c = 'x'.toUInt8 ∨ c = 'p'.toUInt8 then 16 else 10
  let isSigned := decide (c = 'd'.toUInt8 ∨ c = 'i'.toUInt8)
  let (number, negative, args) ← fetchNumber isSigned spec.length args
  let numbuf := convertNumber (List.replicate (maxNumberLen + 1) 0) maxNumberLen number base (decide (c = 'X'.toUInt8))
  let numlen ← strlen numbuf
  .ok (numberCommands spec (signText spec.flags isSigned negative) (prefixText spec.flags isSigned c number)
    (number == 0) numbuf (toInt numlen), args)

/-- What pads the text of `%c` and `%s` on one side. -/
def padSide (side : Bool) (text width : Int) : List Command :=
  if side && decide (text < width) then [.pad false (width - text)] else []

/-- `case 'c'` -/
def convertChar (spec : Spec) (args : List Arg) : Except Fault (List Command × List Arg) := do
  let (value, args) ← vaInt args
  .ok (padSide (!spec.flags.leftJustify) 1 spec.width ++ [.puts [UInt8.ofNat (value % 256).toNat] 1] ++
    padSide spec.flags.leftJustify 1 spec.width, args)

/-- `strlen` of an argument, 0 for a null pointer. -/
def stringLength (string : Option (List UInt8)) : Except Fault Int :=
  match string with
  | some array => (strlen array).map fun len => toInt len
  | none => .ok 0

/-- The precision of `%s`: how many bytes of the string are printed. -/
def stringPrecision (spec : Spec) (string : Option (List UInt8)) : Except Fault Int :=
  if !spec.havePrecision then
    if spec.haveDot then .ok 0 else stringLength string
  else (stringLength string).map fun len => if spec.precision < len then spec.precision else len

/-- `case 's'` -/
def convertString (spec : Spec) (args : List Arg) : Except Fault (List Command × List Arg) := do
  let (string, args) ← vaString args
  let precision ← stringPrecision spec string
  .ok (padSide (!spec.flags.leftJustify) precision spec.width ++
    (if precision ≠ 0 then [.puts (string.getD []) (toSize precision)] else []) ++
    padSide spec.flags.leftJustify precision spec.width, args)

/-- `case 'n'` -/
def convertCount (spec : Spec) (args : List Arg) : Except Fault (List Command × List Arg) := do
  let (address, args) ← vaVariable args
  .ok ([.store spec.length address], args)

/-- The switch over the conversion character. An invalid specification, of `len` bytes
from `start` on, is printed as it is. -/
def convert (spec : Spec) (c : UInt8) (start : List UInt8) (len : Nat) (args : List Arg) :
    Except Fault (List Command × List Arg) :=
  if c ∈ ['p', 'd', 'i', 'o', 'u', 'x', 'X'].map Char.toUInt8 then convertInteger spec c args
  else if c = 'c'.toUInt8 then convertChar spec args
  else if c = 's'.toUInt8 then convertString spec args
  else if c = 'n'.toUInt8 then convertCount spec args
  else .ok ([.puts start len], args)

end Conversions

section Loop

/-- The text up to the next conversion, and what is behind it. -/
def literal (fmt : List UInt8) : List Command × List UInt8 :=
  match fmt with
  | [] => ([], [])
  | c :: rest =>
    if c ≠ '%'.toUInt8 then
      let skiplen := 1 + (rest.takeWhile (· != '%'.toUInt8)).length
      ([.puts (fmt ++ [0]) skiplen], fmt.drop skiplen)
    else ([], fmt)

/-- One conversion, from behind its `%` on, and what of the format and of the arguments
is left. A specification that the end of the format cuts off is printed with the
terminator, and the loop goes on behind it. -/
def conversion (fmt : List UInt8) (args : List Arg) : List Command × Except Fault (List UInt8 × List Arg) :=
  if fmt.head? = some '%'.toUInt8 then ([.puts (fmt ++ [0]) 1], .ok (fmt.tail, args))
  else
    let start := '%'.toUInt8 :: fmt
    match readSpec fmt args with
    | .error fault => ([], .error fault)
    | .ok (_, [], _) => ([.puts (start ++ [0]) (start.length + 1)], .error .formatEnd)
    | .ok (spec, c :: rest, args) =>
      match convert spec c (start ++ [0]) (start.length - rest.length) args with
      | .error fault => ([], .error fault)
      | .ok (commands, args) => (commands, .ok (rest, args))

/-- The main loop. Every pass takes something from the format, so no more passes than
it has bytes are made. -/
def script : Nat → List UInt8 → List Arg → List Command × Except Fault Unit
  | 0, _, _ => ([], .ok ())
  | limit + 1, fmt, args =>
    if fmt = [] then ([], .ok ())
    else
      let (text, fmt) := literal fmt
      if fmt = [] then (text, .ok ())
      else
        let (commands, next) := conversion fmt.tail args
        match next with
        | .error fault => (text ++ commands, .error fault)
        | .ok (fmt, args) =>
          let (later, finish) := script limit fmt args
          (text ++ commands ++ later, finish)

end Loop

section Output

variable {σ : Type}

/-- `cb`, with the bytes it can read and the length it is given. -/
abbrev Callback (σ : Type) := σ → List UInt8 → Nat → Nat × σ

/-- A call of the callback and what it returned, or what a `%n` wrote. -/
inductive Event where
  | call (s : List UInt8) (l returned : Nat)
  | store (length : Length) (address : Nat) (value : Int)
  deriving DecidableEq, Repr

/-- The state of the callback, the count, and (auxiliary) all that happened so far. -/
structure Printer (σ : Type) where
  p : σ
  produced : UInt64
  trace : List Event

def Printer.call (cb : Callback σ) (x : Printer σ) (s : List UInt8) (l : Nat) : Nat × Printer σ :=
  let (returned, p) := cb x.p s l
  (returned, { x with p, trace := x.trace ++ [.call s l returned] })

/-- `fill_zero` and `fill_space` -/
def filler (useZero : Bool) : List UInt8 := List.replicate 40 (if useZero then '0'.toUInt8 else ' '.toUInt8) ++ [0]

def fillSize : Nat := 40

/-- The loop of `pad_string`, for at most the given number of passes. -/
def padFrom (cb : Callback σ) (useZero : Bool) : Nat → Nat → Int → Printer σ → Int × Printer σ
  | 0, _, rc, x => (rc, x)
  | limit + 1, len, rc, x =>
    if len = 0 then (rc, x)
    else if len < fillSize then
      let (returned, x) := x.call cb (filler useZero) len
      (if returned ≠ len then -1 else toInt (rc + len), x)
    else
      let (returned, x) := x.call cb (filler useZero) fillSize
      if returned ≠ fillSize then (-1, x) else padFrom cb useZero limit (len - fillSize) (toInt (rc + fillSize)) x

def padString (cb : Callback σ) (useZero : Bool) (len : Nat) (x : Printer σ) : Int × Printer σ :=
  padFrom cb useZero (len / fillSize + 1) len 0 x

/-- Carry out one statement; `false` where it makes `_vcbprintf` return -1. -/
def Command.perform (cb : Callback σ) (command : Command) (x : Printer σ) : Bool × Printer σ :=
  match command with
  | .puts s l =>
    let (returned, x) := x.call cb s l
    if returned ≠ l then (false, x) else (true, { x with produced := x.produced + UInt64.ofNat l })
  | .pad useZero len =>
    let len := toInt len
    let (rc, x) := padString cb useZero (toSize len) x
    if rc ≠ len then (false, x) else (true, { x with produced := x.produced + UInt64.ofNat (toSize len) })
  | .store length address =>
    (true, { x with trace := x.trace ++ [.store length address (length.stored x.produced.toNat)] })

/-- Carry out statements until one fails. -/
def performAll (cb : Callback σ) : List Command → Printer σ → Bool × Printer σ
  | [], x => (true, x)
  | command :: commands, x =>
    let (success, x) := command.perform cb x
    if success then performAll cb commands x else (false, x)

/-- `_vcbprintf`: the result, if it comes to one, and what has happened by then. -/
def vcbprintf (cb : Callback σ) (p : σ) (fmt : List UInt8) (args : List Arg) : Except Fault Int × Printer σ :=
  let (commands, finish) := script fmt.length fmt args
  let (success, x) := performAll cb commands ⟨p, 0, []⟩
  if success then (finish.map fun _ => toInt x.produced.toNat, x) else (.ok (-1), x)

end Output

end Hotarubi.Lib.Vcbprintf
