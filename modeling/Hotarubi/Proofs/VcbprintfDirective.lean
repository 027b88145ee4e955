import Hotarubi.Proofs.VcbprintfNumber
import Hotarubi.Proofs.VcbprintfOutput

/-! How a conversion specification is read. What the loops over its bytes come to has
a closed form, and so has the text of a numeric conversion. -/

namespace Hotarubi.Lib.Vcbprintf
open Base.Numeral

section Closed

/-- The width that a specification is carried out with. -/
def Width.field (width : Width) : Int := toInt width.value.natAbs

/-- The precision that a specification is carried out with. -/
def Precision.field (precision : Precision) : Int := toInt (max 0 (precision.value.getD 0))

def Flags.collected (start : Flags) (flags : List Flag) : Flags :=
  { separateThousands := start.separateThousands || decide (.separate ∈ flags)
    leftJustify := start.leftJustify || decide (.minus ∈ flags)
    alwaysAddSign := start.alwaysAddSign || decide (.plus ∈ flags)
    addSpace := start.addSpace || decide (.space ∈ flags)
    alternateForm := start.alternateForm || decide (.hash ∈ flags)
    fillWithZero := (start.fillWithZero || decide (.zero ∈ flags)) && !(start.leftJustify || decide (.minus ∈ flags)) }

def Directive.spec (d : Directive) : Spec :=
  { flags :=
      { separateThousands := decide (.separate ∈ d.flags)
        leftJustify := decide (.minus ∈ d.flags) || decide (d.width.value < 0)
        alwaysAddSign := decide (.plus ∈ d.flags)
        addSpace := decide (.space ∈ d.flags)
        alternateForm := decide (.hash ∈ d.flags)
        fillWithZero := decide (.zero ∈ d.flags ∧ .minus ∉ d.flags ∧ ¬0 < d.precision.field) }
    width := d.width.field
    precision := d.precision.field
    haveDot := d.precision.value.isSome
    havePrecision := decide (0 < d.precision.field)
    length := d.length }

end Closed

section Bytes

variable {fmt : List UInt8} {c : UInt8}

/-- The conversion characters of numbers, pointers, characters and strings. -/
def conversionHeads : List UInt8 := ['d', 'i', 'o', 'u', 'x', 'X', 's', 'p', 'c'].map Char.toUInt8

/-- What a length modifier with a conversion character behind it can begin with, and
then what a precision and a width in front of these can. -/
def lengthHeads : List UInt8 := ['h', 'l', 'j', 'z', 't'].map Char.toUInt8 ++ conversionHeads

def precisionHeads : List UInt8 := '.'.toUInt8 :: lengthHeads

def widthHeads : List UInt8 :=
  ['*', '1', '2', '3', '4', '5', '6', '7', '8', '9'].map Char.toUInt8 ++ precisionHeads

def Begins (heads fmt : List UInt8) : Prop := ∃ c ∈ heads, ∃ tail, fmt = c :: tail

theorem Begins.mono {heads wider : List UInt8} (begins : Begins heads fmt) (subset : heads ⊆ wider) : Begins wider fmt := by
  obtain ⟨c, member, tail, rfl⟩ := begins
  exact ⟨c, subset member, tail, rfl⟩

private theorem Begins.head_ne {heads : List UInt8} (begins : Begins heads fmt) (other : c ∉ heads) :
    fmt.head? ≠ some c := by
  obtain ⟨d, member, tail, rfl⟩ := begins
  rw [List.head?_cons, ne_eq, Option.some.injEq]
  rintro rfl
  exact other member

private theorem length_begins (length : Length) (member : c ∈ conversionHeads) (rest : List UInt8) :
    Begins lengthHeads (length.text ++ c :: rest) := by
  cases length with
  | int => exact ⟨c, List.mem_append_right _ member, rest, rfl⟩
  | _ => exact ⟨_, by decide, _, rfl⟩

private theorem precision_begins (precision : Precision) (begins : Begins lengthHeads fmt) :
    Begins precisionHeads (precision.text ++ fmt) := by
  cases precision with
  | absent => exact begins.mono (List.subset_cons_self _ _)
  | _ => exact ⟨'.'.toUInt8, List.mem_cons_self, _, rfl⟩

private theorem digit_toNat (digit : Fin 10) : (UInt8.ofNat (48 + digit)).toNat = 48 + digit := by
  have small := digit.isLt
  rw [UInt8.toNat_ofNat']
  omega

private theorem first_begins {first : Fin 10} (significant : first ≠ 0) : UInt8.ofNat (48 + first) ∈ widthHeads := by
  decide +revert

private theorem width_begins (width : Width) (begins : Begins precisionHeads fmt) : Begins widthHeads
    (width.text ++ fmt) := by
  cases width with
  | absent => exact begins.mono (List.subset_append_right _ _)
  | literal first rest significant => exact ⟨_, first_begins significant, _, rfl⟩
  | star argument => exact ⟨'*'.toUInt8, by decide, _, rfl⟩

end Bytes

section Reading

variable {fmt : List UInt8} {args : List Arg}

/-- What the loop does for one flag. -/
def Flags.turn (start : Flags) : Flag → Flags
  | .separate => { start with separateThousands := true }
  | .minus => { start with leftJustify := true, fillWithZero := false }
  | .plus => { start with alwaysAddSign := true }
  | .space => { start with addSpace := true }
  | .hash => { start with alternateForm := true }
  | .zero => if !start.leftJustify then { start with fillWithZero := true } else start

private theorem readFlags_flag (flag : Flag) (fmt : List UInt8) (start : Flags) :
    readFlags (flag.char.toUInt8 :: fmt) start = readFlags fmt (start.turn flag) := by
  cases flag <;> rfl

private theorem readFlags_other {c : UInt8} (other : ∀ flag : Flag, c ≠ flag.char.toUInt8) (fmt : List UInt8)
    (start : Flags) :
    readFlags (c :: fmt) start = (start, c :: fmt) := by
  have separate : c ≠ '\''.toUInt8 := other .separate
  have minus : c ≠ '-'.toUInt8 := other .minus
  have plus : c ≠ '+'.toUInt8 := other .plus
  have space : c ≠ ' '.toUInt8 := other .space
  have hash : c ≠ '#'.toUInt8 := other .hash
  have zero : c ≠ '0'.toUInt8 := other .zero
  rw [readFlags, if_neg separate, if_neg minus, if_neg plus, if_neg space, if_neg hash, if_neg zero]

/-- `left_justify` and `fill_with_zero` are never both set by the flags. -/
def Flags.Apart (flags : Flags) : Prop := flags.leftJustify = true → flags.fillWithZero = false

theorem Flags.Apart.turn {start : Flags} (apart : start.Apart) (flag : Flag) : (start.turn flag).Apart := by
  obtain ⟨separate, left, plus, space, hash, zero⟩ := start
  cases flag <;> cases left <;> cases zero <;> simp_all [Flags.Apart, Flags.turn]

private theorem collected_nil {start : Flags} (apart : start.Apart) : start.collected [] = start := by
  obtain ⟨separate, left, plus, space, hash, zero⟩ := start
  cases left <;> cases zero <;> simp_all [Flags.Apart, Flags.collected]

private theorem collected_turn (start : Flags) (flag : Flag) (flags : List Flag) :
    (start.turn flag).collected flags = start.collected (flag :: flags) := by
  obtain ⟨separate, left, plus, space, hash, zero⟩ := start
  cases flag <;> cases left <;> cases zero <;> simp [Flags.turn, Flags.collected]

/-- All that the loop keeps of some flags is which ones there are. -/
theorem readFlags_text (flags : List Flag) (fmt : List UInt8) {start : Flags} (apart : start.Apart) :
    readFlags (flags.map (fun flag => flag.char.toUInt8) ++ fmt) start = readFlags fmt (start.collected flags) := by
  induction flags generalizing start with
  | nil => rw [collected_nil apart, List.map_nil, List.nil_append]
  | cons flag flags ih =>
    rw [List.map_cons, List.cons_append, readFlags_flag, ih (apart.turn flag), collected_turn]

private theorem readFlags_eq (flags : List Flag) (begins : Begins widthHeads fmt) {start : Flags} (apart : start.Apart) :
    readFlags (flags.map (fun flag => flag.char.toUInt8) ++ fmt) start = (start.collected flags, fmt) := by
  obtain ⟨c, member, tail, rfl⟩ := begins
  have plain (flag : Flag) : ∀ c ∈ widthHeads, c ≠ flag.char.toUInt8 := by
    apply (List.forall_iff_forall_mem (p := fun c => c ≠ flag.char.toUInt8)).mp
    cases flag <;> decide
  rw [readFlags_text flags _ apart]
  exact readFlags_other (fun flag => plain flag c member) tail _

theorem toInt_zero : toInt 0 = 0 := by simp [toInt_eq]

private theorem toInt_step (n : Int) (digit : Nat) : toInt (toInt n * 10 + (48 + digit) - 48) = toInt (n * 10 + digit) := by
  simp only [toInt_eq]
  omega

private theorem readNumber_stop {heads : List UInt8} (begins : Begins heads fmt)
    (none : ∀ c ∈ heads, ¬('0'.toUInt8 ≤ c ∧ c ≤ '9'.toUInt8)) (n : Int) : readNumber n fmt = (n, fmt) := by
  obtain ⟨c, member, tail, rfl⟩ := begins
  rw [readNumber, if_neg (none c member)]

private theorem readNumber_literal (digits : Literal) (start : Nat) (stop : ∀ n, readNumber n fmt = (n, fmt)) :
    readNumber (toInt start) (digits.text ++ fmt) = (toInt (horner 10 start (digits.map Fin.val)), fmt) := by
  induction digits generalizing start with
  | nil => exact stop _
  | cons digit digits ih =>
    have small := digit.isLt
    have value := digit_toNat digit
    have isDigit : '0'.toUInt8 ≤ UInt8.ofNat (48 + digit) ∧ UInt8.ofNat (48 + digit) ≤ '9'.toUInt8 := by
      rw [UInt8.le_iff_toNat_le, UInt8.le_iff_toNat_le, value]
      have nine : digit.val ≤ 9 := by omega
      exact ⟨Nat.le_add_right 48 _, Nat.add_le_add_left nine 48⟩
    have next := toInt_step start digit
    rw [Literal.text, List.map_cons, List.cons_append, readNumber, if_pos isDigit, value]
    push_cast at next ⊢
    rw [next]
    exact_mod_cast ih (start * 10 + digit)

private theorem readNumber_value (digits : Literal) (stop : ∀ n, readNumber n fmt = (n, fmt)) :
    readNumber 0 (digits.text ++ fmt) = (toInt digits.value, fmt) := by
  have value := readNumber_literal digits 0 stop
  rwa [Nat.cast_zero, toInt_zero] at value

private theorem readNumber_star (fmt : List UInt8) : readNumber 0 ('*'.toUInt8 :: fmt) = (0, '*'.toUInt8 :: fmt) := by
  rw [readNumber, if_neg (by decide)]

theorem vaInt_word (argument : UInt64) (args : List Arg) :
    vaInt (.word argument :: args) = .ok (toInt argument.toNat, args) := rfl

private theorem toInt_toInt (n : Int) : toInt (toInt n) = toInt n := by
  simp only [toInt_eq]
  omega

private theorem toInt_clamp (n : Int) : (if toInt n < 0 then 0 else toInt n) = toInt (max 0 (toInt n)) := by
  split
  next negative => rw [max_eq_left (Int.le_of_lt negative), toInt_zero]
  next positive => rw [max_eq_right (Int.not_lt.mp positive), toInt_toInt]

private theorem readWidth_eq (width : Width) (begins : Begins precisionHeads fmt) (flags : Flags) :
    readWidth flags (width.text ++ fmt) (width.args ++ args) =
      .ok (width.field, { flags with leftJustify := flags.leftJustify || decide (width.value < 0) }, fmt, args) := by
  have stop := readNumber_stop begins (List.forall_iff_forall_mem.mp (by decide))
  have notStar := begins.head_ne (c := '*'.toUInt8) (by decide)
  cases width with
  | absent =>
    simp only [Width.text, Width.args, List.nil_append, readWidth, stop, if_neg notStar]
    simp [Width.field, Width.value, toInt_zero]
  | literal first rest significant =>
    have digits := readNumber_value (first :: rest) stop
    have positive : ¬((Literal.value (first :: rest) : Nat) : Int) < 0 := by omega
    simp only [Width.text, Width.args, List.nil_append, readWidth, digits, if_neg notStar]
    simp only [Width.field, Width.value, positive, decide_false, Bool.or_false, Int.natAbs_natCast]
  | star argument =>
    simp only [Width.text, Width.args, List.cons_append, List.nil_append, readWidth, readNumber_star,
      List.head?_cons, if_true]
    refine bind_ok.mpr ⟨_, vaInt_word argument args, ?_⟩
    simp only [List.tail_cons]
    split
    next negative =>
      have size : ((toInt argument.toNat).natAbs : Int) = -toInt argument.toNat := by omega
      simp only [Width.field, Width.value, size, negative, decide_true, Bool.or_true]
    next positive =>
      have size : ((toInt argument.toNat).natAbs : Int) = toInt argument.toNat := by omega
      simp only [Width.field, Width.value, size, toInt_toInt, positive, decide_false, Bool.or_false]

private theorem readPrecision_eq (precision : Precision) (begins : Begins lengthHeads fmt) :
    readPrecision (precision.text ++ fmt) (precision.args ++ args) =
      .ok (precision.field, precision.value.isSome, fmt, args) := by
  have stop := readNumber_stop begins (List.forall_iff_forall_mem.mp (by decide))
  cases precision with
  | absent =>
    have notDot := begins.head_ne (c := '.'.toUInt8) (by decide)
    rw [Precision.text, Precision.args, List.nil_append, List.nil_append, readPrecision, if_neg notDot, Precision.field,
      Precision.value, Option.getD_none, max_self, toInt_zero]
    rfl
  | literal literal =>
    have notStar := begins.head_ne (c := '*'.toUInt8) (by decide)
    have digits := readNumber_value literal stop
    have positive : max 0 ((literal.value : Nat) : Int) = literal.value := by omega
    simp only [Precision.text, Precision.args, List.cons_append, List.nil_append, readPrecision, List.head?_cons, if_true,
      List.tail_cons, digits, if_neg notStar]
    simp only [Precision.field, Precision.value, Option.getD_some, positive, Option.isSome_some]
  | star argument =>
    simp only [Precision.text, Precision.args, List.cons_append, List.nil_append, readPrecision, List.head?_cons, if_true,
      List.tail_cons, readNumber_star]
    refine bind_ok.mpr ⟨_, vaInt_word argument args, ?_⟩
    rw [Precision.field, Precision.value, Option.getD_some, ← toInt_clamp]
    rfl

private theorem readLength_eq (length : Length) {c : UInt8} (member : c ∈ conversionHeads) (rest : List UInt8) :
    readLength (length.text ++ c :: rest) = (length, c :: rest) := by
  simp only [conversionHeads, List.map_cons, List.map_nil, List.mem_cons, List.not_mem_nil, or_false] at member
  rcases member with rfl | rfl | rfl | rfl | rfl | rfl | rfl | rfl | rfl
  all_goals
    cases length <;> rfl

/-- A specification is read as what it says. -/
theorem readSpec_eq (d : Directive) {c : UInt8} (member : c ∈ conversionHeads) (value : Arg) :
    readSpec (d.body ++ [c]) (d.args value) = .ok (d.spec, [c], [value]) := by
  have lengthRead := length_begins d.length member []
  have precisionRead := precision_begins d.precision lengthRead
  have widthRead := width_begins d.width precisionRead
  have apart : Flags.Apart ⟨false, false, false, false, false, false⟩ := fun _ => rfl
  have flags := readFlags_eq d.flags widthRead apart
  unfold readSpec Directive.body Directive.args
  simp only [List.append_assoc, flags]
  refine bind_ok.mpr ⟨_, readWidth_eq d.width precisionRead _, bind_ok.mpr ⟨_, readPrecision_eq d.precision lengthRead, ?_⟩⟩
  have absent : d.precision.value.isSome = false → d.precision.field = 0 := by
    intro none
    rw [Precision.field, Option.isNone_iff_eq_none.mp (Option.isSome_eq_false_iff.mp none), Option.getD_none, max_self,
      toInt_zero]
  simp only [readLength_eq d.length member [], Flags.collected, Directive.spec]
  cases dot : d.precision.value.isSome with
  | false => simp [absent dot]
  | true => by_cases positive : 0 < d.precision.field <;> simp [positive]

end Reading

section Printing

/-- The text of a numeric conversion: `total` is `precision_with_prefix`, and a zero with
a precision of zero is printed as a space. -/
def numberText (spec : Spec) (lead digits : List UInt8) (zero : Bool) : List UInt8 :=
  let total := toInt (max spec.precision digits.length + lead.length)
  let missing := if total < spec.width then toSize (toInt (spec.width - total)) else 0
  let number := zeros (spec.precision - digits.length).toNat ++
    if spec.haveDot && decide (spec.precision = 0) && zero then spaces 1 else digits
  if spec.flags.leftJustify then (if spec.flags.fillWithZero then [] else lead) ++ number ++ spaces missing
  else if spec.flags.fillWithZero then lead ++ zeros missing ++ number
  else spaces missing ++ lead ++ number

theorem toSize_toInt {n : Int} (positive : 0 ≤ n) (small : n < 2 ^ 31) : toSize (toInt n) = n.toNat := by
  rw [toInt_eq, toSize_eq]
  omega

private theorem putsText_bytes (text : Option (List UInt8)) : (putsText text).flatMap Command.bytes = text.getD [] := by
  cases text <;> simp [putsText, Command.bytes]

theorem pad_bytes (useZero : Bool) (total width : Int) :
    (if total < width then [Command.pad useZero (width - total)] else []).flatMap Command.bytes =
      List.replicate (if total < width then toSize (toInt (width - total)) else 0)
        (if useZero then '0'.toUInt8 else ' '.toUInt8) := by
  split <;> simp [Command.bytes]

private theorem digits_bytes {digits : List UInt8} (behind : List UInt8) {precision : Int} (blank : Bool)
    (bound : precision < 2 ^ 31) (positive : 0 < digits.length) (short : digits.length ≤ 64) :
    ((if (digits.length : Int) < precision then [Command.pad true (precision - digits.length)] else []) ++
        if blank then [Command.puts (((digits ++ 0 :: behind).set 0 ' '.toUInt8).set 1 0) 1]
        else [Command.puts (digits ++ 0 :: behind) (toSize digits.length)]).flatMap Command.bytes =
      zeros (precision - digits.length).toNat ++ if blank then spaces 1 else digits := by
  rw [List.flatMap_append, pad_bytes]
  congr 1
  · split
    next more => rw [toSize_toInt (by omega) (by omega), if_pos rfl, zeros]
    next less => rw [Int.toNat_of_nonpos (by omega), if_pos rfl, zeros]
  · have size : toSize digits.length = digits.length := by
      rw [toSize_eq]
      omega
    rw [size]
    cases digits with
    | nil => simp at positive
    | cons c digits => cases blank <;> simp [Command.bytes, spaces]

private theorem numberCommands_bytes {spec : Spec} (precise : spec.havePrecision = decide (0 < spec.precision))
    (bound : spec.precision < 2 ^ 31) (sign lead : Option (List UInt8)) (zero : Bool) {digits : List UInt8}
    (behind : List UInt8) (positive : 0 < digits.length) (short : digits.length ≤ 64) :
    (numberCommands spec sign lead zero (digits ++ 0 :: behind) (toInt digits.length)).flatMap Command.bytes =
      numberText spec (sign.getD [] ++ lead.getD []) digits zero := by
  have numlen : toInt digits.length = digits.length := toInt_small (by omega)
  have always : (spec.havePrecision && decide (0 < spec.precision) || !spec.havePrecision) = true := by
    rw [precise]
    cases decide (0 < spec.precision) <;> rfl
  have larger : (if spec.precision < digits.length then (digits.length : Int) else spec.precision) =
      max spec.precision digits.length := by
    split <;> omega
  have number := digits_bytes behind (spec.haveDot && decide (spec.precision = 0) && zero) bound positive short
  have signs : (putsText sign ++ putsText lead).flatMap Command.bytes = sign.getD [] ++ lead.getD [] := by
    rw [List.flatMap_append, putsText_bytes, putsText_bytes]
  have length : max spec.precision digits.length + ((sign.getD []).length : Int) + (lead.getD []).length =
      max spec.precision digits.length + ((sign.getD [] ++ lead.getD []).length : Int) := by
    rw [List.length_append]
    push_cast
    omega
  simp only [numberCommands, numberText, numlen, always, if_true, larger, length]
  rw [List.flatMap_append, List.flatMap_append, List.flatMap_append, number]
  cases left : spec.flags.leftJustify with
  | true =>
    simp only [if_true, Bool.and_true, decide_eq_true_eq, pad_bytes, List.flatMap_nil, List.nil_append]
    cases spec.flags.fillWithZero <;> simp [signs, spaces]
  | false =>
    simp only [Bool.false_eq_true, if_false, Bool.and_false, List.flatMap_append, pad_bytes, List.flatMap_nil,
      List.append_nil]
    cases spec.flags.fillWithZero <;> simp [signs, spaces, zeros]

/-- The argument as it is fetched: only where the length is at least that of `int` is
it the value that C99 converts. -/
def Conversion.fetched (conversion : Conversion) (length : Length) (argument : UInt64) : Int :=
  if conversion.signed then Vcbprintf.signed length.argBits argument.toNat else argument.toNat % 2 ^ length.argBits

/-- Sign and prefix as they are printed. -/
def Directive.lead (d : Directive) (conversion : Conversion) (value : Int) : List UInt8 :=
  (signText d.spec.flags conversion.signed (decide (value < 0))).getD [] ++
    (prefixText d.spec.flags conversion.signed conversion.char.toUInt8 (UInt64.ofNat value.natAbs)).getD []

private theorem signed_bounds (length : Length) (n : Int) :
    -9223372036854775808 ≤ signed length.argBits n ∧ signed length.argBits n < 9223372036854775808 := by
  cases length <;> simp [signed, Length.argBits, Length.bits] <;> omega

theorem fetched_natAbs (conversion : Conversion) (length : Length) (argument : UInt64) :
    (conversion.fetched length argument).natAbs < 2 ^ 64 := by
  have bounds := signed_bounds length argument.toNat
  have small := argument.toNat_lt
  have less : argument.toNat % 2 ^ length.argBits ≤ argument.toNat := Nat.mod_le _ _
  unfold Conversion.fetched
  split
  next => omega
  next => exact_mod_cast Nat.lt_of_le_of_lt less small

private theorem fetchNumber_eq (conversion : Conversion) (length : Length) (argument : UInt64) :
    fetchNumber conversion.signed length [.word argument] =
      .ok (UInt64.ofNat (conversion.fetched length argument).natAbs, decide
        (conversion.fetched length argument < 0), []) := by
  have bounds := signed_bounds length argument.toNat
  unfold fetchNumber Conversion.fetched
  refine bind_ok.mpr ⟨(argument, []), rfl, ?_⟩
  cases conversion.signed with
  | true =>
    simp only [if_true]
    have size : toSize (if Vcbprintf.signed length.argBits argument.toNat < 0 then
        -Vcbprintf.signed length.argBits argument.toNat else Vcbprintf.signed length.argBits argument.toNat) =
        (Vcbprintf.signed length.argBits argument.toNat).natAbs := by
      rw [toSize_eq]
      split <;> omega
    rw [size]
  | false =>
    have positive : ¬((argument.toNat % 2 ^ length.argBits : Nat) : Int) < 0 := by omega
    simp only [Bool.false_eq_true, if_false]
    norm_cast

private theorem body_head (d : Directive) {c : UInt8} (member : c ∈ conversionHeads) (rest : List UInt8) :
    (d.body ++ c :: rest).head? ≠ some '%'.toUInt8 := by
  have behind := width_begins d.width (precision_begins d.precision (length_begins d.length member rest))
  rw [Directive.body, List.append_assoc, List.append_assoc, List.append_assoc]
  cases d.flags with
  | nil => exact behind.head_ne (by decide)
  | cons flag flags =>
    have other : ∀ flag : Flag, flag.char.toUInt8 ≠ '%'.toUInt8 := by
      intro flag
      cases flag <;> decide
    simpa using other flag

private theorem directive_conversion (d : Directive) {c : Char} (member : c.toUInt8 ∈ conversionHeads) (value : Arg) :
    ∃ start len, conversion (d.body ++ [c.toUInt8]) (d.args value) =
      match convert d.spec c.toUInt8 start len [value] with
      | .error fault => ([], .error fault)
      | .ok (commands, left) => (commands, .ok ([], left)) := by
  refine ⟨'%'.toUInt8 :: (d.body ++ [c.toUInt8]) ++ [0], ('%'.toUInt8 :: (d.body ++ [c.toUInt8])).length, ?_⟩
  unfold conversion
  rw [if_neg (body_head d member [])]
  rw [readSpec_eq d member value]
  rfl

/-- What a directive prints is what `convert` makes of it. -/
theorem directive_text (d : Directive) {c : Char} (member : c.toUInt8 ∈ conversionHeads) (value : Arg)
    {commands : List Command} {left : List Arg}
    (converted : ∀ start len, convert d.spec c.toUInt8 start len [value] = .ok (commands, left)) :
    text (d.format c) (d.args value) = commands.flatMap Command.bytes ∧ (printed (d.format c) (d.args value)).2 =
      .ok () := by
  obtain ⟨start, len, read⟩ := directive_conversion d member value
  rw [converted] at read
  obtain ⟨bytes, finish⟩ := text_conversion read
  rw [Directive.format, bytes, finish]
  exact ⟨List.append_nil _, rfl⟩

/-- A conversion without a result ends the reading of the format. -/
theorem directive_fault (d : Directive) {c : Char} (member : c.toUInt8 ∈ conversionHeads) (value : Arg) {fault : Fault}
    (failed : ∀ start len, convert d.spec c.toUInt8 start len [value] = .error fault) :
    (printed (d.format c) (d.args value)).2 = .error fault := by
  obtain ⟨start, len, read⟩ := directive_conversion d member value
  rw [failed] at read
  exact printed_fault read

theorem Conversion.head (conversion : Conversion) : conversion.char.toUInt8 ∈ conversionHeads := by
  cases conversion <;> decide

theorem Conversion.base_bounds (conversion : Conversion) : 1 < conversion.base ∧ conversion.base ≤ 16 := by
  cases conversion <;> decide

theorem field_bounds (precision : Precision) : -2147483648 ≤ precision.field ∧ precision.field < 2147483648 := by
  rw [Precision.field, toInt_eq]
  omega

private theorem convertInteger_eq (spec : Spec) (conversion : Conversion) (argument : UInt64) :
    let value := conversion.fetched spec.length argument
    let digits := numeral conversion.base (conversion = .X) value.natAbs
    ∃ behind, convertInteger spec conversion.char.toUInt8 [.word argument] =
      .ok (numberCommands spec (signText spec.flags conversion.signed (decide (value < 0)))
        (prefixText spec.flags conversion.signed conversion.char.toUInt8 (UInt64.ofNat value.natAbs))
        (decide (value = 0)) (digits ++ 0 :: behind) (toInt digits.length), []) := by
  intro value digits
  obtain ⟨order, limit⟩ := conversion.base_bounds
  have exact_number : (UInt64.ofNat value.natAbs).toNat = value.natAbs :=
    UInt64.toNat_ofNat_of_lt' (fetched_natAbs conversion spec.length argument)
  have zero : (UInt64.ofNat value.natAbs == 0) = decide (value = 0) := by
    rw [Bool.eq_iff_iff, beq_iff_eq, decide_eq_true_eq, ← UInt64.toNat_inj, exact_number]
    exact Int.natAbs_eq_zero
  obtain ⟨behind, buffer⟩ := convertNumber_eq (decide (conversion = .X)) order limit (UInt64.ofNat value.natAbs)
  rw [exact_number] at buffer
  have measured := strlen_eq (numeral_plain (decide (conversion = .X)) order limit value.natAbs) behind
  have base : (if conversion.char.toUInt8 = 'o'.toUInt8 then 8
      else if conversion.char.toUInt8 = 'X'.toUInt8 ∨ conversion.char.toUInt8 = 'x'.toUInt8 ∨
        conversion.char.toUInt8 = 'p'.toUInt8 then 16 else 10) = conversion.base := by
    cases conversion <;> rfl
  have isSigned : decide (conversion.char.toUInt8 = 'd'.toUInt8 ∨ conversion.char.toUInt8 = 'i'.toUInt8) =
      conversion.signed := by
    cases conversion <;> rfl
  have capitals : decide (conversion.char.toUInt8 = 'X'.toUInt8) = decide (conversion = .X) := by
    cases conversion <;> rfl
  have notPointer : conversion.char.toUInt8 ≠ 'p'.toUInt8 := by cases conversion <;> decide
  have fetched : fetchNumber conversion.signed spec.length [.word argument] =
      .ok (UInt64.ofNat value.natAbs, decide (value < 0), []) := fetchNumber_eq conversion spec.length argument
  refine ⟨behind, ?_⟩
  simp only [convertInteger, if_neg notPointer, base, isSigned, capitals]
  refine bind_ok.mpr ⟨_, fetched, ?_⟩
  simp only [buffer, zero]
  exact bind_ok.mpr ⟨_, measured, rfl⟩

/-- The text of an integer, whatever the directive says. -/
theorem integer_text (d : Directive) (conversion : Conversion) (argument : UInt64) :
    text (d.format conversion.char) (d.args (.word argument)) =
      numberText d.spec (d.lead conversion (conversion.fetched d.length argument))
        (numeral conversion.base (conversion = .X) (conversion.fetched d.length argument).natAbs)
        (decide (conversion.fetched d.length argument = 0)) := by
  obtain ⟨order, limit⟩ := conversion.base_bounds
  obtain ⟨behind, converted⟩ := convertInteger_eq d.spec conversion argument
  have number : conversion.char.toUInt8 ∈ ['p', 'd', 'i', 'o', 'u', 'x', 'X'].map Char.toUInt8 := by
    cases conversion <;> decide
  have short := numeral_length_le (decide (conversion = .X)) order
    (UInt64.ofNat (conversion.fetched d.length argument).natAbs)
  rw [UInt64.toNat_ofNat_of_lt' (fetched_natAbs conversion d.length argument)] at short
  rw [(directive_text d conversion.head (.word argument) fun _ _ => (if_pos number).trans converted).1]
  exact numberCommands_bytes rfl (field_bounds d.precision).2 _ _ _ behind (numeral_length_pos _ _ _) short

end Printing

end Hotarubi.Lib.Vcbprintf
