import Hotarubi.Proofs.VcbprintfInteger

/-! What a signed conversion says about its argument. The text is read back without its
spaces: a sign that is lost, a digit that is a space and an argument that is not
narrowed all show there. -/

namespace Hotarubi.Lib.Vcbprintf
open Base.Numeral

section Reading

variable {text : List UInt8} {n : Nat}

/-- The bytes of a decimal numeral. -/
def IsDigit (c : UInt8) : Prop := 48 ≤ c.toNat ∧ c.toNat ≤ 57

private theorem decimal_digit {caps : Bool} {place : Nat} (small : place < 10) :
    IsDigit (digit caps place) ∧ (digit caps place).toNat - 48 = place := by
  have value : (digit caps place).toNat = 48 + place := by
    rw [digit, if_pos small, UInt8.toNat_ofNat']
    omega
  rw [IsDigit, value]
  omega

private theorem zeros_digits (count : Nat) : ∀ c ∈ zeros count, IsDigit c := by
  intro c member
  rw [List.eq_of_mem_replicate member]
  exact ⟨by decide, by decide⟩

private theorem numeral_digits (caps : Bool) (n : Nat) : ∀ c ∈ numeral 10 caps n, IsDigit c := by
  intro c member
  rw [numeral_eq] at member
  obtain ⟨place, place_mem, rfl⟩ := List.mem_map.mp member
  exact (decimal_digit (places_lt (by decide) place_mem)).1

theorem zeros_append (first later : Nat) : zeros first ++ zeros later = zeros (first + later) :=
  List.replicate_append_replicate

theorem spaces_append (first later : Nat) : spaces first ++ spaces later = spaces (first + later) :=
  List.replicate_append_replicate

theorem length_spaces (count : Nat) : (spaces count).length = count := List.length_replicate

theorem zeros_none : zeros 0 = [] := rfl

theorem length_zeros (count : Nat) : (zeros count).length = count := List.length_replicate

theorem readDigits_numeral (caps : Bool) (count n : Nat) : readDigits (zeros count ++ numeral 10 caps n) = some n := by
  have digits : (zeros count ++ numeral 10 caps n).all fun c => decide (48 ≤ c.toNat ∧ c.toNat ≤ 57) := by
    refine List.all_eq_true.mpr fun c member => decide_eq_true ?_
    rcases List.mem_append.mp member with zero | place
    · exact zeros_digits count c zero
    · exact numeral_digits caps n c place
  have nonempty : zeros count ++ numeral 10 caps n ≠ [] := by
    have positive := numeral_length_pos 10 caps n
    intro nothing
    rw [List.append_eq_nil_iff.mp nothing |>.2] at positive
    exact absurd positive (Nat.lt_irrefl 0)
  have values : (numeral 10 caps n).map (fun c => c.toNat - 48) = places 10 n := by
    rw [numeral_eq, List.map_map]
    conv_rhs => rw [← List.map_id (places 10 n)]
    exact List.map_congr_left fun place member => (decimal_digit (places_lt (by decide) member)).2
  have leading : (zeros count).map (fun c => c.toNat - 48) = List.replicate count 0 := by
    rw [zeros, List.map_replicate]
    rfl
  rw [readDigits, if_pos ⟨nonempty, digits⟩, List.map_append, values, leading, horner_append, horner_zeros,
    horner_places (by decide)]

private theorem readDigits_zeros (count : Nat) : readDigits (zeros (count + 1)) = some 0 := by
  have values : (zeros (count + 1)).map (fun c => c.toNat - 48) = List.replicate (count + 1) 0 := by
    rw [zeros, List.map_replicate]
    rfl
  have digits : (zeros (count + 1)).all fun c => decide (48 ≤ c.toNat ∧ c.toNat ≤ 57) :=
    List.all_eq_true.mpr fun c member => decide_eq_true (zeros_digits (count + 1) c member)
  rw [readDigits, if_pos ⟨List.cons_ne_nil _ _, digits⟩, values, horner_zeros]

private theorem readInteger_plain (read : readDigits text = some n) : readInteger text = some (n : Int) := by
  cases text with
  | nil => simp [readDigits] at read
  | cons c text =>
    have first : IsDigit c := by
      unfold readDigits at read
      split at read
      next digits => simpa [IsDigit] using List.all_eq_true.mp digits.2 c List.mem_cons_self
      next => cases read
    have minus : c ≠ '-'.toUInt8 := by
      rintro rfl
      exact absurd first.1 (by decide)
    have plus : c ≠ '+'.toUInt8 := by
      rintro rfl
      exact absurd first.1 (by decide)
    rw [readInteger, if_neg minus, if_neg plus, read]
    rfl

theorem trimmed_append (first later : List UInt8) : trimmed (first ++ later) = trimmed first ++ trimmed later :=
  List.filter_append ..

theorem trimmed_spaces (count : Nat) : trimmed (spaces count) = [] := by
  simp [trimmed, spaces]

private theorem trimmed_digits (digits : ∀ c ∈ text, IsDigit c) : trimmed text = text := by
  refine List.filter_eq_self.mpr fun c member => decide_eq_true ?_
  rintro rfl
  exact absurd (digits _ member).1 (by decide)

theorem trimmed_zeros (count : Nat) : trimmed (zeros count) = zeros count := trimmed_digits (zeros_digits count)

private theorem trimmed_numeral (caps : Bool) (n : Nat) : trimmed (numeral 10 caps n) = numeral 10 caps n :=
  trimmed_digits (numeral_digits caps n)

/-- The sign in front of digits is read; a space that stands for one is none. -/
theorem readInteger_leader (flags : List Flag) {conversion : Conversion} (signed : conversion.signed = true) (value : Int)
    (read : readDigits text = some n) :
    readInteger (trimmed (leader flags conversion value) ++ text) = some (if value < 0 then -(n : Int) else n) := by
  have plain := readInteger_plain read
  have minus : trimmed ['-'.toUInt8] = ['-'.toUInt8] := by decide
  have plus : trimmed ['+'.toUInt8] = ['+'.toUInt8] := by decide
  have space : trimmed [' '.toUInt8] = [] := by decide
  have other : '+'.toUInt8 ≠ '-'.toUInt8 := by decide
  unfold leader
  rw [if_pos signed]
  split
  next =>
    rw [minus, List.singleton_append, readInteger, if_pos rfl, read]
    rfl
  next =>
    split
    next =>
      rw [plus, List.singleton_append, readInteger, if_neg other, if_pos rfl, read]
      rfl
    next =>
      split
      next => rwa [space, List.nil_append]
      next => exact plain

theorem readInteger_sign (flags : List Flag) {conversion : Conversion} (signed : conversion.signed = true) (value : Int) :
    readInteger (trimmed (leader flags conversion value)) = none := by
  unfold leader
  rw [if_pos signed]
  split
  next => decide
  next =>
    split
    next => decide
    next => split <;> decide

end Reading

section Shape

variable {spec : Spec} {lead digits : List UInt8} {zero : Bool}

/-- How far the field goes beyond the text in it. -/
def Spec.missing (spec : Spec) (size : Int) : Nat :=
  if toInt size < spec.width then toSize (toInt (spec.width - toInt size)) else 0

/-- The sign is printed neither in front of zeros nor in front of digits. -/
def Spec.lost (spec : Spec) : Bool := spec.flags.leftJustify && spec.flags.fillWithZero

/-- The field is filled with zeros. -/
def Spec.filled (spec : Spec) : Bool := !spec.flags.leftJustify && spec.flags.fillWithZero

/-- A zero is printed as a space. -/
def Spec.blank (spec : Spec) (zero : Bool) : Bool := spec.haveDot && decide (spec.precision = 0) && zero

theorem numberText_shape (spec : Spec) (lead digits : List UInt8) (zero : Bool) :
    let missing := spec.missing (max spec.precision digits.length + lead.length)
    let number := zeros (spec.precision - digits.length).toNat ++ if spec.blank zero then spaces 1 else digits
    numberText spec lead digits zero =
      if spec.lost then number ++ spaces missing
      else if spec.filled then lead ++ zeros missing ++ number
      else if spec.flags.leftJustify then lead ++ number ++ spaces missing
      else spaces missing ++ lead ++ number := by
  unfold numberText Spec.lost Spec.filled Spec.blank
  simp only [← Spec.missing.eq_1]
  by_cases left : spec.flags.leftJustify = true <;> by_cases fill : spec.flags.fillWithZero = true
  all_goals simp [left, fill]

/-- Without its spaces the text has the sign, the zeros of the width, those of the
precision and the digits. -/
theorem numberText_trimmed (spec : Spec) (lead digits : List UInt8) (zero : Bool) :
    trimmed (numberText spec lead digits zero) =
      (if spec.lost then [] else trimmed lead) ++
        (zeros (if spec.filled then spec.missing (max spec.precision digits.length + lead.length) else 0) ++
          (zeros (spec.precision - digits.length).toNat ++ if spec.blank zero then [] else trimmed digits)) := by
  have number : trimmed (if spec.blank zero then spaces 1 else digits) = if spec.blank zero then
    [] else trimmed digits := by
    split
    next => rw [trimmed_spaces]
    next => rfl
  have none : zeros 0 = [] := rfl
  have apart : spec.lost = true → spec.filled = false := by
    unfold Spec.lost Spec.filled
    cases spec.flags.leftJustify <;> simp
  rw [numberText_shape]
  by_cases lost : spec.lost = true
  · simp [lost, apart lost, trimmed_append, trimmed_spaces, trimmed_zeros, number, none]
  · by_cases filled : spec.filled = true
    · simp [lost, filled, trimmed_append, trimmed_zeros, number]
    · by_cases left : spec.flags.leftJustify = true
      · simp [lost, filled, left, trimmed_append, trimmed_spaces, trimmed_zeros, number, none]
      · simp [lost, filled, left, trimmed_append, trimmed_spaces, trimmed_zeros, number, none]

theorem numberText_length {spec : Spec} {lead digits : List UInt8} {zero : Bool} (positive : 0 < digits.length)
    (single : spec.blank zero = true → digits.length = 1) :
    (numberText spec lead digits zero).length =
      (if spec.lost then 0 else lead.length) + max spec.precision.toNat digits.length +
        spec.missing (max spec.precision digits.length + lead.length) := by
  have number : (zeros (spec.precision - digits.length).toNat ++ if spec.blank zero then spaces 1 else digits).length =
      max spec.precision.toNat digits.length := by
    rw [List.length_append, zeros, List.length_replicate]
    split
    next blank =>
      have size := single blank
      simp only [spaces, List.length_replicate]
      omega
    next => omega
  have filler : ∀ count, (zeros count).length = count ∧ (spaces count).length = count := by simp [zeros, spaces]
  rw [numberText_shape]
  split
  next lost =>
    rw [List.length_append, number, (filler _).2]
    omega
  next =>
    split
    next =>
      rw [List.length_append, List.length_append, number, (filler _).1]
      omega
    next =>
      split
      next =>
        rw [List.length_append, List.length_append, number, (filler _).2]
      next =>
        rw [List.length_append, List.length_append, number, (filler _).2]
        omega

end Shape

/-- A negative argument for the width left-justifies a field that the flags have
already filled with zeros. -/
def Directive.Clash (d : Directive) : Prop :=
  d.width.value < 0 ∧ .zero ∈ d.flags ∧ .minus ∉ d.flags ∧ d.precision.field ≤ 0

/-- There is a sign or a space in front of the number. -/
def Directive.Signs (d : Directive) (value : Int) : Prop := value < 0 ∨ .plus ∈ d.flags ∨ .space ∈ d.flags

instance (d : Directive) (value : Int) : Decidable (d.Signs value) := inferInstanceAs (Decidable (_ ∨ _))

def Directive.signCount (d : Directive) (value : Int) : Nat := if d.Signs value then 1 else 0

/-- The argument fits the type of its modifier, its sign is not lost, a precision that
overflows to zero does not hide a zero, and a width of 2 ^ 31 or more, which no `int` holds,
is met because another overflow leaves more room. -/
structure Directive.Faithful (d : Directive) (conversion : Conversion) (argument : UInt64) : Prop where
  narrow : conversion.value d.length argument = conversion.fetched d.length argument
  sign : conversion.fetched d.length argument < 0 → ¬d.Clash
  zero : d.precision.value.isSome = true → d.precision.field = 0 → conversion.fetched d.length argument = 0 →
    .zero ∈ d.flags ∧ .minus ∉ d.flags ∧ 0 ≤ d.width.value ∧
      1 + d.signCount (conversion.fetched d.length argument) < d.width.field
  width : d.width.value.natAbs < 2 ^ 31 → d.Clash → d.Signs (conversion.fetched d.length argument) →
    d.width.value.natAbs ≤ (numeral 10 false (conversion.fetched d.length argument).natAbs).length
  wide : 2 ^ 31 ≤ d.width.value.natAbs → d.precision.field = 2 ^ 31 - 1 ∧ d.Signs (conversion.fetched d.length argument) ∧
    d.width.value.natAbs ≤ d.width.value.natAbs % 2 ^ 32 + if d.width.value.natAbs % 2 ^ 32 < 2 ^ 31 then 2 ^ 64 else 0

section Faithful

variable {d : Directive} {conversion : Conversion} {argument : UInt64}

theorem lost_iff : d.spec.lost = true ↔ d.Clash := by
  simp only [Spec.lost, Directive.spec, Directive.Clash, Bool.and_eq_true, Bool.or_eq_true, decide_eq_true_eq, Int.not_lt]
  constructor
  · rintro ⟨left, zero, minus, precision⟩
    exact ⟨left.resolve_left minus, zero, minus, precision⟩
  · rintro ⟨left, zero, minus, precision⟩
    exact ⟨.inr left, zero, minus, precision⟩

private theorem filled_iff : d.spec.filled = true ↔
    .zero ∈ d.flags ∧ .minus ∉ d.flags ∧ 0 ≤ d.width.value ∧ d.precision.field ≤ 0 := by
  simp only [Spec.filled, Directive.spec, Bool.and_eq_true, Bool.not_eq_true', Bool.or_eq_false_iff, decide_eq_true_eq,
    decide_eq_false_iff_not, Int.not_lt]
  constructor
  · rintro ⟨⟨_, width⟩, zero, minus, precision⟩
    exact ⟨zero, minus, width, precision⟩
  · rintro ⟨zero, minus, width, precision⟩
    exact ⟨⟨minus, width⟩, zero, minus, precision⟩

theorem blank_iff {value : Int} : d.spec.blank (decide (value = 0)) = true ↔
    d.precision.value.isSome = true ∧ d.precision.field = 0 ∧ value = 0 := by
  simp only [Spec.blank, Bool.and_eq_true, decide_eq_true_eq, and_assoc]
  exact Iff.rfl

private theorem leader_length (signed : conversion.signed = true) (value : Int) :
    (leader d.flags conversion value).length = d.signCount value := by
  unfold leader Directive.signCount Directive.Signs
  rw [if_pos signed]
  by_cases negative : value < 0 <;> by_cases plus : .plus ∈ d.flags <;> by_cases space : .space ∈ d.flags
  all_goals simp [negative, plus, space]

theorem field_lt (width : Width) : width.field < 2 ^ 31 := by
  rw [Width.field, toInt_eq]
  omega

theorem base_ten (signed : conversion.signed = true) : conversion.base = 10 ∧ decide (conversion = .X) = false := by
  cases conversion
  case d | i => decide
  all_goals cases signed

private theorem value_ne_neg (signed : conversion.signed = true) (length : Length) (argument : UInt64) :
    conversion.fetched length argument < 0 → conversion.value length argument ≠ -conversion.fetched length argument := by
  unfold Conversion.value Conversion.fetched
  rw [if_pos signed, if_pos signed]
  cases length <;> simp [Vcbprintf.signed, Length.argBits, Length.bits] <;> omega

private theorem missing_pos (spec : Spec) {size : Int} (small : 0 ≤ size ∧ size ≤ 2) (bound : spec.width < 2 ^ 31) :
    0 < spec.missing size ↔ size < spec.width := by
  have same : toInt size = size := by
    rw [toInt_eq]
    omega
  rw [Spec.missing, same]
  split
  next more =>
    rw [toSize_toInt (by omega) (by omega)]
    omega
  next less => exact iff_of_false (Nat.lt_irrefl 0) less

private theorem reading_blank (signed : conversion.signed = true) (dot : d.precision.value.isSome = true)
    (field : d.precision.field = 0) :
    readInteger (trimmed (numberText d.spec (d.lead conversion 0) (numeral 10 false 0) true)) =
      if d.spec.filled = true ∧ 1 + d.signCount 0 < d.width.field then some 0 else none := by
  have zeroth : (numeral 10 false 0).length = 1 := rfl
  have blank : d.spec.blank true = true := blank_iff.mpr ⟨dot, field, rfl⟩
  have precision : d.spec.precision = 0 := field
  have size : max d.spec.precision (numeral 10 false 0).length + (leader d.flags conversion 0).length =
      1 + d.signCount 0 := by
    rw [precision, zeroth, leader_length signed]
    rfl
  have few : (d.signCount 0 : Int) ≤ 1 := by
    unfold Directive.signCount
    split <;> decide
  have shortest : 0 ≤ 1 + (d.signCount 0 : Int) ∧ 1 + (d.signCount 0 : Int) ≤ 2 := by omega
  have positive := missing_pos d.spec shortest (field_lt d.width)
  have none : (0 - ((numeral 10 false 0).length : Int)).toNat = 0 := by rw [zeroth]; rfl
  rw [numberText_trimmed, lead_signed signed, size, if_pos blank, List.append_nil, precision, none]
  by_cases filled : d.spec.filled = true
  · have kept : ¬d.spec.lost = true := by
      unfold Spec.filled at filled
      unfold Spec.lost
      cases left : d.spec.flags.leftJustify <;> simp [left] at filled ⊢
    rw [if_neg kept, if_pos filled]
    by_cases room : 1 + (d.signCount 0 : Int) < d.width.field
    · obtain ⟨count, more⟩ := Nat.exists_eq_succ_of_ne_zero (Nat.ne_of_gt (positive.mpr room))
      rw [if_pos ⟨filled, room⟩, more]
      have read := readInteger_leader d.flags signed 0 (readDigits_zeros count)
      rwa [← List.append_nil (zeros _)] at read
    · have nothing : d.spec.missing (1 + d.signCount 0) = 0 := Nat.eq_zero_of_not_pos (mt positive.mp room)
      rw [if_neg fun both => room both.2, nothing]
      exact (congrArg readInteger (List.append_nil _)).trans (readInteger_sign d.flags signed 0)
  · have short : ¬(d.spec.filled = true ∧ 1 + (d.signCount 0 : Int) < d.width.field) := fun both => filled both.1
    rw [if_neg filled, if_neg short]
    split
    next => rfl
    next => exact (congrArg readInteger (List.append_nil _)).trans (readInteger_sign d.flags signed 0)

private theorem reading_iff (signed : conversion.signed = true) :
    readInteger (trimmed (text (d.format conversion.char) (d.args (.word argument)))) =
        some (conversion.value d.length argument) ↔
      conversion.value d.length argument = conversion.fetched d.length argument ∧
        (conversion.fetched d.length argument < 0 → ¬d.Clash) ∧
        (d.precision.value.isSome = true → d.precision.field = 0 → conversion.fetched d.length argument = 0 →
          .zero ∈ d.flags ∧ .minus ∉ d.flags ∧ 0 ≤ d.width.value ∧
            1 + d.signCount (conversion.fetched d.length argument) < d.width.field) := by
  have differ := value_ne_neg signed d.length argument
  obtain ⟨base, capitals⟩ := base_ten signed
  rw [integer_text, base, capitals]
  generalize conversion.fetched d.length argument = value at differ
  by_cases blank : d.spec.blank (decide (value = 0)) = true
  · obtain ⟨dot, field, rfl⟩ := blank_iff.mp blank
    have filled := filled_iff (d := d)
    have itself : decide ((0 : Int) = 0) = true := rfl
    rw [itself, Int.natAbs_zero, reading_blank signed dot field]
    split
    next zeros =>
      obtain ⟨zero, minus, width, _⟩ := filled.mp zeros.1
      rw [Option.some.injEq, eq_comm]
      exact ⟨fun same => ⟨same, fun negative => absurd negative (Int.lt_irrefl 0), fun _ _ _ =>
        ⟨zero, minus, width, zeros.2⟩⟩,
        fun faithful => faithful.1⟩
    next short =>
      refine iff_of_false (fun read => nomatch read) fun faithful => short ?_
      obtain ⟨zero, minus, width, room⟩ := faithful.2.2 dot field rfl
      exact ⟨filled.mpr ⟨zero, minus, width, Int.le_of_eq field⟩, room⟩
  · have printed : d.precision.value.isSome = true → d.precision.field = 0 → value = 0 → False :=
      fun dot field zero => blank (blank_iff.mpr ⟨dot, field, zero⟩)
    have digits := fun count => readDigits_numeral false count value.natAbs
    rw [numberText_trimmed, lead_signed signed, if_neg blank, trimmed_numeral, ← List.append_assoc (zeros _) (zeros _),
      zeros_append]
    by_cases lost : d.spec.lost = true
    · have clash := lost_iff.mp lost
      rw [if_pos lost, List.nil_append, readInteger_plain (digits _), Option.some.injEq]
      constructor
      · intro same
        have positive : ¬value < 0 := by
          intro negative
          have other := differ negative
          omega
        exact ⟨by omega, fun negative => absurd negative positive, fun dot field zero => (printed dot field zero).elim⟩
      · rintro ⟨same, kept, _⟩
        have positive : ¬value < 0 := fun negative => kept negative clash
        omega
    · rw [if_neg lost, readInteger_leader d.flags signed value (digits _), Option.some.injEq]
      have back : (if value < 0 then -(value.natAbs : Int) else value.natAbs) = value := by
        split <;> omega
      rw [back, eq_comm]
      exact ⟨fun same => ⟨same, fun _ => mt lost_iff.mpr lost, fun dot field zero => (printed dot field zero).elim⟩,
        fun faithful => faithful.1⟩

theorem missing_eq (spec : Spec) {size : Nat} (small : size < 2 ^ 31) (bound : spec.width < 2 ^ 31) :
    spec.missing size = (spec.width - size).toNat := by
  rw [Spec.missing, toInt_small small]
  split
  next more => rw [toSize_toInt (by omega) (by omega)]
  next less => omega

private theorem missing_overflow {spec : Spec} {n : Nat} (field : spec.width = toInt n) :
    2 ^ 31 + spec.missing (2 ^ 31) = n % 2 ^ 32 + if n % 2 ^ 32 < 2 ^ 31 then 2 ^ 64 else 0 := by
  rw [Spec.missing, field]
  simp only [toInt_eq, toSize_eq]
  split <;> split <;> omega

/-- The characters of a number with so many digits. -/
def Directive.size (d : Directive) (value : Int) (digits : Nat) : Nat :=
  (if d.spec.lost = true then 0 else d.signCount value) + max d.precision.field.toNat digits +
    d.spec.missing ((max d.precision.field.toNat digits : Nat) + (d.signCount value : Int))

section Size

variable {value : Int} {digits : Nat}

private theorem text_size (signed : conversion.signed = true) :
    (text (d.format conversion.char) (d.args (.word argument))).length =
      d.size (conversion.fetched d.length argument) (numeral 10 false
        (conversion.fetched d.length argument).natAbs).length := by
  obtain ⟨base, capitals⟩ := base_ten signed
  rw [integer_text, base, capitals]
  generalize conversion.fetched d.length argument = value
  have positive := numeral_length_pos 10 false value.natAbs
  have single : d.spec.blank (decide (value = 0)) = true → (numeral 10 false value.natAbs).length = 1 := by
    intro blank
    rw [(blank_iff.mp blank).2.2]
    rfl
  rw [numberText_length positive single, lead_signed signed, leader_length signed]
  generalize (numeral 10 false value.natAbs).length = digits at positive
  have precision : d.spec.precision = d.precision.field := rfl
  have number : max d.precision.field (digits : Int) = (max d.precision.field.toNat digits : Nat) := by omega
  rw [precision, number]
  rfl

private theorem signCount_eq : d.signCount value = if d.Signs value then 1 else 0 := rfl

private theorem clash_field (clash : d.Clash) : d.precision.field ≤ 0 := clash.2.2.2

private theorem width_eq : d.spec.width = toInt d.width.value.natAbs := rfl

private theorem size_overflow (short : digits ≤ 64) (field : d.precision.field = 2 ^ 31 - 1) (signs : d.Signs value) :
    d.width.value.natAbs ≤ d.size value digits ↔ (2 ^ 31 ≤ d.width.value.natAbs →
      d.width.value.natAbs ≤ d.width.value.natAbs % 2 ^ 32 + if d.width.value.natAbs % 2 ^ 32 < 2 ^ 31 then 2 ^ 64 else 0) := by
  have kept : ¬d.spec.lost = true := by
    intro gone
    have few := clash_field (lost_iff.mp gone)
    omega
  have most : max d.precision.field.toNat digits = 2 ^ 31 - 1 := by omega
  have whole := missing_overflow (width_eq (d := d))
  rw [Directive.size, if_neg kept, signCount_eq, if_pos signs, most]
  have sum : (((2 ^ 31 - 1 : Nat) : Int) + ((1 : Nat) : Int)) = 2 ^ 31 := by omega
  rw [sum]
  constructor
  · intro wide _
    omega
  · intro wide
    by_cases narrow : d.width.value.natAbs < 2 ^ 31
    · have less : d.width.value.natAbs % 2 ^ 32 = d.width.value.natAbs := Nat.mod_eq_of_lt (by omega)
      omega
    · have enough := wide (Nat.not_lt.mp narrow)
      omega

private theorem size_within (short : digits ≤ 64) (within : ¬(d.precision.field = 2 ^ 31 - 1 ∧ d.Signs value)) :
    d.size value digits = (if d.spec.lost = true then 0 else d.signCount value) + max d.precision.field.toNat digits +
      (d.spec.width - ((max d.precision.field.toNat digits + d.signCount value : Nat) : Int)).toNat ∧
    max d.precision.field.toNat digits + d.signCount value < 2 ^ 31 := by
  have bounds := field_bounds d.precision
  have few : d.signCount value ≤ 1 := by
    rw [signCount_eq]
    split <;> decide
  have less : max d.precision.field.toNat digits + d.signCount value < 2 ^ 31 := by
    by_cases most : d.precision.field = 2 ^ 31 - 1
    · rw [signCount_eq, if_neg fun signs => within ⟨most, signs⟩]
      omega
    · omega
  refine ⟨?_, less⟩
  rw [Directive.size, ← missing_eq d.spec less (field_lt d.width), Nat.cast_add]

private theorem size_narrow (positive : 0 < digits) (short : digits ≤ 64)
    (within : ¬(d.precision.field = 2 ^ 31 - 1 ∧ d.Signs value))
    (narrow : d.width.value.natAbs < 2 ^ 31) :
    d.width.value.natAbs ≤ d.size value digits ↔ (d.Clash → d.Signs value → d.width.value.natAbs ≤ digits) := by
  obtain ⟨same, _⟩ := size_within short within
  rw [same, width_eq, toInt_small narrow]
  by_cases gone : d.spec.lost = true
  · have clash := lost_iff.mp gone
    have none := clash_field clash
    rw [if_pos gone]
    by_cases signs : d.Signs value
    · rw [signCount_eq, if_pos signs]
      constructor
      · intro enough _ _
        omega
      · intro enough
        have fits := enough clash signs
        omega
    · rw [signCount_eq, if_neg signs]
      exact iff_of_true (by omega) fun _ sign => absurd sign signs
  · rw [if_neg gone]
    exact iff_of_true (by omega) fun clash => absurd (lost_iff.mpr clash) gone

private theorem size_wide (short : digits ≤ 64) (within : ¬(d.precision.field = 2 ^ 31 - 1 ∧ d.Signs value))
    (wide : 2 ^ 31 ≤ d.width.value.natAbs) : ¬d.width.value.natAbs ≤ d.size value digits := by
  obtain ⟨same, less⟩ := size_within short within
  have below : d.spec.width < 2 ^ 31 := field_lt d.width
  rw [same]
  generalize d.spec.width = field at below ⊢
  split <;> omega

end Size

private theorem length_iff (signed : conversion.signed = true) :
    d.width.value.natAbs ≤ (text (d.format conversion.char) (d.args (.word argument))).length ↔
      (d.width.value.natAbs < 2 ^ 31 → d.Clash → d.Signs (conversion.fetched d.length argument) →
        d.width.value.natAbs ≤ (numeral 10 false (conversion.fetched d.length argument).natAbs).length) ∧
      (2 ^ 31 ≤ d.width.value.natAbs → d.precision.field = 2 ^ 31 - 1 ∧ d.Signs (conversion.fetched d.length argument) ∧
        d.width.value.natAbs ≤ d.width.value.natAbs % 2 ^ 32 + if d.width.value.natAbs % 2 ^ 32 < 2 ^ 31 then 2 ^ 64 else 0) := by
  have small := fetched_natAbs conversion d.length argument
  rw [text_size signed]
  generalize conversion.fetched d.length argument = value at small
  have positive := numeral_length_pos 10 false value.natAbs
  have ten : 1 < 10 := by decide
  have short := numeral_length_le false ten (UInt64.ofNat value.natAbs)
  rw [UInt64.toNat_ofNat_of_lt' small] at short
  by_cases beyond : d.precision.field = 2 ^ 31 - 1 ∧ d.Signs value
  · obtain ⟨field, signs⟩ := beyond
    have apart : ¬d.Clash := by
      intro clash
      have few := clash_field clash
      omega
    rw [size_overflow short field signs]
    exact ⟨fun enough => ⟨fun _ clash => absurd clash apart, fun wide => ⟨field, signs, enough wide⟩⟩,
      fun both wide => (both.2 wide).2.2⟩
  · by_cases narrow : d.width.value.natAbs < 2 ^ 31
    · rw [size_narrow positive short beyond narrow]
      exact ⟨fun enough => ⟨fun _ => enough, fun wide => absurd narrow (Nat.not_lt.mpr wide)⟩, fun both => both.1 narrow⟩
    · have wide := Nat.not_lt.mp narrow
      refine iff_of_false (size_wide short beyond wide) fun both => beyond ?_
      obtain ⟨field, signs, _⟩ := both.2 wide
      exact ⟨field, signs⟩

end Faithful

/-- A signed conversion states its argument, at the length that is asked for, if and only
if the directive and the argument are faithful to each other. -/
theorem signed_states_value_iff {σ : Type} {cb : Callback σ} (accepting : Accepting cb) (p : σ) (d : Directive)
    (conversion : Conversion) (signed : conversion.signed = true) (argument : UInt64) :
    let bytes := emitted (vcbprintf cb p (d.format conversion.char) (d.args (.word argument))).2.trace
    (readInteger (trimmed bytes) = some (conversion.value d.length argument) ∧ d.width.value.natAbs ≤ bytes.length) ↔
      d.Faithful conversion argument := by
  intro bytes
  have same : bytes = text (d.format conversion.char) (d.args (.word argument)) := emitted_text accepting p _ _
  rw [same, reading_iff signed, length_iff signed]
  constructor
  · rintro ⟨⟨narrow, sign, zero⟩, width, wide⟩
    exact ⟨narrow, sign, zero, width, wide⟩
  · rintro ⟨narrow, sign, zero, width, wide⟩
    exact ⟨⟨narrow, sign, zero⟩, width, wide⟩

theorem signed_states_value_iff_witness :
    let d : Directive := ⟨[.zero], .star 5, .absent, .int⟩
    let bytes := emitted (vcbprintf acceptAll () (d.format 'd') (d.args (.word (-7)))).2.trace
    (readInteger (trimmed bytes) = some (Conversion.d.value d.length (-7)) ∧ d.width.value.natAbs ≤ bytes.length) ↔
      d.Faithful .d (-7) := by
  intro d bytes
  exact signed_states_value_iff (fun _ _ _ => rfl) () d .d rfl (-7)

/-- `%0*d` with -5 and -7 prints the digit and spaces, but no sign. -/
theorem sign_lost :
    let d : Directive := ⟨[.zero], .star (-5), .absent, .int⟩
    let bytes := emitted (vcbprintf acceptAll () (d.format 'd') (d.args (.word (-7)))).2.trace
    ¬(readInteger (trimmed bytes) = some (Conversion.d.value d.length (-7)) ∧ d.width.value.natAbs ≤ bytes.length) := by
  intro d bytes stated
  have same : bytes = text (d.format 'd') (d.args (.word (-7))) := emitted_text (fun _ _ _ => rfl) () _ _
  have reads := stated.1
  rw [same] at reads
  have signed : Conversion.d.signed = true := rfl
  have faithful := (reading_iff signed).mp reads
  have negative : Conversion.d.fetched d.length (-7) < 0 := by decide
  have clash : d.Clash := ⟨by decide, by decide, by decide, by decide⟩
  exact faithful.2.1 negative clash

end Hotarubi.Lib.Vcbprintf
