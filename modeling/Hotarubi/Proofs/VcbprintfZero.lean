import Hotarubi.Proofs.VcbprintfSigned

/-! A precision of zero. The digit of a zero becomes a space after its width has been
counted, and the zero flag is only dropped for a precision above zero. -/

namespace Hotarubi.Lib.Vcbprintf
open Base.Numeral

/-- How many bytes stand for the value without its field; a zero counts for one. -/
def Directive.occupied (d : Directive) (conversion : Conversion) (value : Int) : Nat :=
  (leader d.flags conversion value).length + (numeral conversion.base (conversion = .X) value.natAbs).length

/-- The argument fits the type of its modifier, the width is an `int`, no zeros fill the
field, and for a zero there is room for the space, on the right side of a sign. -/
structure Directive.ZeroPrecise (d : Directive) (conversion : Conversion) (argument : UInt64) : Prop where
  narrow : conversion.value d.length argument = conversion.fetched d.length argument
  width : d.width.value < 2 ^ 31
  fill : .zero ∈ d.flags → .minus ∈ d.flags ∨ d.width.value ≤ d.occupied conversion (conversion.value d.length argument)
  room : conversion.value d.length argument = 0 → d.occupied conversion 0 ≤ d.width.value
  side : conversion.value d.length argument = 0 → .minus ∈ d.flags ∨ ¬(conversion.signed = true ∧ .plus ∈ d.flags)

section Shape

variable {d : Directive} {conversion : Conversion}

private theorem zero_field (precision : d.precision.value = some 0) : d.precision.field = 0 := by
  rw [Precision.field, precision, Option.getD_some, max_self, toInt_zero]

private theorem zeroPrecision_shape (precision : d.precision.value = some 0) (positive : 0 ≤ d.width.value)
    (small : d.width.value.toNat < 2 ^ 31) {lead digits : List UInt8} (total : lead.length + digits.length < 2 ^ 31)
    (zero : Bool) : numberText d.spec lead digits zero =
      let number := if zero then spaces 1 else digits
      let missing := d.width.value.toNat - (lead.length + digits.length)
      if .minus ∈ d.flags then lead ++ number ++ spaces missing
      else if .zero ∈ d.flags then lead ++ zeros missing ++ number
      else spaces missing ++ lead ++ number := by
  have field := zero_field precision
  have none : d.spec.precision = 0 := field
  have width : d.spec.width = d.width.value.toNat := natural_width positive small
  have blank : d.spec.blank zero = zero := by
    simp [Spec.blank, Directive.spec, precision, field]
  have left : d.spec.flags.leftJustify = decide (.minus ∈ d.flags) := by
    simp [Directive.spec, Int.not_lt.mpr positive]
  have fill : d.spec.flags.fillWithZero = decide (.zero ∈ d.flags ∧ .minus ∉ d.flags) := by
    simp [Directive.spec, field]
  have size : max d.spec.precision (digits.length : Int) + (lead.length : Int) = (lead.length + digits.length : Nat) := by
    rw [none]
    omega
  have missing : d.spec.missing (lead.length + digits.length : Nat) =
      d.width.value.toNat - (lead.length + digits.length) := by
    rw [missing_eq d.spec total (field_lt d.width), width]
    omega
  have count : (d.spec.precision - (digits.length : Int)).toNat = 0 := by
    rw [none]
    omega
  rw [numberText_shape, size, missing, count, blank, zeros_none]
  simp only [Spec.lost, Spec.filled, left, fill, List.nil_append]
  by_cases minus : .minus ∈ d.flags <;> by_cases zero : .zero ∈ d.flags
  all_goals simp [minus, zero]

end Shape

section Fields

variable {lead digits : List UInt8} {m k : Nat}

private theorem filled_eq_iff : lead ++ zeros m ++ digits = spaces m ++ lead ++ digits ↔ m = 0 := by
  refine ⟨?_, ?_⟩
  · intro same
    have lengths := congrArg (fun text => (trimmed text).length) same
    simp only [trimmed_append, trimmed_spaces, trimmed_zeros, List.length_append, length_zeros, List.length_nil] at lengths
    omega
  · rintro rfl
    simp [zeros, spaces]

private theorem space_behind_iff : lead ++ spaces 1 = spaces 1 ++ lead ↔ ∀ c ∈ lead, c = ' '.toUInt8 := by
  have single : spaces 1 = [' '.toUInt8] := rfl
  rw [single, List.singleton_append]
  induction lead with
  | nil => simp
  | cons c lead ih =>
    rw [List.cons_append, List.cons.injEq, List.forall_mem_cons]
    refine and_congr_right ?_
    rintro rfl
    exact ih

private theorem blank_left_iff : lead ++ spaces 1 ++ spaces m = lead ++ spaces k ↔ 1 + m = k := by
  rw [List.append_assoc, List.append_cancel_left_eq, spaces_append]
  refine ⟨?_, fun same => by rw [same]⟩
  intro same
  have lengths := congrArg List.length same
  rwa [length_spaces, length_spaces] at lengths

private theorem blank_right_iff : spaces m ++ lead ++ spaces 1 = spaces k ++ lead ↔
    m + 1 = k ∧ ∀ c ∈ lead, c = ' '.toUInt8 := by
  rw [← space_behind_iff]
  refine ⟨?_, ?_⟩
  · intro same
    have lengths := congrArg List.length same
    simp only [List.length_append, length_spaces] at lengths
    obtain rfl : m + 1 = k := by omega
    rw [← spaces_append, List.append_assoc, List.append_assoc, List.append_cancel_left_eq] at same
    exact ⟨rfl, same⟩
  · rintro ⟨rfl, same⟩
    rw [List.append_assoc, same, ← spaces_append, List.append_assoc]

private theorem blank_filled_iff : lead ++ zeros m ++ spaces 1 = spaces k ++ lead ↔
    m = 0 ∧ k = 1 ∧ ∀ c ∈ lead, c = ' '.toUInt8 := by
  refine ⟨?_, ?_⟩
  · intro same
    have lengths := congrArg (fun text => (trimmed text).length) same
    simp only [trimmed_append, trimmed_spaces, trimmed_zeros, List.length_append, length_zeros, List.length_nil] at lengths
    obtain rfl : m = 0 := by omega
    have right : spaces 0 ++ lead ++ spaces 1 = spaces k ++ lead := by
      simpa [zeros, spaces] using same
    obtain ⟨rfl, blank⟩ := blank_right_iff.mp right
    exact ⟨rfl, rfl, blank⟩
  · rintro ⟨rfl, rfl, blank⟩
    rw [zeros_none, List.append_nil, space_behind_iff.mpr blank]

end Fields

section Texts

variable {d : Directive} {conversion : Conversion}

private theorem leader_zero_blank (flags : List Flag) (conversion : Conversion) :
    (∀ c ∈ leader flags conversion 0, c = ' '.toUInt8) ↔ ¬(conversion.signed = true ∧ .plus ∈ flags) := by
  have other : '+'.toUInt8 ≠ ' '.toUInt8 := by decide
  unfold leader
  by_cases signed : conversion.signed = true
  · by_cases plus : .plus ∈ flags
    · simp [signed, plus, other]
    · by_cases space : .space ∈ flags
      · simp [signed, plus, space]
      · simp [signed, plus, space]
  · simp [signed]

private theorem occupied_lt (d : Directive) (conversion : Conversion) {value : Int} (small : value.natAbs < 2 ^ 64) :
    d.occupied conversion value ≤ 66 := by
  have short := numeral_length_le (decide (conversion = .X)) conversion.base_bounds.1 (UInt64.ofNat value.natAbs)
  rw [UInt64.toNat_ofNat_of_lt' small] at short
  have lead : (leader d.flags conversion value).length ≤ 2 := by
    unfold leader
    split_ifs <;> simp
  unfold Directive.occupied
  omega

private theorem zeroPrecision_text_iff (precision : d.precision.value = some 0) (positive : 0 ≤ d.width.value)
    (width : d.width.value.toNat < 2 ^ 31) {value : Int} (small : value.natAbs < 2 ^ 64) :
    numberText d.spec (leader d.flags conversion value) (numeral conversion.base (conversion = .X) value.natAbs)
        (decide (value = 0)) =
      zeroPrecisionText d.flags d.width.value.toNat conversion value ↔
    (.zero ∈ d.flags → .minus ∈ d.flags ∨ d.width.value ≤ d.occupied conversion value) ∧
      (value = 0 → d.occupied conversion 0 ≤ d.width.value) ∧
      (value = 0 → .minus ∈ d.flags ∨ ¬(conversion.signed = true ∧ .plus ∈ d.flags)) := by
  have few := occupied_lt d conversion small
  have total : (leader d.flags conversion value).length +
      (numeral conversion.base (conversion = .X) value.natAbs).length < 2 ^ 31 := by
    unfold Directive.occupied at few
    omega
  obtain ⟨w, same⟩ : ∃ w : Nat, d.width.value = w := ⟨d.width.value.toNat, by omega⟩
  rw [zeroPrecision_shape precision positive width total]
  unfold zeroPrecisionText Directive.occupied
  rw [same]
  by_cases zero : value = 0
  · subst zero
    have digit : (numeral conversion.base (conversion = .X) (0 : Int).natAbs).length = 1 := rfl
    have blank := leader_zero_blank d.flags conversion
    simp only [digit, if_true, decide_true, List.append_nil, Int.toNat_natCast, forall_true_left]
    rw [← blank]
    by_cases minus : .minus ∈ d.flags
    · simp only [minus, if_true, true_or, implies_true, true_and, and_true, blank_left_iff]
      omega
    · by_cases fill : .zero ∈ d.flags
      · simp only [minus, fill, if_true, if_false, forall_true_left, false_or, blank_filled_iff]
        rw [← and_assoc, ← and_assoc]
        exact and_congr_left fun _ => by omega
      · simp only [minus, fill, if_false, IsEmpty.forall_iff, true_and, false_or, blank_right_iff]
        exact and_congr_left fun _ => by omega
  · simp only [zero, decide_false, Bool.false_eq_true, if_false, IsEmpty.forall_iff, and_true, List.length_append]
    by_cases minus : .minus ∈ d.flags
    · simp only [minus, if_true, true_or, implies_true]
    · by_cases fill : .zero ∈ d.flags
      · simp only [minus, fill, if_true, if_false, forall_true_left, false_or, filled_eq_iff, Int.toNat_natCast]
        omega
      · simp only [minus, fill, if_false, IsEmpty.forall_iff]

private theorem zeroPrecisionText_length (flags : List Flag) (width : Nat) (conversion : Conversion) (value : Int) :
    width ≤ (zeroPrecisionText flags width conversion value).length := by
  unfold zeroPrecisionText
  simp only
  split
  next => simp [length_spaces]; omega
  next => simp [length_spaces]; omega

private theorem wide_text_short (conversion : Conversion) (precision : d.precision.value = some 0) {value : Int}
    (small : value.natAbs < 2 ^ 64) :
    (numberText d.spec (leader d.flags conversion value) (numeral conversion.base (conversion = .X) value.natAbs)
      (decide (value = 0))).length < 2 ^ 31 := by
  have few := occupied_lt d conversion small
  have positive := numeral_length_pos conversion.base (decide (conversion = .X)) value.natAbs
  have single : d.spec.blank (decide (value = 0)) = true →
      (numeral conversion.base (conversion = .X) value.natAbs).length = 1 := by
    intro blank
    rw [(blank_iff.mp blank).2.2]
    rfl
  have none : d.spec.precision = 0 := zero_field precision
  have bound : d.spec.width < 2 ^ 31 := field_lt d.width
  have size : max d.spec.precision ((numeral conversion.base (conversion = .X) value.natAbs).length : Int) +
      ((leader d.flags conversion value).length : Int) = (d.occupied conversion value : Nat) := by
    rw [none, Directive.occupied]
    omega
  have occupied : d.occupied conversion value = (leader d.flags conversion value).length +
      (numeral conversion.base (conversion = .X) value.natAbs).length := rfl
  rw [numberText_length positive single, size, missing_eq d.spec (by omega) bound, none]
  split <;> omega

/-- The number that a hexadecimal digit, or a decimal one, stands for. -/
def undigit (c : UInt8) : Nat := if c.toNat < 58 then c.toNat - 48 else if c.toNat < 97 then c.toNat - 55 else c.toNat - 87

private theorem undigit_digit : ∀ caps, ∀ place < 16, undigit (digit caps place) = place := by decide

private theorem horner_numeral {base : Nat} (order : 1 < base) (limit : base ≤ 16) (caps : Bool) (count n : Nat) :
    horner base 0 ((zeros count ++ numeral base caps n).map undigit) = n := by
  have digits : (numeral base caps n).map undigit = places base n := by
    rw [numeral_eq, List.map_map]
    conv_rhs => rw [← List.map_id (places base n)]
    apply List.map_congr_left
    intro place member
    exact undigit_digit caps place (Nat.lt_of_lt_of_le (places_lt order member) limit)
  have leading : (zeros count).map undigit = List.replicate count 0 := by
    rw [zeros, List.map_replicate]
    rfl
  rw [List.map_append, digits, leading, horner_append, horner_zeros, horner_places order]

private theorem trimmed_hexadecimal {base : Nat} (order : 1 < base) (limit : base ≤ 16) (caps : Bool) (n : Nat) :
    trimmed (numeral base caps n) = numeral base caps n := by
  have visible : ∀ caps, ∀ place < 16, digit caps place ≠ ' '.toUInt8 := by decide
  refine List.filter_eq_self.mpr fun c member => decide_eq_true ?_
  rw [numeral_eq] at member
  obtain ⟨place, inside, rfl⟩ := List.mem_map.mp member
  exact visible caps place (Nat.lt_of_lt_of_le (places_lt order inside) limit)

private theorem code_trimmed (conversion : Conversion) (positive : 0 ≤ d.width.value) {value : Int} (nonzero : value ≠ 0) :
    ∃ count,
    trimmed (numberText d.spec (leader d.flags conversion value)
      (numeral conversion.base (conversion = .X) value.natAbs) (decide (value = 0))) =
    trimmed (leader d.flags conversion value) ++
      (zeros count ++ numeral conversion.base (conversion = .X) value.natAbs) := by
  obtain ⟨order, limit⟩ := conversion.base_bounds
  have kept : ¬d.spec.lost = true := fun lost => Int.not_lt.mpr positive (lost_iff.mp lost).1
  have printed : ¬d.spec.blank (decide (value = 0)) = true := fun blank => nonzero (blank_iff.mp blank).2.2
  rw [numberText_trimmed, if_neg kept, if_neg printed, trimmed_hexadecimal order limit, ← List.append_assoc
    (zeros _) (zeros _),
    zeros_append]
  exact ⟨_, rfl⟩

private theorem reference_trimmed (flags : List Flag) (width : Nat) (conversion : Conversion) (value : Int) :
    trimmed (zeroPrecisionText flags width conversion value) = trimmed (leader flags conversion value) ++
      if value = 0 then [] else numeral conversion.base (conversion = .X) value.natAbs := by
  obtain ⟨order, limit⟩ := conversion.base_bounds
  have digits : trimmed (if value = 0 then [] else numeral conversion.base (conversion = .X) value.natAbs) =
      if value = 0 then [] else numeral conversion.base (conversion = .X) value.natAbs := by
    split
    next => rfl
    next => exact trimmed_hexadecimal order limit _ _
  unfold zeroPrecisionText
  simp only
  split
  next => simp only [trimmed_append, trimmed_spaces, List.append_nil, digits]
  next => simp only [trimmed_append, trimmed_spaces, List.nil_append, digits]

private theorem leader_natural {flags : List Flag} (natural : conversion.signed = false) {value other : Int}
    (nonzero : value ≠ 0)
    (nonzero' : other ≠ 0) : leader flags conversion value = leader flags conversion other := by
  unfold leader
  simp only [natural, Bool.false_eq_true, if_false, nonzero, nonzero', ne_eq, not_false_eq_true, and_true]

private theorem values_same (positive : 0 ≤ d.width.value) {fetched value : Int} (nonzero : fetched ≠ 0)
    (natural : conversion.signed = false → 0 ≤ fetched ∧ 0 ≤ value)
    (same : numberText d.spec (leader d.flags conversion fetched)
      (numeral conversion.base (conversion = .X) fetched.natAbs) (decide (fetched = 0)) =
      zeroPrecisionText d.flags d.width.value.toNat conversion value) : value = fetched := by
  obtain ⟨order, limit⟩ := conversion.base_bounds
  obtain ⟨count, code⟩ := code_trimmed conversion positive nonzero
  rw [same, reference_trimmed] at code
  cases signed : conversion.signed with
  | true =>
    obtain ⟨base, capitals⟩ := base_ten signed
    rw [base, capitals] at code
    have read := readInteger_leader d.flags signed fetched (readDigits_numeral false count fetched.natAbs)
    rw [← code] at read
    by_cases zero : value = 0
    · subst zero
      rw [if_pos rfl, List.append_nil, readInteger_sign d.flags signed 0] at read
      cases read
    · have own := readInteger_leader d.flags signed value (readDigits_numeral false 0 value.natAbs)
      rw [zeros_none, List.nil_append] at own
      rw [if_neg zero, own, Option.some.injEq] at read
      split at read <;> split at read <;> omega
  | false =>
    obtain ⟨above, above'⟩ := natural signed
    by_cases zero : value = 0
    · have none : leader d.flags conversion value = [] := by
        unfold leader
        simp [signed, zero]
      have some := numeral_length_pos conversion.base (decide (conversion = .X)) fetched.natAbs
      have lengths := congrArg List.length code
      rw [none, if_pos zero] at lengths
      simp only [trimmed, List.filter_nil, List.length_append, List.length_nil] at lengths
      omega
    · rw [if_neg zero, leader_natural signed zero nonzero, List.append_cancel_left_eq] at code
      have own := horner_numeral order limit (decide (conversion = .X)) 0 value.natAbs
      rw [zeros_none, List.nil_append, code, horner_numeral order limit] at own
      omega

private theorem natural_values (conversion : Conversion) (length : Length) (argument : UInt64)
    (natural : conversion.signed = false) :
    0 ≤ conversion.fetched length argument ∧ 0 ≤ conversion.value length argument := by
  unfold Conversion.fetched Conversion.value
  simp only [natural, Bool.false_eq_true, if_false]
  exact ⟨by omega, by omega⟩

private theorem value_of_zero (conversion : Conversion) (length : Length) (argument : UInt64)
    (zero : conversion.fetched length argument = 0) :
    conversion.value length argument = 0 := by
  unfold Conversion.fetched at zero
  unfold Conversion.value
  cases signed : conversion.signed
  all_goals
    simp only [signed, Bool.false_eq_true, if_false, if_true] at zero ⊢
    cases length <;> simp [Vcbprintf.signed, Length.argBits, Length.bits] at zero ⊢ <;> omega

end Texts

/-- With a precision of zero an integer is printed as C99 asks for exactly under these
conditions. -/
theorem zero_precision_iff {σ : Type} {cb : Callback σ} (accepting : Accepting cb) (p : σ) (d : Directive)
    (conversion : Conversion) (argument : UInt64) (_decimal : conversion ≠ .o)
    (alternate : .hash ∈ d.flags → conversion = .x ∨ conversion = .X) (precision : d.precision.value = some 0)
    (width : 0 ≤ d.width.value) :
    emitted (vcbprintf cb p (d.format conversion.char) (d.args (.word argument))).2.trace =
        zeroPrecisionText d.flags d.width.value.toNat conversion (conversion.value d.length argument) ↔
      d.ZeroPrecise conversion argument := by
  have small := fetched_natAbs conversion d.length argument
  have lead := lead_eq_leader alternate small
  have zero := value_of_zero conversion d.length argument
  have natural := natural_values conversion d.length argument
  rw [emitted_text accepting, integer_text, lead]
  by_cases narrow : conversion.value d.length argument = conversion.fetched d.length argument
  · by_cases wide : d.width.value < 2 ^ 31
    · rw [← narrow] at small ⊢
      rw [zeroPrecision_text_iff precision width (by omega) small]
      exact ⟨fun both => ⟨narrow, wide, both.1, both.2.1, both.2.2⟩, fun precise =>
        ⟨precise.fill, precise.room, precise.side⟩⟩
    · refine iff_of_false (fun same => ?_) fun precise => wide precise.width
      have long := zeroPrecisionText_length d.flags d.width.value.toNat conversion (conversion.value d.length argument)
      have short := wide_text_short conversion precision small
      rw [same] at short
      omega
  · refine iff_of_false (fun same => ?_) fun precise => narrow precise.narrow
    have nonzero : conversion.fetched d.length argument ≠ 0 := fun none => narrow ((zero none).trans none.symm)
    exact narrow (values_same width nonzero natural same)

/-- `%5.0d` of 42 -/
theorem zero_precision_iff_witness :
    let d : Directive := ⟨[], .literal 5 [] (by decide), .literal [0], .int⟩
    emitted (vcbprintf acceptAll () (d.format 'd') (d.args (.word 42))).2.trace =
        zeroPrecisionText d.flags d.width.value.toNat .d (Conversion.d.value d.length 42) ↔
      d.ZeroPrecise .d 42 := by
  intro d
  exact zero_precision_iff (fun _ _ _ => rfl) () d .d 42 (by decide) (by simp [d]) (by decide) (by decide)

/-- `%.0d` of 0 prints a space. -/
theorem zero_as_space :
    let d : Directive := ⟨[], .absent, .literal [0], .int⟩
    emitted (vcbprintf acceptAll () (d.format 'd') (d.args (.word 0))).2.trace ≠
      zeroPrecisionText d.flags d.width.value.toNat .d (Conversion.d.value d.length 0) := by
  decide +kernel

end Hotarubi.Lib.Vcbprintf
