import Hotarubi.Proofs.VcbprintfDirective

/-! Integer conversions against the text of C99. The code adds up sign, prefix and
precision before it pads; the reference says what stands where. -/

namespace Hotarubi.Lib.Vcbprintf
open Base.Numeral

section Layout

variable {d : Directive}

theorem natural_width {width : Width} (positive : 0 ≤ width.value) (small : width.value.toNat < 2 ^ 31) :
    width.field = width.value.toNat := by
  have size : width.value.natAbs = width.value.toNat := by omega
  rw [Width.field, size, toInt_small small]

private theorem positive_precision {precision : Precision} (positive : precision.Positive)
    (small : (precision.value.map Int.toNat).getD 1 < 2 ^ 31) :
    max 1 precision.field = (precision.value.map Int.toNat).getD 1 ∧
      (precision.value.isSome = true ↔ 0 < precision.field) := by
  rw [Precision.field]
  cases value : precision.value with
  | none => simp [toInt_zero]
  | some value' =>
    have least := positive value' value
    simp only [value, Option.map_some, Option.getD_some] at small
    simp only [Option.map_some, Option.getD_some, Option.isSome_some, true_iff]
    have exact_value : toInt (max 0 value') = value' := by
      rw [toInt_eq]
      omega
    rw [exact_value]
    omega

private theorem integerText_length (flags : List Flag) (width : Nat) (precision : Option Nat)
    (conversion : Conversion) (value : Int) :
    width ≤ (integerText flags width precision conversion value).length ∧
      (leader flags conversion value).length +
          max (precision.getD 1) (numeral conversion.base (conversion = .X) value.natAbs).length ≤
        (integerText flags width precision conversion value).length := by
  have positive := numeral_length_pos conversion.base (decide (conversion = .X)) value.natAbs
  unfold integerText
  simp only
  split
  next => simp [zeros, spaces]; omega
  next => split <;> simp [zeros, spaces] <;> omega

theorem lead_signed {conversion : Conversion} (signed : conversion.signed = true) (value : Int) :
    d.lead conversion value = leader d.flags conversion value := by
  unfold Directive.lead signText prefixText leader
  simp only [signed, Directive.spec, Bool.true_and, Bool.not_true, Bool.false_and, if_true]
  by_cases negative : value < 0 <;> by_cases plus : .plus ∈ d.flags <;> by_cases space : .space ∈ d.flags
  all_goals simp [negative, plus, space]

/-- The code puts the prefix of `#` in front of unsigned decimal numbers too. -/
theorem lead_eq_leader {conversion : Conversion} {value : Int}
    (alternate : .hash ∈ d.flags → conversion = .x ∨ conversion = .X)
    (small : value.natAbs < 2 ^ 64) : d.lead conversion value = leader d.flags conversion value := by
  by_cases signed : conversion.signed = true
  · exact lead_signed signed value
  have zero : (UInt64.ofNat value.natAbs != 0) = decide (value ≠ 0) := by
    rw [Bool.eq_iff_iff, bne_iff_ne, decide_eq_true_eq, ne_eq, ne_eq, ← UInt64.toNat_inj, UInt64.toNat_ofNat_of_lt' small]
    exact not_congr Int.natAbs_eq_zero
  unfold Directive.lead signText prefixText leader
  simp only [zero, signed, Directive.spec, Bool.false_and, Bool.not_false, Bool.true_and]
  by_cases hash : .hash ∈ d.flags
  · by_cases nonzero : value = 0
    · simp [nonzero]
    · rcases alternate hash with rfl | rfl
      all_goals
        simp [hash, nonzero]
        rfl
  · simp [hash]

private theorem fetched_value {length : Length} (wide : length ≠ .char ∧ length ≠ .short) (conversion : Conversion)
    (argument : UInt64) :
    conversion.fetched length argument = conversion.value length argument := by
  have bits : length.argBits = length.bits := by
    cases length with
    | char => exact absurd rfl wide.1
    | short => exact absurd rfl wide.2
    | _ => rfl
  rw [Conversion.fetched, Conversion.value, bits]

private theorem numberText_natural {spec : Spec} {lead digits : List UInt8} {zero : Bool} {width precision : Nat}
    (field : spec.width = width) (most : max 1 spec.precision = precision) (positive : 0 < digits.length)
    (printed : (spec.haveDot && decide (spec.precision = 0) && zero) = false)
    (total : lead.length + max precision digits.length < 2 ^ 31) (wide : width < 2 ^ 31) :
    numberText spec lead digits zero =
      let number := zeros (precision - digits.length) ++ digits
      let missing := width - (lead ++ number).length
      if spec.flags.leftJustify then (if spec.flags.fillWithZero then [] else lead) ++ number ++ spaces missing
      else if spec.flags.fillWithZero then lead ++ zeros missing ++ number
      else spaces missing ++ lead ++ number := by
  have count : (spec.precision - digits.length).toNat = precision - digits.length := by omega
  have length : toInt (max spec.precision digits.length + lead.length) =
    (lead.length + max precision digits.length : Nat) := by
    rw [← toInt_small total]
    congr 1
    omega
  have size : (lead ++ (zeros (precision - digits.length) ++ digits)).length =
    lead.length + max precision digits.length := by
    simp only [List.length_append, zeros, List.length_replicate]
    omega
  have missing : (if ((lead.length + max precision digits.length : Nat) : Int) < (width : Int) then
      toSize (toInt (width - (lead.length + max precision digits.length : Nat))) else 0) =
      width - (lead.length + max precision digits.length) := by
    split
    next more =>
      rw [toSize_toInt (by omega) (by omega)]
      omega
    next less => omega
  unfold numberText
  simp only [field, count, printed, length, missing, size, Bool.false_eq_true, if_false]

/-- Where nothing overflows and the precision is absent or at least one, the layout of the
code is that of C99. -/
private theorem numberText_eq {conversion : Conversion} {value : Int} (width : 0 ≤ d.width.value)
    (precision : d.precision.Positive)
    (total : (integerText d.flags d.width.value.toNat (d.precision.value.map Int.toNat) conversion value).length < 2 ^ 31) :
    numberText d.spec (leader d.flags conversion value) (numeral conversion.base (conversion = .X) value.natAbs)
      (decide (value = 0)) =
      integerText d.flags d.width.value.toNat (d.precision.value.map Int.toNat) conversion value := by
  obtain ⟨wide, long⟩ :=
    integerText_length d.flags d.width.value.toNat (d.precision.value.map Int.toNat) conversion value
  have positive := numeral_length_pos conversion.base (decide (conversion = .X)) value.natAbs
  have least : (d.precision.value.map Int.toNat).getD 1 < 2 ^ 31 := by omega
  obtain ⟨most, precise⟩ := positive_precision precision least
  have field : d.spec.width = d.width.value.toNat := natural_width width (Nat.lt_of_le_of_lt wide total)
  have printed : (d.spec.haveDot && decide (d.spec.precision = 0) && decide (value = 0)) = false := by
    rw [Bool.eq_false_iff]
    intro blank
    simp only [Directive.spec, Bool.and_eq_true, decide_eq_true_eq] at blank
    have more := precise.mp blank.1.1
    exact Int.ne_of_gt more (of_decide_eq_true blank.1.2)
  have left : d.spec.flags.leftJustify = decide (.minus ∈ d.flags) := by
    simp [Directive.spec, Int.not_lt.mpr width]
  have fill : d.spec.flags.fillWithZero =
      decide (.zero ∈ d.flags ∧ .minus ∉ d.flags ∧ d.precision.value.map Int.toNat = none) := by
    rw [Bool.eq_iff_iff, decide_eq_true_eq]
    simp only [Directive.spec, decide_eq_true_eq, ← precise, Option.map_eq_none_iff, Bool.not_eq_true,
      Option.isSome_eq_false_iff, Option.isNone_iff_eq_none]
  have small : (leader d.flags conversion value).length + max ((d.precision.value.map Int.toNat).getD 1)
      (numeral conversion.base (conversion = .X) value.natAbs).length < 2 ^ 31 := Nat.lt_of_le_of_lt long total
  have narrow : d.width.value.toNat < 2 ^ 31 := Nat.lt_of_le_of_lt wide total
  rw [numberText_natural field most positive printed small narrow]
  unfold integerText
  simp only [left, fill, decide_eq_true_eq]
  by_cases minus : .minus ∈ d.flags
  · simp only [minus, if_true, not_true_eq_false, false_and, and_false, if_false]
  · simp only [minus, if_false, not_false_eq_true, true_and]

end Layout

/-- Integer conversions print the text of C99. -/
theorem integer_formatting {σ : Type} {cb : Callback σ} (accepting : Accepting cb) (p : σ) (d : Directive)
    (conversion : Conversion) (argument : UInt64) (alternate : .hash ∈ d.flags → conversion = .x ∨ conversion = .X)
    (length : d.length ≠ .char ∧ d.length ≠ .short) (width : 0 ≤ d.width.value) (precision : d.precision.Positive)
    (total : (integerText d.flags d.width.value.toNat (d.precision.value.map Int.toNat) conversion
      (conversion.value d.length argument)).length < 2 ^ 31) :
    emitted (vcbprintf cb p (d.format conversion.char) (d.args (.word argument))).2.trace =
      integerText d.flags d.width.value.toNat (d.precision.value.map Int.toNat) conversion
        (conversion.value d.length argument) := by
  have value := fetched_value length conversion argument
  have small := fetched_natAbs conversion d.length argument
  have lead := lead_eq_leader alternate small
  rw [emitted_text accepting, integer_text, lead, value]
  exact numberText_eq width precision total

/-- `%+#010.*lx` -/
theorem integer_formatting_witness :
    let d : Directive := ⟨[.plus, .hash, .zero], .literal 1 [0] (by decide), .star 4, .long⟩
    emitted (vcbprintf acceptAll () (d.format 'x') (d.args (.word 254))).2.trace =
      integerText d.flags d.width.value.toNat (d.precision.value.map Int.toNat) .x 254 := by
  intro d
  exact integer_formatting (fun _ _ _ => rfl) () d .x 254 (fun _ => .inl rfl) (by decide) (by decide) (by decide)
    (by decide)

end Hotarubi.Lib.Vcbprintf
