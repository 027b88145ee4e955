import Hotarubi.Proofs.VcbprintfSigned

/-! A negative argument for the precision. The code keeps it as a precision of zero with
a dot, and where the dot is looked at the two are not the same. -/

namespace Hotarubi.Lib.Vcbprintf
open Base.Numeral

/-- The directive with another precision. -/
def Directive.within (d : Directive) (precision : Precision) : Directive := { d with precision }

/-- The string that is read at a pointer; a null pointer has none. -/
def Reads (array : Option (List UInt8)) (s : List UInt8) : Prop :=
  array = none ∧ s = [] ∨ ∃ behind, array = some (s ++ 0 :: behind) ∧ ∀ c ∈ s, c ≠ 0

section Numbers

variable {d : Directive} {count : UInt64}

private theorem negative_field (negative : toInt count.toNat < 0) : (Precision.star count).field = 0 := by
  rw [Precision.field, Precision.value, Option.getD_some, max_eq_left (Int.le_of_lt negative), toInt_zero]

private theorem absent_field : Precision.absent.field = 0 := by
  rw [Precision.field, Precision.value, Option.getD_none, max_self, toInt_zero]

private theorem spec_within (negative : toInt count.toNat < 0) :
    (d.within (.star count)).spec = { (d.within .absent).spec with haveDot := true } := by
  simp only [Directive.spec, Directive.within, negative_field negative, absent_field]
  rfl

private theorem lead_within (negative : toInt count.toNat < 0) (conversion : Conversion) (value : Int) :
    (d.within (.star count)).lead conversion value = (d.within .absent).lead conversion value := by
  rw [Directive.lead, spec_within negative]
  rfl

private theorem numeral_visible {base : Nat} (order : 1 < base) (limit : base ≤ 16) (caps : Bool) (n : Nat) :
    numeral base caps n ≠ spaces 1 := by
  have visible : ∀ caps, ∀ place < 16, digit caps place ≠ ' '.toUInt8 := by decide
  intro blank
  have member : ' '.toUInt8 ∈ numeral base caps n := blank ▸ List.mem_singleton_self _
  rw [numeral_eq] at member
  obtain ⟨place, place_mem, same⟩ := List.mem_map.mp member
  exact visible caps place (Nat.lt_of_lt_of_le (places_lt order place_mem) limit) same

private theorem dot_matters {spec : Spec} (lead digits : List UInt8) (zero : Bool) (plain : spec.haveDot = false)
    (precision : spec.precision = 0) (other : digits ≠ spaces 1) :
    numberText { spec with haveDot := true } lead digits zero = numberText spec lead digits zero ↔ zero = false := by
  have blank : Spec.blank { spec with haveDot := true } zero = zero := by
    simp [Spec.blank, precision]
  have printed : spec.blank zero = false := by
    simp [Spec.blank, plain]
  have different : spaces 1 ≠ digits := other.symm
  rw [numberText_shape, numberText_shape, blank, printed]
  unfold Spec.lost Spec.filled Spec.missing
  cases zero with
  | false => simp
  | true =>
    simp only [if_true, Bool.false_eq_true, if_false, reduceCtorEq, iff_false]
    by_cases left : spec.flags.leftJustify = true <;> by_cases fill : spec.flags.fillWithZero = true
    all_goals simpa [left, fill] using different

end Numbers

section Strings

variable {d : Directive} {count : UInt64} {array : Option (List UInt8)} {s : List UInt8}

/-- What `%s` prints of a string, for the number of bytes it prints. -/
def stringText (spec : Spec) (array : Option (List UInt8)) (precision : Int) : List UInt8 :=
  let missing := if precision < spec.width then toSize (toInt (spec.width - precision)) else 0
  (if spec.flags.leftJustify then [] else spaces missing) ++
    (if precision = 0 then [] else (array.getD []).take (toSize precision)) ++
      if spec.flags.leftJustify then spaces missing else []

private theorem padSide_bytes (side : Bool) (size width : Int) :
    (padSide side size width).flatMap Command.bytes =
      if side then spaces (if size < width then toSize (toInt (width - size)) else 0) else [] := by
  unfold padSide
  cases side with
  | false => rfl
  | true =>
    simp only [Bool.true_and, decide_eq_true_eq, if_true, pad_bytes]
    rfl

theorem string_text {precision : Int} (found : stringPrecision d.spec array = .ok precision) :
    text (d.format 's') (d.args (.string array)) = stringText d.spec array precision ∧
      (printed (d.format 's') (d.args (.string array))).2 = .ok () := by
  have converted : ∀ start len, convert d.spec 's'.toUInt8 start len [.string array] =
      .ok (padSide (!d.spec.flags.leftJustify) precision d.spec.width ++
        (if precision ≠ 0 then [.puts (array.getD []) (toSize precision)] else []) ++
        padSide d.spec.flags.leftJustify precision d.spec.width, []) := by
    intro start len
    exact bind_ok.mpr ⟨(array, []), rfl, bind_ok.mpr ⟨precision, found, rfl⟩⟩
  have member : 's'.toUInt8 ∈ conversionHeads := by decide
  obtain ⟨bytes, finish⟩ := directive_text d member (.string array) converted
  refine ⟨?_, finish⟩
  rw [bytes, List.flatMap_append, List.flatMap_append, padSide_bytes, padSide_bytes, stringText]
  have printed : (if precision ≠ 0 then [Command.puts (array.getD []) (toSize precision)] else []).flatMap Command.bytes =
      if precision = 0 then [] else (array.getD []).take (toSize precision) := by
    by_cases zero : precision = 0 <;> simp [zero, Command.bytes]
  rw [printed]
  cases d.spec.flags.leftJustify <;> simp

private theorem stringLength_eq (reads : Reads array s) : stringLength array = .ok (toInt s.length) := by
  rcases reads with ⟨rfl, rfl⟩ | ⟨behind, rfl, plain⟩
  · rw [List.length_nil, Nat.cast_zero, toInt_zero]
    rfl
  · rw [stringLength, strlen_eq plain]
    rfl

private theorem stringText_blank (spec : Spec) (array : Option (List UInt8)) (bound : spec.width < 2 ^ 31) :
    stringText spec array 0 = spaces spec.width.toNat := by
  have missing : (if 0 < spec.width then toSize (toInt (spec.width - 0)) else 0) = spec.width.toNat := by
    split
    next more => rw [toSize_toInt (by omega) (by omega), Int.sub_zero]
    next less => omega
  rw [stringText, missing]
  cases spec.flags.leftJustify <;> simp

private theorem stringText_eq_spaces {spec : Spec} {precision : Int} (some : precision ≠ 0) (count : Nat) :
    stringText spec array precision = spaces count ↔
      (if precision < spec.width then toSize (toInt (spec.width - precision)) else 0) +
          ((array.getD []).take (toSize precision)).length = count ∧
        ∀ c ∈ (array.getD []).take (toSize precision), c = ' '.toUInt8 := by
  have fill : ∀ count, ∀ c ∈ spaces count, c = ' '.toUInt8 := fun count c member => List.eq_of_mem_replicate member
  have size : ∀ count, (spaces count).length = count := fun count => List.length_replicate
  rw [stringText, if_neg some, spaces.eq_1 count, List.eq_replicate_iff]
  refine and_congr ?_ ?_
  · cases spec.flags.leftJustify
    all_goals
      simp only [List.length_append, if_true, Bool.false_eq_true, if_false, List.length_nil, size]
      omega
  · cases spec.flags.leftJustify with
    | false =>
      simp only [List.mem_append, Bool.false_eq_true, if_false, List.not_mem_nil, or_false]
      exact ⟨fun all c member => all c (.inr member), fun all c member => member.elim (fill _ c) (all c)⟩
    | true =>
      simp only [List.mem_append, if_true, List.not_mem_nil, false_or]
      exact ⟨fun all c member => all c (.inl member), fun all c member => member.elim (all c) (fill _ c)⟩

private theorem stringText_eq_iff {spec : Spec} (reads : Reads array s) (bound : spec.width < 2 ^ 31) :
    stringText spec array 0 = stringText spec array (toInt s.length) ↔
      toInt s.length = 0 ∨
        0 < toInt s.length ∧ toInt s.length ≤ spec.width ∧ ∀ c ∈ s.take (toInt s.length).toNat, c = ' '.toUInt8 := by
  have value := toInt_eq s.length
  rcases reads with ⟨rfl, rfl⟩ | ⟨behind, rfl, _⟩
  · rw [List.length_nil, Nat.cast_zero, toInt_zero]
    exact iff_of_true rfl (.inl rfl)
  rw [stringText_blank spec _ bound]
  generalize toInt s.length = size at value
  rcases Int.lt_trichotomy size 0 with negative | rfl | positive
  · -- the length that is handed over is beyond all widths
    have large : toSize size = 2 ^ 64 - size.natAbs := by
      rw [toSize_eq]
      omega
    have long : 2 ^ 31 ≤ ((s ++ 0 :: behind).take (toSize size)).length := by
      rw [List.length_take, large, List.length_append]
      omega
    refine iff_of_false (fun same => ?_) (by omega)
    have count := ((stringText_eq_spaces (Int.ne_of_lt negative) _).mp same.symm).1
    rw [Option.getD_some] at count
    omega
  · exact iff_of_true (stringText_blank spec _ bound).symm (.inl rfl)
  · have whole : toSize size = size.toNat := by
      rw [toSize_eq]
      omega
    have within : size.toNat ≤ s.length := by omega
    have taken : (s ++ 0 :: behind).take (toSize size) = s.take size.toNat := by
      rw [whole, List.take_append_of_le_length within]
    have missing : (if size < spec.width then toSize (toInt (spec.width - size)) else 0) = (spec.width - size).toNat := by
      split
      next more => rw [toSize_toInt (by omega) (by omega)]
      next less => omega
    rw [eq_comm, stringText_eq_spaces (Int.ne_of_gt positive), Option.getD_some, taken, missing, List.length_take,
      Nat.min_eq_left within]
    constructor
    · rintro ⟨count, blank⟩
      exact .inr ⟨positive, by omega, blank⟩
    · rintro (zero | ⟨_, fits, blank⟩)
      · omega
      · exact ⟨by omega, blank⟩

end Strings

/-- A negative precision is the same as none for the numbers other than zero, and for
strings of which nothing is to be seen: empty ones, and spaces that fit into the field. -/
theorem negative_precision_iff {σ : Type} {cb : Callback σ} (accepting : Accepting cb) (p q : σ) (d : Directive)
    (count : UInt64) (negative : toInt count.toNat < 0) :
    (∀ (conversion : Conversion) (argument : UInt64),
      emitted (vcbprintf cb p ((d.within (.star count)).format conversion.char)
          ((d.within (.star count)).args (.word argument))).2.trace =
        emitted (vcbprintf cb q ((d.within .absent).format conversion.char)
          ((d.within .absent).args (.word argument))).2.trace ↔
      conversion.fetched d.length argument ≠ 0) ∧
    ∀ (array : Option (List UInt8)) (s : List UInt8), Reads array s →
      (emitted (vcbprintf cb p ((d.within (.star count)).format 's')
        ((d.within (.star count)).args (.string array))).2.trace =
        emitted (vcbprintf cb q ((d.within .absent).format 's') ((d.within .absent).args (.string array))).2.trace ↔
      toInt s.length = 0 ∨
        0 < toInt s.length ∧ toInt s.length ≤ d.width.field ∧ ∀ c ∈ s.take (toInt s.length).toNat, c = ' '.toUInt8) := by
  constructor
  · intro conversion argument
    have small := fetched_natAbs conversion d.length argument
    have digits : numeral conversion.base (conversion = .X) (conversion.fetched d.length argument).natAbs ≠ spaces 1 :=
      numeral_visible conversion.base_bounds.1 conversion.base_bounds.2 _ _
    have plain : (d.within .absent).spec.haveDot = false := rfl
    have dot := dot_matters ((d.within .absent).lead conversion (conversion.fetched d.length argument))
      (numeral conversion.base (conversion = .X) (conversion.fetched d.length argument).natAbs)
      (decide (conversion.fetched d.length argument = 0)) plain absent_field digits
    rw [emitted_text accepting, emitted_text accepting, integer_text, integer_text, spec_within negative,
      lead_within negative]
    exact dot.trans decide_eq_false_iff_not
  · intro array s reads
    have none : (d.within .absent).spec.havePrecision = false := by
      simp [Directive.spec, Directive.within, absent_field]
    have star : stringPrecision (d.within (.star count)).spec array = .ok 0 := by
      simp only [spec_within negative, stringPrecision, none, Bool.not_false, if_true]
    have absent : stringPrecision (d.within .absent).spec array = .ok (toInt s.length) := by
      rw [stringPrecision, none, ← stringLength_eq reads]
      rfl
    rw [emitted_text accepting, emitted_text accepting, (string_text star).1, (string_text absent).1, spec_within negative]
    exact stringText_eq_iff reads (field_lt d.width)

theorem negative_precision_iff_witness :
    let d : Directive := ⟨[], .absent, .absent, .int⟩
    emitted (vcbprintf acceptAll () ((d.within (.star (-1))).format 'd') ((d.within (.star (-1))).args (.word 5))).2.trace =
        emitted (vcbprintf acceptAll () ((d.within .absent).format 'd') ((d.within .absent).args (.word 5))).2.trace ∧
      emitted (vcbprintf acceptAll () ((d.within (.star (-1))).format 's')
          ((d.within (.star (-1))).args (.string (some [0])))).2.trace =
        emitted (vcbprintf acceptAll () ((d.within .absent).format 's')
          ((d.within .absent).args (.string (some [0])))).2.trace := by
  intro d
  have accepting : Accepting acceptAll := fun _ _ _ => rfl
  have both := negative_precision_iff accepting () () d (-1) (by decide)
  have nonzero : Conversion.d.fetched d.length 5 ≠ 0 := by decide
  have empty : Reads (some [0]) [] := .inr ⟨[], rfl, fun _ member => absurd member List.not_mem_nil⟩
  exact ⟨(both.1 .d 5).mpr nonzero, (both.2 (some [0]) [] empty).mpr (.inl toInt_zero)⟩

/-- `%.*d` prints a space for -1 and 0, and `%d` prints the zero. -/
theorem zero_hidden :
    let d : Directive := ⟨[], .absent, .absent, .int⟩
    ¬emitted (vcbprintf acceptAll () ((d.within (.star (-1))).format 'd')
      ((d.within (.star (-1))).args (.word 0))).2.trace =
        emitted (vcbprintf acceptAll () ((d.within .absent).format 'd') ((d.within .absent).args (.word 0))).2.trace := by
  decide +kernel

end Hotarubi.Lib.Vcbprintf
