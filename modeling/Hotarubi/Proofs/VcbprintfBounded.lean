import Hotarubi.Proofs.VcbprintfPrecision
import Mathlib.Data.List.TakeWhile

/-! Strings with a precision. Their length is taken before the precision is looked at,
so that an array without a NUL is read behind its end. -/

namespace Hotarubi.Lib.Vcbprintf

/-- What is to be printed of an array: no more than the limit, and nothing from a NUL on. -/
def shown (limit : Nat) (array : List UInt8) : List UInt8 := (array.take limit).takeWhile (· ≠ 0)

/-- The field is left-justified, by a flag or by a negative width. -/
def Directive.left (d : Directive) : Bool := decide (.minus ∈ d.flags ∨ d.width.value < 0)

/-- What is asked of a string with a precision: it comes to a result when only that many
bytes can be read, and prints them in their field. -/
structure PrintsBounded {σ : Type} (cb : Callback σ) (p : σ) (d : Directive) (limit : Nat) (array : List UInt8) : Prop where
  inside : ∃ rc, (vcbprintf cb p (d.format 's') (d.args (.string (some (array.take limit))))).1 = .ok rc
  bytes : emitted (vcbprintf cb p (d.format 's') (d.args (.string (some (array.take limit))))).2.trace =
    fieldText d.left d.width.value.natAbs (shown limit array)

/-- There is a NUL among the bytes, or the precision is zero as an `int`. The width is an
`int`, and so is the precision, unless what it then hides is as blank as the field. -/
structure Directive.Bounded (d : Directive) (limit : Nat) (array : List UInt8) : Prop where
  ended : d.precision.field ≤ 0 ∨ 0 ∈ array.take limit
  width : d.width.value.natAbs < 2 ^ 31
  whole : (shown limit array).length ≤ d.precision.field.toNat ∨
    (shown limit array).length ≤ d.width.value.natAbs ∧
      ∀ c ∈ if d.left then (shown limit array).drop d.precision.field.toNat else shown limit array, c = ' '.toUInt8

section Fields

variable {s : List UInt8} {left : Bool} {width count : Nat}

private theorem fieldText_length (left : Bool) (width : Nat) (s : List UInt8) : (fieldText left width s).length =
    max width s.length := by
  unfold fieldText
  cases left <;> simp [spaces] <;> omega

private theorem shifted_blank {c : UInt8} {shift : Nat} (positive : 0 < shift)
    (same : List.replicate shift c ++ s.take count = s) : ∀ x ∈ s, x = c := by
  have each : ∀ (i : Nat) (x : UInt8), s[i]? = some x → x = c := by
    intro i
    induction i using Nat.strongRecOn with
    | ind i ih =>
      intro x found
      have here : (List.replicate shift c ++ s.take count)[i]? = some x := by rw [same, found]
      by_cases front : i < shift
      · rw [List.getElem?_append_left (by rw [List.length_replicate]; exact front), List.getElem?_replicate,
          if_pos front] at here
        exact (Option.some.inj here).symm
      · rw [List.getElem?_append_right (by rw [List.length_replicate]; omega), List.length_replicate,
          List.getElem?_take] at here
        split at here
        next => exact ih (i - shift) (by omega) x here
        next => cases here
  intro x member
  obtain ⟨i, found⟩ := List.mem_iff_getElem?.mp member
  exact each i x found

private theorem eq_spaces {text : List UInt8} (blank : ∀ c ∈ text, c = ' '.toUInt8) : text = spaces text.length :=
  List.eq_replicate_iff.mpr ⟨rfl, blank⟩

private theorem spaces_blank : ∀ c ∈ spaces count, c = ' '.toUInt8 := fun _ member => List.eq_of_mem_replicate member

private theorem fieldText_take_iff : fieldText left width (s.take count) = fieldText left width s ↔
    s.length ≤ count ∨ s.length ≤ width ∧ ∀ c ∈ if left then s.drop count else s, c = ' '.toUInt8 := by
  by_cases all : s.length ≤ count
  · exact iff_of_true (by rw [List.take_of_length_le all]) (.inl all)
  have size : (s.take count).length = count := by
    rw [List.length_take]
    omega
  refine ⟨fun same => .inr ?_, fun blank => ?_⟩
  · have lengths := congrArg List.length same
    rw [fieldText_length, fieldText_length, size] at lengths
    have fits : s.length ≤ width := by omega
    refine ⟨fits, ?_⟩
    cases left with
    | true =>
      simp only [fieldText, if_true, size] at same ⊢
      have whole : s.take count ++ spaces (width - count) = s.take count ++
        (s.drop count ++ spaces (width - s.length)) := by
        rw [← List.append_assoc, List.take_append_drop, same]
      have behind := List.append_cancel_left whole
      intro c member
      apply spaces_blank c
      rw [behind]
      exact List.mem_append_left _ member
    | false =>
      simp only [fieldText, Bool.false_eq_true, if_false, size] at same ⊢
      have more : width - count = width - s.length + (s.length - count) := by omega
      rw [more, ← spaces_append, List.append_assoc] at same
      exact shifted_blank (by omega) (List.append_cancel_left same)
  · obtain ⟨fits, blank⟩ := blank.resolve_left all
    have more : width - count = s.length - count + (width - s.length) := by omega
    cases left with
    | true =>
      simp only [if_true] at blank
      have behind := eq_spaces blank
      rw [List.length_drop] at behind
      simp only [fieldText, if_true, size]
      rw [more, ← spaces_append, ← behind, ← List.append_assoc, List.take_append_drop]
    | false =>
      simp only [Bool.false_eq_true, if_false] at blank
      have whole := eq_spaces blank
      have front : s.take count = spaces count := by
        rw [whole, spaces, List.take_replicate, Nat.min_eq_left (by omega), spaces]
      simp only [fieldText, Bool.false_eq_true, if_false, size]
      rw [front, spaces_append]
      conv_rhs => rw [whole, spaces_append, length_spaces]
      congr 1
      omega

end Fields

section Strings

variable {d : Directive} {limit : Nat} {array : List UInt8}

/-- The number of bytes that are printed, where the string has an end. -/
def Directive.printedCount (d : Directive) (length : Nat) : Int :=
  if d.precision.field ≤ 0 then 0
  else if d.precision.field < toInt length then d.precision.field else toInt length

private theorem stringPrecision_bounded (limit : Nat) (array : List UInt8) (precision : d.precision.value.isSome = true) :
    stringPrecision d.spec (some (array.take limit)) =
      if d.precision.field ≤ 0 ∨ 0 ∈ array.take limit then .ok (d.printedCount (shown limit array).length)
      else .error .stringEnd := by
  have dot : d.spec.haveDot = true := precision
  have precise : d.spec.havePrecision = decide (0 < d.precision.field) := rfl
  have field : d.spec.precision = d.precision.field := rfl
  rw [stringPrecision, precise, dot, field]
  by_cases none : d.precision.field ≤ 0
  · simp [none, Directive.printedCount]
  · have positive : 0 < d.precision.field := by omega
    by_cases ends : 0 ∈ array.take limit
    · simp [none, positive, ends, stringLength, strlen_takeWhile, Directive.printedCount, shown, Except.map]
    · simp [none, positive, ends, stringLength, strlen_takeWhile, Except.map]

private theorem shown_nonzero (limit : Nat) (array : List UInt8) : ∀ c ∈ shown limit array, c ≠ 0 := by
  intro c member
  have plain := List.mem_takeWhile_imp member
  exact of_decide_eq_true plain

private theorem shown_prefix (limit : Nat) (array : List UInt8) : ∃ behind, array.take limit =
    shown limit array ++ behind := by
  obtain ⟨behind, same⟩ := List.takeWhile_prefix (l := array.take limit) (· ≠ 0)
  exact ⟨behind, same.symm⟩

private theorem field_nonzero (left : Bool) (width : Nat) {s : List UInt8} (plain : ∀ c ∈ s, c ≠ 0) :
    0 ∉ fieldText left width s := by
  have blank : (0 : UInt8) ∉ spaces (width - s.length) := fun member => absurd (spaces_blank 0 member) (by decide)
  have none : 0 ∉ s := fun member => plain 0 member rfl
  unfold fieldText
  cases left <;> simp [blank, none]

private theorem stringText_field (count : Nat) (less : count < 2 ^ 31) (within : count ≤ (shown limit array).length) :
    stringText d.spec (some (array.take limit)) count =
      fieldText d.left d.width.field.toNat ((shown limit array).take count) := by
  obtain ⟨behind, front⟩ := shown_prefix limit array
  have bound : d.width.field < 2 ^ 31 := field_lt d.width
  have left : d.spec.flags.leftJustify = d.left := by
    simp [Directive.spec, Directive.left]
  have width : d.spec.width = d.width.field := rfl
  have size : toSize count = count := by
    rw [toSize_eq]
    omega
  have missing : (if (count : Int) < d.width.field then toSize (toInt (d.width.field - count)) else 0) =
      d.width.field.toNat - count := by
    split
    next more =>
      rw [toSize_toInt (by omega) (by omega)]
      omega
    next => omega
  have bytes : (if (count : Int) = 0 then [] else ((some (array.take limit)).getD []).take (toSize count)) =
      (shown limit array).take count := by
    rw [size, Option.getD_some, front, List.take_append_of_le_length within]
    split
    next zero =>
      obtain rfl : count = 0 := by omega
      rfl
    next => rfl
  have length : ((shown limit array).take count).length = count := by
    rw [List.length_take]
    omega
  rw [stringText, left, width, missing, bytes, fieldText, length]
  cases d.left <;> simp

private theorem overflow_text {count : Int} (negative : count < 0) (least : -2147483648 ≤ count)
    (size : array.length < 2 ^ 63)
    (ends : 0 ∈ array.take limit) : 0 ∈ stringText d.spec (some (array.take limit)) count := by
  have large : toSize count = (18446744073709551616 + count).toNat := by
    rw [toSize_eq]
    omega
  have all : ((some (array.take limit)).getD []).take (toSize count) = array.take limit := by
    apply List.take_of_length_le
    rw [Option.getD_some, List.length_take, large]
    omega
  rw [stringText, if_neg (Int.ne_of_lt negative), all]
  simp [ends]

private theorem printedCount_small {length : Nat} (small : length < 2 ^ 31) :
    d.printedCount length = (min d.precision.field.toNat length : Nat) := by
  unfold Directive.printedCount
  rw [toInt_small small]
  split
  next => omega
  next => split <;> omega

private theorem printedCount_bounds (d : Directive) (length : Nat) :
    -2147483648 ≤ d.printedCount length ∧ d.printedCount length < 2147483648 ∧
      (d.printedCount length < 0 → 0 < d.precision.field) := by
  have precise := field_bounds d.precision
  have value := toInt_eq length
  unfold Directive.printedCount
  split
  next => omega
  next => split <;> omega

private theorem bounded_text_iff (size : array.length < 2 ^ 63) (ended : d.precision.field ≤ 0 ∨ 0 ∈ array.take limit) :
    stringText d.spec (some (array.take limit)) (d.printedCount (shown limit array).length) =
        fieldText d.left d.width.value.natAbs (shown limit array) ↔
      d.width.value.natAbs < 2 ^ 31 ∧
        ((shown limit array).length ≤ d.precision.field.toNat ∨ (shown limit array).length ≤ d.width.value.natAbs ∧
          ∀ c ∈ if d.left then (shown limit array).drop d.precision.field.toNat else shown limit array, c =
            ' '.toUInt8) := by
  have bound : d.width.field < 2 ^ 31 := field_lt d.width
  have precise := field_bounds d.precision
  by_cases small : (shown limit array).length < 2 ^ 31
  · -- the count is the smaller one of the precision and the length
    have count := printedCount_small (d := d) small
    have text := stringText_field (d := d) (min d.precision.field.toNat (shown limit array).length)
      (by omega) (Nat.min_le_right _ _)
    have front : (shown limit array).take (min d.precision.field.toNat (shown limit array).length) =
        (shown limit array).take d.precision.field.toNat := List.take_eq_take_min.symm
    rw [count, text, front]
    by_cases wide : d.width.value.natAbs < 2 ^ 31
    · have width : d.width.field.toNat = d.width.value.natAbs := by
        rw [Width.field, toInt_small wide]
        rfl
      rw [width, fieldText_take_iff, and_iff_right wide]
    · refine iff_of_false (fun same => ?_) fun both => wide both.1
      have lengths := congrArg List.length same
      rw [fieldText_length, fieldText_length, List.length_take] at lengths
      omega
  · obtain ⟨least, most, negative⟩ := printedCount_bounds d (shown limit array).length
    refine iff_of_false (fun same => ?_) fun both => ?_
    · by_cases positive : 0 ≤ d.printedCount (shown limit array).length
      · obtain ⟨count, value⟩ := Int.eq_ofNat_of_zero_le positive
        have less : count < 2 ^ 31 := by omega
        have narrow : d.width.field.toNat < 2 ^ 31 := by omega
        rw [value, stringText_field count less (Nat.le_of_lt (Nat.lt_of_lt_of_le less (Nat.not_lt.mp small)))] at same
        have lengths := congrArg List.length same
        rw [fieldText_length, fieldText_length, List.length_take] at lengths
        have short := Nat.max_lt.mpr ⟨narrow, Nat.lt_of_le_of_lt (Nat.min_le_left count (shown limit array).length) less⟩
        rw [lengths] at short
        exact small (Nat.lt_of_le_of_lt (Nat.le_max_right _ _) short)
      · have below := Int.not_le.mp positive
        have ends := ended.resolve_left (Int.not_le.mpr (negative below))
        have nul := overflow_text (d := d) below least size ends
        rw [same] at nul
        exact field_nonzero d.left d.width.value.natAbs (shown_nonzero limit array) nul
    · obtain ⟨wide, whole⟩ := both
      rcases whole with all | blank
      · omega
      · exact absurd (Nat.lt_of_le_of_lt blank.1 wide) small

private theorem unended_fault (precision : d.precision.value.isSome = true)
    (open_ended : ¬(d.precision.field ≤ 0 ∨ 0 ∈ array.take limit)) :
    (printed (d.format 's') (d.args (.string (some (array.take limit))))).2 = .error .stringEnd := by
  have member : 's'.toUInt8 ∈ conversionHeads := by decide
  apply directive_fault d member
  intro start len
  have failed : convertString d.spec [.string (some (array.take limit))] = .error .stringEnd := by
    have reading := stringPrecision_bounded limit array precision
    rw [if_neg open_ended] at reading
    simp [convertString, vaString, reading, bind, Except.bind]
  exact failed

end Strings

/-- A string is printed within its precision, and read within it, exactly under these
conditions. An array has fewer than 2 ^ 63 bytes. -/
theorem bounded_string_iff {σ : Type} {cb : Callback σ} (accepting : Accepting cb) (p : σ) (d : Directive) (limit : Nat)
    (precision : d.precision.value = some (limit : Int)) (array : List UInt8) (size : array.length < 2 ^ 63)
    (_held : limit ≤ array.length ∨ 0 ∈ array.take limit) :
    PrintsBounded cb p d limit array ↔ d.Bounded limit array := by
  have dot : d.precision.value.isSome = true := by rw [precision]; rfl
  have reading := stringPrecision_bounded limit array dot
  obtain ⟨rc, result⟩ := accepted_result accepting p (d.format 's') (d.args (.string (some (array.take limit))))
  by_cases ended : d.precision.field ≤ 0 ∨ 0 ∈ array.take limit
  · rw [if_pos ended] at reading
    obtain ⟨text, finish⟩ := string_text reading
    have exact_text := bounded_text_iff (d := d) size ended
    rw [← text, ← emitted_text accepting p] at exact_text
    refine ⟨fun prints => ?_, fun bounded => ⟨⟨rc, ?_⟩, exact_text.mpr ⟨bounded.width, bounded.whole⟩⟩⟩
    · obtain ⟨width, whole⟩ := exact_text.mp prints.bytes
      exact ⟨ended, width, whole⟩
    · rw [result, finish]
      rfl
  · refine iff_of_false (fun prints => ?_) fun bounded => ended bounded.ended
    obtain ⟨rc', inside⟩ := prints.inside
    rw [result, unended_fault dot ended] at inside
    cases inside

/-- For a precision that is an `int` all that matters is that there is a NUL to be read. -/
theorem bounded_of_int {d : Directive} {limit : Nat} {array : List UInt8}
    (precision : d.precision.value = some (limit : Int))
    (small : limit < 2 ^ 31) (width : d.width.value.natAbs < 2 ^ 31) :
    d.Bounded limit array ↔ limit = 0 ∨ 0 ∈ array.take limit := by
  have field : d.precision.field = limit := by
    rw [Precision.field, precision, Option.getD_some, max_eq_right (by omega), toInt_small small]
  have within : (shown limit array).length ≤ limit := by
    obtain ⟨behind, front⟩ := shown_prefix limit array
    have lengths := congrArg List.length front
    rw [List.length_take, List.length_append] at lengths
    omega
  refine ⟨fun bounded => ?_, fun ended => ⟨?_, width, .inl (by rwa [field])⟩⟩
  · have ended := bounded.ended
    rw [field] at ended
    exact ended.imp_left (by omega)
  · rw [field]
    exact ended.imp_left (by omega)

/-- `%6.6s` of the bytes of "ab" with its NUL -/
theorem bounded_string_iff_witness :
    let d : Directive := ⟨[], .literal 6 [] (by decide), .literal [6], .int⟩
    PrintsBounded acceptAll () d 6 [97, 98, 0] ↔ d.Bounded 6 [97, 98, 0] := by
  intro d
  exact bounded_string_iff (fun _ _ _ => rfl) () d 6 (by decide) [97, 98, 0] (by decide) (.inr (by decide))

/-- `%6.6s` of six bytes without a NUL, as the tables of the firmware have them. -/
theorem unterminated_string_overread :
    let d : Directive := ⟨[], .literal 6 [] (by decide), .literal [6], .int⟩
    ¬PrintsBounded acceptAll () d 6 (['B', 'O', 'C', 'H', 'S', ' '].map Char.toUInt8) := by
  intro d prints
  obtain ⟨rc, inside⟩ := prints.inside
  have faulty : (vcbprintf acceptAll () (d.format 's')
      (d.args (.string (some ((['B', 'O', 'C', 'H', 'S', ' '].map Char.toUInt8).take 6))))).1 = .error .stringEnd := by
    decide +kernel
  rw [faulty] at inside
  cases inside

end Hotarubi.Lib.Vcbprintf
