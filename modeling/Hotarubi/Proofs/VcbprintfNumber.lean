import Hotarubi.Lib.Directive

/-! The text that `convert_number` writes. One loop counts the digits of a number and
another writes as many of its last ones as there is room for, so both together come to
positional notation, of the number or of what is left of it. -/

namespace Hotarubi.Lib.Vcbprintf
open Base.Numeral

section Digits

variable {base : Nat} {caps : Bool}

private theorem digit_eq (place : Nat) : digit caps place = UInt8.ofNat
    (if place < 10 then '0'.toNat + place else (if caps then 'A' else 'a').toNat + (place - 10)) := by
  have zero : '0'.toNat = 48 := rfl
  have capital : 'A'.toNat = 65 := rfl
  have small : 'a'.toNat = 97 := rfl
  unfold digit
  split
  next => rw [zero]
  next large =>
    congr 1
    cases caps
    all_goals
      simp only [if_true, Bool.false_eq_true, if_false, capital, small]
      omega

private theorem digit_ne_zero {place : Nat} (small : place < 16) : digit caps place ≠ 0 := by
  intro zero
  have value := congrArg UInt8.toNat zero
  unfold digit at value
  split at value
  next => simp at value; omega
  next => cases caps <;> simp at value <;> omega

/-- `convtab_lower` and `convtab_upper` -/
def convtab (caps : Bool) : List UInt8 :=
  (if caps then ['0', '1', '2', '3', '4', '5', '6', '7', '8', '9', 'A', 'B', 'C', 'D', 'E', 'F']
    else ['0', '1', '2', '3', '4', '5', '6', '7', '8', '9', 'a', 'b', 'c', 'd', 'e', 'f']).map Char.toUInt8

private theorem convtab_digit (caps : Bool) {place : Nat} (small : place < 16) : (convtab caps)[place]? = some
    (digit caps place) := by
  have table : ∀ place < 16, (convtab caps)[place]? = some (digit caps place) := by cases caps <;> decide
  exact table place small

private theorem convtab_idxOf (caps : Bool) {place : Nat} (small : place < 16) : (convtab caps).idxOf
    (digit caps place) = place := by
  have table : ∀ place < 16, (convtab caps).idxOf (digit caps place) = place := by cases caps <;> decide
  exact table place small

end Digits

section Loops

variable {base : Nat} {caps : Bool}

private theorem digitCount_eq (order : 1 < base) {limit n : Nat} (enough : (places base n).length ≤ limit) :
    digitCount base limit n = (places base n).length := by
  induction limit generalizing n with
  | zero => exact absurd (List.length_eq_zero_iff.mp (Nat.le_zero.mp enough)) places_ne_nil
  | succ limit ih =>
    unfold digitCount
    by_cases small : n < base
    · rw [if_pos (Nat.div_eq_of_lt small), places_small small, List.length_singleton]
    · have large := Nat.not_lt.mp small
      have quotient : n / base ≠ 0 := Nat.ne_of_gt (Nat.div_pos large (Nat.zero_lt_of_lt order))
      rw [places_large order large, List.length_append, List.length_singleton] at enough ⊢
      rw [if_neg quotient, ih (Nat.le_of_succ_le_succ enough), Nat.add_comm]

private theorem writeDigits_eq (len n : Nat) {s : List UInt8} (room : len ≤ s.length) :
    writeDigits base caps len n s = (lastPlaces base len n).map (digit caps) ++ s.drop len := by
  induction len generalizing n s with
  | zero => rfl
  | succ len ih =>
    have room' : len ≤ (s.set len (digit caps (n % base))).length := by
      rw [List.length_set]
      exact Nat.le_of_succ_le room
    rw [writeDigits, ih _ room', List.drop_set, if_neg (Nat.lt_irrefl _), Nat.sub_self, List.drop_eq_getElem_cons room,
      List.set_cons_zero, lastPlaces, List.map_append, List.append_assoc]
    rfl

private theorem places_length_word (order : 1 < base) (num : UInt64) : (places base num.toNat).length ≤ 64 := by
  apply places_length_le order (by omega)
  exact Nat.lt_of_lt_of_le num.toNat_lt (Nat.pow_le_pow_left order 64)

/-- The base that is used in place of the one asked for. -/
def clamp (base : Nat) : Nat := max 2 (min base 16)

private theorem clamp_eq (base : Nat) : (if base < 2 then 2 else if base > 16 then 16 else base) = clamp base := by
  unfold clamp
  split
  · omega
  · split <;> omega

private theorem clamp_bounds (base : Nat) : 1 < clamp base ∧ clamp base ≤ 16 := by
  unfold clamp
  omega

private theorem clamp_same (order : 1 < base) (limit : base ≤ 16) : clamp base = base := by
  unfold clamp
  omega

/-- How many digits are written: those of the number, where the buffer takes them. -/
def written (base n : Nat) (num : UInt64) : Nat := min n (places (clamp base) num.toNat).length

def writtenText (caps : Bool) (base n : Nat) (num : UInt64) : List UInt8 :=
  (lastPlaces (clamp base) (written base n num) num.toNat).map (digit caps)

private theorem writtenText_length (caps : Bool) (base n : Nat) (num : UInt64) :
    (writtenText caps base n num).length = written base n num := by
  rw [writtenText, List.length_map, lastPlaces_length]

private theorem convertNumber_places (caps : Bool) (base : Nat) {n : Nat} (limit : 0 < n) (num : UInt64) {s : List UInt8}
    (room : written base n num < s.length) :
    convertNumber s n num base caps = writtenText caps base n num ++ 0 :: s.drop (written base n num + 1) := by
  have order := (clamp_bounds base).1
  have cut : (if (places (clamp base) num.toNat).length > n then n else (places (clamp base) num.toNat).length) =
      written base n num := by
    unfold written
    split <;> omega
  have size := writtenText_length caps base n num
  unfold convertNumber
  rw [if_neg (Nat.ne_of_gt limit), clamp_eq]
  simp only [digitCount_eq order (places_length_word order num), cut]
  rw [writeDigits_eq _ _ (Nat.le_of_lt room), ← writtenText, List.set_append_right _ _ (Nat.le_of_eq size), size,
    Nat.sub_self,
    List.drop_eq_getElem_cons room, List.set_cons_zero]

end Loops

section Positional

variable {base : Nat} {caps : Bool}

private theorem map_idxOf {numbers : List Nat} (small : ∀ place ∈ numbers, place < 16) :
    (numbers.map (digit caps)).map (convtab caps).idxOf = numbers := by
  have back : ∀ place ∈ numbers, ((fun c => (convtab caps).idxOf c) ∘ digit caps) place = id place :=
    fun place member => convtab_idxOf caps (small place member)
  rw [List.map_map, List.map_congr_left back, List.map_id]

private theorem digit_mem_take (order : base ≤ 16) {place : Nat} (small : place < base) : digit caps place ∈
    (convtab caps).take base := by
  have found : ((convtab caps).take base)[place]? = some (digit caps place) := by
    rw [List.getElem?_take_of_lt small]
    exact convtab_digit caps (Nat.lt_of_lt_of_le small order)
  exact List.mem_of_getElem? found

private theorem digit_zero {place : Nat} (small : place < 16) (zero : digit caps place = '0'.toUInt8) : place = 0 := by
  have table : (convtab caps).idxOf '0'.toUInt8 = 0 := by cases caps <;> rfl
  rw [← convtab_idxOf caps small, zero, table]

/-- `convert_number` writes the last digits of the number in the base, all of them where
`n` lets it, terminates them, and leaves what is behind the terminator. -/
theorem convertNumber_positional (caps : Bool) (base n : Nat) (num : UInt64) (s : List UInt8) (limit : 0 < n)
    (room : min n (places (clamp base) num.toNat).length < s.length) :
    ∃ text, convertNumber s n num base caps = text ++ 0 :: s.drop (text.length + 1) ∧
      text.length = min n (places (clamp base) num.toNat).length ∧
      horner (clamp base) 0 (text.map (convtab caps).idxOf) = num.toNat % clamp base ^ text.length ∧
      (∀ c ∈ text, c ∈ (convtab caps).take (clamp base)) ∧
      (text.head? = some '0'.toUInt8 → num = 0 ∨ n < (places (clamp base) num.toNat).length) ∧
      (maxNumberLen ≤ n → text.length = (places (clamp base) num.toNat).length ∧
        horner (clamp base) 0 (text.map (convtab caps).idxOf) = num.toNat) := by
  obtain ⟨order, top⟩ := clamp_bounds base
  have below : ∀ place ∈ lastPlaces (clamp base) (written base n num) num.toNat, place < clamp base :=
    fun place member => lastPlaces_lt (Nat.zero_lt_of_lt order) member
  have small : ∀ place ∈ lastPlaces (clamp base) (written base n num) num.toNat, place < 16 :=
    fun place member => Nat.lt_of_lt_of_le (below place member) top
  have size := writtenText_length caps base n num
  have value : (writtenText caps base n num).map (convtab caps).idxOf = lastPlaces (clamp base)
    (written base n num) num.toNat :=
    map_idxOf small
  have whole : ¬n < (places (clamp base) num.toNat).length → written base n num = (places (clamp base) num.toNat).length :=
    fun long => Nat.min_eq_right (Nat.not_lt.mp long)
  refine ⟨writtenText caps base n num, ?_, size, ?_, ?_, ?_, ?_⟩
  · rw [size]
    exact convertNumber_places caps base limit num room
  · rw [value, size]
    exact horner_lastPlaces _ _
  · intro c member
    obtain ⟨place, place_mem, rfl⟩ := List.mem_map.mp member
    exact digit_mem_take top (below place place_mem)
  · intro leading
    by_cases cut : n < (places (clamp base) num.toNat).length
    · exact .inr cut
    · left
      apply UInt64.toNat_inj.mp
      by_contra nonzero
      rw [writtenText, whole cut, lastPlaces_all order, List.head?_map] at leading
      obtain ⟨place, first, zero⟩ := Option.map_eq_some_iff.mp leading
      have bound := Nat.lt_of_lt_of_le (places_lt order (List.mem_of_mem_head? first)) top
      rw [digit_zero bound zero] at first
      exact places_head nonzero first
  · intro long
    have short := places_length_word order num
    have fits : ¬n < (places (clamp base) num.toNat).length := by
      rw [maxNumberLen] at long
      omega
    rw [size, value, whole fits, lastPlaces_all order]
    exact ⟨rfl, horner_places order _⟩

/-- 1234 with a limit of two digits. -/
theorem convertNumber_positional_witness : ∃ text,
    convertNumber [1, 2, 3, 4] 2 1234 10 false = text ++ 0 :: [1, 2, 3, 4].drop (text.length + 1) ∧ text.length = 2 ∧
      horner 10 0 (text.map (convtab false).idxOf) = 34 := by
  have ten : clamp 10 = 10 := clamp_same (by decide) (by decide)
  have count : (places 10 (1234 : UInt64).toNat).length = 4 := by simp [places]
  have room : min 2 (places (clamp 10) (1234 : UInt64).toNat).length < [1, 2, 3, 4].length := by
    rw [ten, count]
    decide
  obtain ⟨text, buffer, size, value, -⟩ := convertNumber_positional false 10 2 1234 [1, 2, 3, 4] (by decide) room
  rw [ten, count] at size
  rw [ten, size] at value
  exact ⟨text, buffer, size, value⟩

end Positional

section Numerals

variable {base : Nat}

theorem numeral_eq (base : Nat) (caps : Bool) (n : Nat) : numeral base caps n = (places base n).map (digit caps) :=
  List.map_congr_left fun place _ => (digit_eq place).symm

theorem numeral_length_le (caps : Bool) (order : 1 < base) (num : UInt64) : (numeral base caps num.toNat).length ≤ 64 := by
  rw [numeral_eq, List.length_map]
  exact places_length_word order num

theorem numeral_length_pos (base : Nat) (caps : Bool) (n : Nat) : 0 < (numeral base caps n).length := by
  rw [numeral_eq, List.length_map]
  exact List.length_pos_iff.mpr places_ne_nil

theorem numeral_plain (caps : Bool) (order : 1 < base) (limit : base ≤ 16) (n : Nat) : ∀ c ∈ numeral base caps n,
    c ≠ 0 := by
  intro c member
  rw [numeral_eq] at member
  obtain ⟨place, place_mem, rfl⟩ := List.mem_map.mp member
  exact digit_ne_zero (Nat.lt_of_lt_of_le (places_lt order place_mem) limit)

/-- What `_vcbprintf` has in `numbuf`. -/
theorem convertNumber_eq (caps : Bool) (order : 1 < base) (limit : base ≤ 16) (num : UInt64) : ∃ behind,
    convertNumber (List.replicate (maxNumberLen + 1) 0) maxNumberLen num base caps =
      numeral base caps num.toNat ++ 0 :: behind := by
  have short := places_length_word order num
  have all : written base maxNumberLen num = (places base num.toNat).length := by
    unfold written
    rw [clamp_same order limit, maxNumberLen]
    omega
  have room : written base maxNumberLen num < (List.replicate (maxNumberLen + 1) (0 : UInt8)).length := by
    rw [all, List.length_replicate, maxNumberLen]
    omega
  have buffer := convertNumber_places caps base (by decide) num room
  rw [writtenText, all, clamp_same order limit, lastPlaces_all order, ← numeral_eq] at buffer
  exact ⟨_, buffer⟩

end Numerals

section Measure

theorem strlen_eq {text : List UInt8} (plain : ∀ c ∈ text, c ≠ 0) (behind : List UInt8) :
    strlen (text ++ 0 :: behind) = .ok text.length := by
  induction text with
  | nil => simp [strlen]
  | cons c text ih =>
    rw [List.cons_append, strlen, if_neg (plain c List.mem_cons_self),
      ih fun d member => plain d (List.mem_cons_of_mem c member)]
    rfl

theorem strlen_takeWhile (array : List UInt8) : strlen array =
    if 0 ∈ array then .ok (array.takeWhile (· ≠ 0)).length else .error .stringEnd := by
  induction array with
  | nil => rfl
  | cons c array ih =>
    rw [strlen, ih]
    by_cases ends : c = 0
    · simp [ends]
    · by_cases some : 0 ∈ array
      · simp [ends, some, Except.map]
      · simp [ends, some, Ne.symm ends, Except.map]

end Measure

end Hotarubi.Lib.Vcbprintf
