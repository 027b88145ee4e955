import Mathlib.Data.Nat.Digits.Lemmas

/-! Positional numerals, the first place first. Zero has one place, and leading
zeros do not change the value. -/

namespace Hotarubi.Base.Numeral

/-- The value of a list of places, read on from `start`. -/
def horner (base : Nat) (start : Nat) (places : List Nat) : Nat :=
  places.foldl (fun value place => value * base + place) start

/-- The places of a number without leading zeros. -/
def places (base n : Nat) : List Nat := if n = 0 then [0] else (Nat.digits base n).reverse

/-- The last `len` places of a number, with zeros in front where it has fewer. -/
def lastPlaces (base : Nat) : Nat → Nat → List Nat
  | 0, _ => []
  | len + 1, n => lastPlaces base len (n / base) ++ [n % base]

variable {base n : Nat}

theorem horner_append (start : Nat) (first later : List Nat) :
    horner base start (first ++ later) = horner base (horner base start first) later := List.foldl_append

theorem horner_zeros (count : Nat) : horner base 0 (List.replicate count 0) = 0 := by
  induction count with
  | zero => rfl
  | succ count ih => simpa [List.replicate_succ, horner] using ih

theorem places_small (small : n < base) : places base n = [n] := by
  unfold places
  by_cases zero : n = 0
  · rw [if_pos zero, zero]
  · rw [if_neg zero, Nat.digits_of_lt base n zero small, List.reverse_singleton]

theorem places_large (order : 1 < base) (large : base ≤ n) :
    places base n = places base (n / base) ++ [n % base] := by
  have positive : 0 < n := by omega
  have quotient : n / base ≠ 0 := Nat.ne_of_gt (Nat.div_pos large (by omega))
  rw [places, if_neg (Nat.ne_of_gt positive), Nat.digits_def' order positive, List.reverse_cons, places, if_neg quotient]

theorem horner_places (order : 1 < base) (n : Nat) : horner base 0 (places base n) = n := by
  induction n using Nat.strongRecOn with
  | ind n ih =>
    by_cases small : n < base
    · simp [places_small small, horner]
    · have large := Nat.not_lt.mp small
      have less : n / base < n := Nat.div_lt_self (by omega) order
      rw [places_large order large, horner_append, ih _ less]
      simp only [horner, List.foldl_cons, List.foldl_nil]
      exact Nat.div_add_mod' n base

theorem places_lt (order : 1 < base) {place : Nat} (member : place ∈ places base n) : place < base := by
  unfold places at member
  split at member
  next =>
    rw [List.mem_singleton.mp member]
    omega
  next => exact Nat.digits_lt_base order (List.mem_reverse.mp member)

/-- Only zero begins with a zero. -/
theorem places_head (nonzero : n ≠ 0) : (places base n).head? ≠ some 0 := by
  have last := Nat.getLast_digit_ne_zero base nonzero
  intro zero
  rw [places, if_neg nonzero, List.head?_reverse, List.getLast?_eq_some_getLast
    (Nat.digits_ne_nil_iff_ne_zero.mpr nonzero)] at zero
  exact last (Option.some.inj zero)

theorem places_ne_nil : places base n ≠ [] := by
  unfold places
  split
  next => simp
  next nonzero => simpa using Nat.digits_ne_nil_iff_ne_zero.mpr nonzero

/-- A number below a power of the base has no more places than the exponent says. -/
theorem places_length_le (order : 1 < base) {limit : Nat} (positive : 0 < limit) (bound : n < base ^ limit) :
    (places base n).length ≤ limit := by
  unfold places
  split
  next => exact positive
  next nonzero =>
    rw [List.length_reverse]
    exact (Nat.digits_length_le_iff order n).mpr bound

theorem lastPlaces_length (len n : Nat) : (lastPlaces base len n).length = len := by
  induction len generalizing n with
  | zero => rfl
  | succ len ih => rw [lastPlaces, List.length_append, ih, List.length_singleton]

theorem lastPlaces_lt (positive : 0 < base) {len place : Nat} (member : place ∈ lastPlaces base len n) : place < base := by
  induction len generalizing n with
  | zero => exact absurd member List.not_mem_nil
  | succ len ih =>
    obtain front | last := List.mem_append.mp member
    · exact ih front
    · rw [List.mem_singleton.mp last]
      exact Nat.mod_lt n positive

/-- What is cut off in front is a multiple of a power of the base. -/
theorem horner_lastPlaces (len n : Nat) : horner base 0 (lastPlaces base len n) = n % base ^ len := by
  induction len generalizing n with
  | zero => rw [Nat.pow_zero, Nat.mod_one]; rfl
  | succ len ih =>
    have whole : n % base ^ (len + 1) = n % base + base * (n / base % base ^ len) := by
      rw [Nat.pow_succ, Nat.mul_comm, Nat.mod_mul]
    rw [lastPlaces, horner_append, ih, whole, Nat.add_comm, Nat.mul_comm]
    rfl

theorem lastPlaces_all (order : 1 < base) (n : Nat) : lastPlaces base (places base n).length n = places base n := by
  induction n using Nat.strongRecOn with
  | ind n ih =>
    by_cases small : n < base
    · rw [places_small small, List.length_singleton, lastPlaces, lastPlaces, Nat.mod_eq_of_lt small]
      rfl
    · have large := Nat.not_lt.mp small
      have less : n / base < n := Nat.div_lt_self (by omega) order
      rw [places_large order large, List.length_append, List.length_singleton, lastPlaces, ih _ less]

end Hotarubi.Base.Numeral
