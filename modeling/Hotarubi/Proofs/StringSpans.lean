import Hotarubi.Lib.Strings
import Hotarubi.Proofs.VcbprintfDirective
import Mathlib.Order.Bounds.Basic

/-! The functions that look in a string for the bytes of another. Each of their loops
leaves at the first byte that passes a test, or at the NUL. -/

namespace Hotarubi.Lib.Strings
open Vcbprintf

variable {s t : List UInt8} {p : UInt8 → Bool}

/-- The first place from `i` on with a byte that passes the test. -/
def firstPlace (p : UInt8 → Bool) : List UInt8 → (i : Nat) → Option Nat
  | [], _ => none
  | b :: s, i => if p b then some i else firstPlace p s (i + 1)

private theorem firstPlace_eq (p : UInt8 → Bool) (s : List UInt8) (i : Nat) :
    firstPlace p s i = if s.findIdx p = s.length then none else some (i + s.findIdx p) := by
  induction s generalizing i with
  | nil => rfl
  | cons b s ih =>
    rw [firstPlace, List.findIdx_cons, List.length_cons, ih]
    cases p b with
    | true => simp
    | false => simp [Nat.add_assoc, Nat.add_comm 1]

private theorem findIdx_greatest (p : UInt8 → Bool) (s : List UInt8) :
    IsGreatest {n | n ≤ s.length ∧ ∀ b ∈ s.take n, p b = false} (s.findIdx p) := by
  refine ⟨⟨List.findIdx_le_length, fun b member => ?_⟩, ?_⟩
  · obtain ⟨j, inside, rfl⟩ := List.mem_take_iff_getElem.mp member
    exact List.not_of_lt_findIdx (Nat.lt_of_lt_of_le inside (Nat.min_le_left _ _))
  · intro n ⟨inside, none_passes⟩
    by_contra before
    have place : s.findIdx p < n := Nat.lt_of_not_le before
    have bound : s.findIdx p < s.length := Nat.lt_of_lt_of_le place inside
    have passes : p s[s.findIdx p] = true := List.findIdx_getElem
    rw [none_passes _ (List.mem_take_iff_getElem.mpr ⟨_, Nat.lt_min.mpr ⟨place, bound⟩, rfl⟩)] at passes
    cases passes

private theorem strchrFrom_eq (c : UInt8) (plain : ∀ b ∈ s, b ≠ 0) (r : List UInt8) (i : Nat) :
    strchrFrom c (s ++ 0 :: r) i = .ok (firstPlace (· == c) s i) := by
  induction s generalizing i with
  | nil => rfl
  | cons b s ih =>
    rw [List.cons_append, strchrFrom, if_pos (plain b List.mem_cons_self), firstPlace,
      ih fun d member => plain d (List.mem_cons_of_mem _ member)]
    by_cases same : b = c
    · simp [same]
    · simp [same]

private theorem firstPlace_isSome (c : UInt8) (t : List UInt8) (i : Nat) :
    (firstPlace (· == c) t i).isSome = t.contains c := by
  induction t generalizing i with
  | nil => rfl
  | cons b t ih =>
    rw [firstPlace]
    by_cases same : b = c
    · simp [same]
    · simp [same, Ne.symm same, ih]

private theorem strchr_eq {c : Int} (filled : toChar c ≠ 0) (plain : ∀ b ∈ s, b ≠ 0) (r : List UInt8) :
    strchr (some (s ++ 0 :: r)) c = .ok (firstPlace (· == toChar c) s 0) := by
  rw [strchr, strchrFrom_eq (toChar c) plain r]
  cases firstPlace (· == toChar c) s 0 with
  | some i => rfl
  | none => exact if_neg filled

private theorem toChar_fromChar (b : UInt8) : toChar (fromChar b) = b := by
  apply UInt8.toNat_inj.mp
  have bound := b.toNat_lt
  simp only [toChar, fromChar, signed, UInt8.toNat_ofNat']
  omega

private theorem spanFrom_eq (leave : Bool) (plain : ∀ b ∈ s, b ≠ 0) (plain' : ∀ b ∈ t, b ≠ 0) (r₁ r₂ : List UInt8)
    (i : Nat) :
    spanFrom leave (some (t ++ 0 :: r₂)) (s ++ 0 :: r₁) i = .ok (firstPlace (fun b => t.contains b == leave) s i) := by
  induction s generalizing i with
  | nil => rfl
  | cons b s ih =>
    have filled := plain b List.mem_cons_self
    have here : toChar (fromChar b) ≠ 0 := by rwa [toChar_fromChar]
    rw [List.cons_append, spanFrom, if_pos filled, strchr_eq here plain' r₂, toChar_fromChar, firstPlace]
    change (if (firstPlace (· == b) t 0).isSome = leave then _ else _) = _
    rw [firstPlace_isSome, ih fun d member => plain d (List.mem_cons_of_mem _ member)]
    by_cases same : t.contains b = leave
    · rw [if_pos same, if_pos (beq_iff_eq.mpr same)]
    · rw [if_neg same, if_neg (mt beq_iff_eq.mp same)]

private theorem seekChar_eq (c : UInt8) (plain : ∀ b ∈ t, b ≠ 0) (r : List UInt8) :
    seekChar c (t ++ 0 :: r) = .ok (t.contains c) := by
  induction t with
  | nil => rfl
  | cons b t ih =>
    rw [List.cons_append, seekChar, if_pos (plain b List.mem_cons_self),
      ih fun d member => plain d (List.mem_cons_of_mem _ member)]
    by_cases same : c = b
    · simp [same]
    · simp [same]

private theorem strpbrkFrom_eq (plain : ∀ b ∈ s, b ≠ 0) (plain' : ∀ b ∈ t, b ≠ 0) (r₁ r₂ : List UInt8) (i : Nat) :
    strpbrkFrom (t ++ 0 :: r₂) (s ++ 0 :: r₁) i = .ok (firstPlace (fun b => t.contains b == true) s i) := by
  induction s generalizing i with
  | nil => rfl
  | cons b s ih =>
    rw [List.cons_append, strpbrkFrom, if_pos (plain b List.mem_cons_self), seekChar_eq b plain' r₂, firstPlace]
    change (if t.contains b = true then _ else _) = _
    rw [ih fun d member => plain d (List.mem_cons_of_mem _ member)]
    by_cases same : t.contains b = true
    · rw [if_pos same, if_pos (beq_iff_eq.mpr same)]
    · rw [if_neg same, if_neg (mt beq_iff_eq.mp same)]

private theorem span_eq (leave : Bool) (plain : ∀ b ∈ s, b ≠ 0) (plain' : ∀ b ∈ t, b ≠ 0) (r₁ r₂ : List UInt8) :
    (do
      match ← spanFrom leave (some (t ++ 0 :: r₂)) (s ++ 0 :: r₁) 0 with
      | some i => Except.ok i
      | none => strlen (s ++ 0 :: r₁)) = .ok (s.findIdx fun b => t.contains b == leave) := by
  rw [spanFrom_eq leave plain plain', firstPlace_eq, strlen_eq plain]
  split
  next all => exact congrArg _ all.symm
  next => exact congrArg _ (Nat.zero_add _)

/-- The spans are the longest ones, and `strpbrk` and `strchr` point behind them. -/
theorem span_functions_agree (plain : ∀ b ∈ s, b ≠ 0) (plain' : ∀ b ∈ t, b ≠ 0) (r₁ r₂ : List UInt8) :
    (∃ k m, strcspn (some (s ++ 0 :: r₁)) (some (t ++ 0 :: r₂)) = .ok k ∧
      IsGreatest {n | n ≤ s.length ∧ ∀ b ∈ s.take n, b ∉ t} k ∧
      strspn (s ++ 0 :: r₁) (some (t ++ 0 :: r₂)) = .ok m ∧
      IsGreatest {n | n ≤ s.length ∧ ∀ b ∈ s.take n, b ∈ t} m ∧ strlen (s ++ 0 :: r₁) = .ok s.length ∧
      strpbrk (some (s ++ 0 :: r₁)) (some (t ++ 0 :: r₂)) = .ok (if k = s.length then none else some k)) ∧
    ∀ c r, toChar c ≠ 0 →
      strchr (some (s ++ 0 :: r₁)) c = strpbrk (some (s ++ 0 :: r₁)) (some (toChar c :: 0 :: r)) := by
  refine ⟨⟨s.findIdx fun b => t.contains b == true, s.findIdx fun b => t.contains b == false,
    span_eq true plain plain' r₁ r₂, ?_, span_eq false plain plain' r₁ r₂, ?_, strlen_eq plain r₁, ?_⟩, ?_⟩
  · simpa using findIdx_greatest (fun b => t.contains b == true) s
  · simpa using findIdx_greatest (fun b => t.contains b == false) s
  · rw [strpbrk, strpbrkFrom_eq plain plain', firstPlace_eq, Nat.zero_add]
  · intro c r filled
    have single : ∀ b ∈ [toChar c], b ≠ 0 := by simpa using filled
    have same : (fun b => [toChar c].contains b == true) = (· == toChar c) := by
      funext b
      by_cases equal : b = toChar c <;> simp [equal]
    rw [strchr_eq filled plain, strpbrk]
    exact ((strpbrkFrom_eq plain single r₁ r 0).trans (by rw [same])).symm

theorem span_functions_agree_witness :
    (∃ k m, strcspn (some [97, 98, 0]) (some [98, 0]) = .ok k ∧
      IsGreatest {n | n ≤ 2 ∧ ∀ b ∈ ([97, 98] : List UInt8).take n, b ∉ [98]} k ∧
      strspn [97, 98, 0] (some [98, 0]) = .ok m ∧
      IsGreatest {n | n ≤ 2 ∧ ∀ b ∈ ([97, 98] : List UInt8).take n, b ∈ [98]} m ∧ strlen [97, 98, 0] = .ok 2 ∧
      strpbrk (some [97, 98, 0]) (some [98, 0]) = .ok (if k = 2 then none else some k)) ∧
    ∀ c r, toChar c ≠ 0 → strchr (some [97, 98, 0]) c = strpbrk (some [97, 98, 0]) (some (toChar c :: 0 :: r)) :=
  @span_functions_agree [97, 98] [98] (by simp) (by simp) [] []

end Hotarubi.Lib.Strings
