import Hotarubi.Acpi.Tables
import Hotarubi.Lib.Strings
import Hotarubi.Proofs.VcbprintfDirective
import Mathlib.Data.List.Infix
import Mathlib.Order.Bounds.Basic

/-! `strcmp` and `strncmp` state the order of their strings, and `strstr` looks for the
first place of one string in another. It tries every place but the end. -/

namespace Hotarubi.Lib.Strings
open Vcbprintf

variable {a b r₁ r₂ : List UInt8} {n : Nat}

/-- A result states the lexicographic order of two strings of unsigned bytes. -/
def InOrder (a b : List UInt8) (result : Int) : Prop :=
  (result = -1 ∧ List.Lex (fun x y => x < y) a b) ∨ (result = 0 ∧ a = b) ∨
    (result = 1 ∧ List.Lex (fun x y => x < y) b a)

/-- That result, byte for byte. -/
def lexOrder : List UInt8 → List UInt8 → Int
  | [], [] => 0
  | [], _ :: _ => -1
  | _ :: _, [] => 1
  | x :: a, y :: b => if x = y then lexOrder a b else if x < y then -1 else 1

private theorem lexOrder_inOrder (a b : List UInt8) : InOrder a b (lexOrder a b) := by
  induction a generalizing b with
  | nil =>
    cases b with
    | nil => exact .inr (.inl ⟨rfl, rfl⟩)
    | cons y b => exact .inl ⟨rfl, .nil⟩
  | cons x a ih =>
    cases b with
    | nil => exact .inr (.inr ⟨rfl, .nil⟩)
    | cons y b =>
      rw [lexOrder]
      split
      next same =>
        subst same
        rcases ih b with ⟨less, order⟩ | ⟨equal, rfl⟩ | ⟨more, order⟩
        · exact .inl ⟨less, .cons order⟩
        · exact .inr (.inl ⟨equal, rfl⟩)
        · exact .inr (.inr ⟨more, .cons order⟩)
      next differ =>
        split
        next less => exact .inl ⟨rfl, .rel less⟩
        next more => exact .inr (.inr ⟨rfl, .rel (UInt8.lt_of_le_of_ne (UInt8.not_lt.mp more) (Ne.symm differ))⟩)

private theorem lexOrder_eq_zero : lexOrder a b = 0 ↔ a = b := by
  induction a generalizing b with
  | nil => cases b <;> simp [lexOrder]
  | cons x a ih =>
    cases b with
    | nil => simp [lexOrder]
    | cons y b =>
      rw [lexOrder, List.cons.injEq]
      split
      next same => rw [ih, and_iff_right same]
      next differ =>
        refine iff_of_false ?_ fun both => differ both.1
        split <;> simp

private theorem compareLast_zero {y : UInt8} (filled : y ≠ 0) : compareLast 0 y = -1 := by
  have less : (0 : UInt8) < y := UInt8.pos_iff_ne_zero.mpr filled
  rw [compareLast, if_neg (Ne.symm filled), if_pos less]

private theorem zero_compareLast {x : UInt8} (filled : x ≠ 0) : compareLast x 0 = 1 := by
  rw [compareLast, if_neg filled, if_neg UInt8.not_lt_zero]

private theorem strncmpFrom_last {x y : UInt8} (ends : x = 0 ∨ y = 0) :
    strncmpFrom (x :: a) (y :: b) (n + 1) = .ok (compareLast x y) := by
  cases n with
  | zero => rfl
  | succ n => rw [strncmpFrom, if_neg fun both => ends.elim both.1 both.2]

private theorem strncmpFrom_eq (plain : ∀ c ∈ a, c ≠ 0) (plain' : ∀ c ∈ b, c ≠ 0) :
    strncmpFrom ((a ++ [0]).take (n + 1) ++ r₁) ((b ++ [0]).take (n + 1) ++ r₂) (n + 1) =
      .ok (lexOrder (a.take (n + 1)) (b.take (n + 1))) := by
  induction a generalizing b n with
  | nil =>
    cases b with
    | nil => exact strncmpFrom_last (.inl rfl)
    | cons y b =>
      refine (strncmpFrom_last (.inl rfl)).trans ?_
      rw [compareLast_zero (plain' y List.mem_cons_self)]
      rfl
  | cons x a ih =>
    have filled := plain x List.mem_cons_self
    cases b with
    | nil =>
      refine (strncmpFrom_last (.inr rfl)).trans ?_
      rw [zero_compareLast filled]
      rfl
    | cons y b =>
      cases n with
      | zero => rfl
      | succ n =>
        rw [List.cons_append, List.cons_append, List.take_succ_cons, List.take_succ_cons, List.cons_append,
          List.cons_append, strncmpFrom, if_pos ⟨filled, plain' y List.mem_cons_self⟩, List.take_succ_cons,
          List.take_succ_cons, lexOrder]
        by_cases same : x = y
        · rw [if_neg (not_not.mpr same), if_pos same]
          exact ih (fun c member => plain c (List.mem_cons_of_mem _ member)) fun c member =>
            plain' c (List.mem_cons_of_mem _ member)
        · rw [if_pos same, if_neg same]

private theorem strncmp_eq (plain : ∀ c ∈ a, c ≠ 0) (plain' : ∀ c ∈ b, c ≠ 0) :
    strncmp (some ((a ++ [0]).take n ++ r₁)) (some ((b ++ [0]).take n ++ r₂)) n = .ok (lexOrder (a.take n) (b.take n)) := by
  rw [strncmp]
  cases n with
  | zero => rfl
  | succ n =>
    rw [if_neg (Nat.succ_ne_zero n)]
    exact strncmpFrom_eq plain plain'

private theorem strncmp_string (plain : ∀ c ∈ a, c ≠ 0) (plain' : ∀ c ∈ b, c ≠ 0) :
    strncmp (some (a ++ 0 :: r₁)) (some (b ++ 0 :: r₂)) n = .ok (lexOrder (a.take n) (b.take n)) := by
  have whole : ∀ s r : List UInt8, s ++ 0 :: r = (s ++ [0]).take n ++ ((s ++ [0]).drop n ++ r) := by
    intro s r
    rw [← List.append_assoc, List.take_append_drop, List.append_assoc]
    rfl
  rw [whole a, whole b]
  exact strncmp_eq plain plain'

private theorem strcmpFrom_bounded {s1 s2 : List UInt8} (enough : s1.length ≤ n) : strcmpFrom s1 s2 =
    strncmpFrom s1 s2 (n + 1) := by
  induction s1 generalizing s2 n with
  | nil => cases n <;> rfl
  | cons u1 s1 ih =>
    cases s2 with
    | nil => cases n <;> rfl
    | cons u2 s2 =>
      obtain ⟨n, rfl⟩ := Nat.exists_eq_add_one_of_ne_zero (Nat.ne_of_gt (Nat.zero_lt_of_lt enough))
      rw [strcmpFrom, strncmpFrom, ih (Nat.le_of_succ_le_succ enough)]

private theorem strcmp_eq (plain : ∀ c ∈ a, c ≠ 0) (plain' : ∀ c ∈ b, c ≠ 0) :
    strcmp (some (a ++ 0 :: r₁)) (some (b ++ 0 :: r₂)) = .ok (lexOrder a b) := by
  have bound : (a ++ 0 :: r₁).length ≤ (a ++ 0 :: r₁).length + b.length := Nat.le_add_right _ _
  have bounded : strcmp (some (a ++ 0 :: r₁)) (some (b ++ 0 :: r₂)) =
      strncmp (some (a ++ 0 :: r₁)) (some (b ++ 0 :: r₂)) ((a ++ 0 :: r₁).length + b.length + 1) :=
    strcmpFrom_bounded bound
  rw [bounded, strncmp_string plain plain', List.take_of_length_le, List.take_of_length_le]
  · omega
  · rw [List.length_append]
    omega

/-- The two functions give the order of the strings, and of their first `n` bytes. They
do so with nothing to read behind the NUL, or behind the first `n` bytes. -/
theorem strncmp_agrees (plain : ∀ c ∈ a, c ≠ 0) (plain' : ∀ c ∈ b, c ≠ 0) (n : Nat) (r₁ r₂ : List UInt8) :
    (∃ result, strcmp (some (a ++ 0 :: r₁)) (some (b ++ 0 :: r₂)) = .ok result ∧ InOrder a b result) ∧
    ∃ result, strncmp (some ((a ++ [0]).take n ++ r₁)) (some ((b ++ [0]).take n ++ r₂)) n = .ok result ∧
      strcmp (some (a.take n ++ 0 :: r₁)) (some (b.take n ++ 0 :: r₂)) = .ok result ∧
      InOrder (a.take n) (b.take n) result := by
  refine ⟨⟨lexOrder a b, strcmp_eq plain plain', lexOrder_inOrder a b⟩,
    lexOrder (a.take n) (b.take n), strncmp_eq plain plain', ?_, lexOrder_inOrder _ _⟩
  apply strcmp_eq
  · intro c member
    exact plain c (List.mem_of_mem_take member)
  · intro c member
    exact plain' c (List.mem_of_mem_take member)

theorem strncmp_agrees_witness :
    (∃ result, strcmp (some [97, 98, 0]) (some [97, 0]) = .ok result ∧ InOrder [97, 98] [97] result) ∧
    ∃ result, strncmp (some [97]) (some [97]) 1 = .ok result ∧ strcmp (some [97, 0]) (some [97, 0]) = .ok result ∧
      InOrder [97] [97] result :=
  @strncmp_agrees [97, 98] [97] (by simp) (by simp) 1 [] []

private theorem strncmpFrom_image (u1 u2 : Nat → UInt8) (i n : Nat) :
    strncmpFrom ((List.range' i (n + 1)).map u1) ((List.range' i (n + 1)).map u2) (n + 1) =
      .ok (Acpi.strncmpFrom u1 u2 i (n + 1)) := by
  induction n generalizing i with
  | zero => rfl
  | succ n ih =>
    rw [List.range'_succ, List.map_cons, List.map_cons, strncmpFrom, Acpi.strncmpFrom, ih]
    split
    next => split <;> rfl
    next => rfl

/-- What compares a signature in the memory of the firmware is the same function. -/
theorem strncmp_image (mem : Acpi.Image) (addr : UInt64) (constant : Acpi.Signature) (n : Nat) (nonnull : addr ≠ 0) :
    strncmp (some ((List.range n).map fun i => mem (addr + .ofNat i))) (some ((List.range n).map (constant.getD · 0))) n =
      .ok (Acpi.strncmp mem addr constant n) := by
  rw [List.range_eq_range', strncmp, Acpi.strncmp]
  cases n with
  | zero => simp
  | succ n =>
    rw [if_neg (Nat.succ_ne_zero n), if_neg fun either => either.elim nonnull (Nat.succ_ne_zero n)]
    exact strncmpFrom_image _ _ 0 n

/-- What is asked of `strstr`: the least place where the one string begins in the other. -/
def Finds (s t : List UInt8) (result : Option Nat) : Prop :=
  match result with
  | some i => IsLeast {i | i ≤ s.length ∧ t <+: s.drop i} i
  | none => ∀ i ≤ s.length, ¬t <+: s.drop i

private theorem strstrFrom_finds {s t : List UInt8} (plain : ∀ c ∈ s, c ≠ 0) (plain' : ∀ c ∈ t, c ≠ 0)
    (r₁ r₂ : List UInt8) {passes i : Nat}
    (left : i + passes = s.length) :
    ∃ result, strstrFrom (s ++ 0 :: r₁) (t ++ 0 :: r₂) t.length passes i = .ok result ∧
      match result with
      | some k => k < s.length ∧ t <+: s.drop k ∧ ∀ j, i ≤ j → j < k → ¬t <+: s.drop j
      | none => ∀ j, i ≤ j → j < s.length → ¬t <+: s.drop j := by
  induction passes generalizing i with
  | zero => exact ⟨none, rfl, fun j behind before => by omega⟩
  | succ passes ih =>
    have inside : i ≤ s.length := by omega
    have rest : ∀ c ∈ s.drop i, c ≠ 0 := fun c member => plain c (List.mem_of_mem_drop member)
    have order : strncmp (some ((s ++ 0 :: r₁).drop i)) (some (t ++ 0 :: r₂)) t.length =
        .ok (lexOrder ((s.drop i).take t.length) t) := by
      rw [List.drop_append_of_le_length inside, strncmp_string rest plain', List.take_length]
    have here : lexOrder ((s.drop i).take t.length) t = 0 ↔ t <+: s.drop i := by
      rw [lexOrder_eq_zero, List.prefix_iff_eq_take, eq_comm]
    rw [strstrFrom, order]
    change ∃ result, (if lexOrder ((s.drop i).take t.length) t = 0 then .ok (some i)
      else strstrFrom (s ++ 0 :: r₁) (t ++ 0 :: r₂) t.length passes (i + 1)) = .ok result ∧ _
    split
    next found => exact ⟨some i, rfl, by omega, here.mp found, fun j behind before => by omega⟩
    next missed =>
      have miss := mt here.mpr missed
      obtain ⟨result, ran, finds⟩ := @ih (i + 1) (by omega)
      refine ⟨result, ran, ?_⟩
      have first : ∀ j, i ≤ j → j = i ∨ i + 1 ≤ j := by omega
      cases result with
      | some k =>
        refine ⟨finds.1, finds.2.1, fun j behind before => ?_⟩
        rcases first j behind with rfl | later
        · exact miss
        · exact finds.2.2 j later before
      | none =>
        intro j behind before
        rcases first j behind with rfl | later
        · exact miss
        · exact finds j later before

/-- The first place is found unless both strings are empty. -/
theorem strstr_finds_iff {s t : List UInt8} (plain : ∀ c ∈ s, c ≠ 0) (plain' : ∀ c ∈ t, c ≠ 0) (r₁ r₂ : List UInt8) :
    (∃ result, strstr (some (s ++ 0 :: r₁)) (some (t ++ 0 :: r₂)) = .ok result ∧ Finds s t result) ↔
      ¬(s = [] ∧ t = []) := by
  obtain ⟨result, ran, finds⟩ := strstrFrom_finds plain plain' r₁ r₂ (Nat.zero_add s.length)
  have all : strstr (some (s ++ 0 :: r₁)) (some (t ++ 0 :: r₂)) = .ok result := by
    rw [strstr, strlen_eq plain, strlen_eq plain']
    exact ran
  have same : (∃ result, strstr (some (s ++ 0 :: r₁)) (some (t ++ 0 :: r₂)) = .ok result ∧ Finds s t result) ↔
      Finds s t result := by
    rw [all]
    exact ⟨fun ⟨_, equal, asked⟩ => by cases equal; exact asked, fun asked => ⟨result, rfl, asked⟩⟩
  rw [same]
  cases result with
  | some k =>
    obtain ⟨inside, here, least⟩ := finds
    refine iff_of_true ⟨⟨Nat.le_of_lt inside, here⟩, fun j place => ?_⟩ fun both => ?_
    · by_contra before
      exact least j (Nat.zero_le j) (Nat.lt_of_not_le before) place.2
    · rw [both.1] at inside
      exact Nat.not_lt_zero k inside
  | none =>
    constructor
    · rintro asked ⟨rfl, rfl⟩
      exact asked 0 (Nat.le_refl 0) List.nil_prefix
    · intro filled j inside place
      rcases Nat.lt_or_eq_of_le inside with before | rfl
      · exact finds j (Nat.zero_le j) before place
      · rw [List.drop_length, List.prefix_nil] at place
        cases s with
        | nil => exact filled ⟨rfl, place⟩
        | cons c s => exact finds 0 (Nat.le_refl 0) (Nat.zero_lt_succ _) (by rw [place]; exact List.nil_prefix)

theorem strstr_misses_empty : strstr (some [0]) (some [0]) = .ok none ∧ ¬Finds [] [] none :=
  ⟨rfl, fun asked => asked 0 (Nat.le_refl 0) List.nil_prefix⟩

theorem strstr_finds_iff_witness :
    (∃ result, strstr (some [97, 98, 0]) (some [98, 0]) = .ok result ∧ Finds [97, 98] [98] result) ↔
      ¬(([97, 98] : List UInt8) = [] ∧ ([98] : List UInt8) = []) :=
  @strstr_finds_iff [97, 98] [98] (by simp) (by simp) [] []

end Hotarubi.Lib.Strings
