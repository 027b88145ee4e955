import Hotarubi.Lib.Strings
import Hotarubi.Proofs.VcbprintfDirective

/-! `strncpy` and `strncat` write as many bytes as they are told, and read no more. -/

namespace Hotarubi.Lib.Strings
open Vcbprintf

variable {s : List UInt8} {n : Nat}

private theorem padZeros_eq {d : List UInt8} (room : n ≤ d.length) :
    padZeros d (n + 1) = .ok (List.replicate n 0 ++ d.drop n) := by
  induction n generalizing d with
  | zero => cases d <;> rfl
  | succ n ih =>
    cases d with
    | nil => cases room
    | cons c d =>
      rw [padZeros, ih (Nat.le_of_succ_le_succ room)]
      rfl

private theorem strncpy_eq (plain : ∀ c ∈ s, c ≠ 0) (r : List UInt8) {d : List UInt8} (room : n ≤ d.length) :
    strncpy d ((s ++ [0]).take n ++ r) n = .ok (s.take n ++ List.replicate (n - s.length) 0 ++ d.drop n) := by
  induction n generalizing s d with
  | zero =>
    rw [strncpy, Nat.zero_sub]
    cases d <;> rfl
  | succ n ih =>
    cases d with
    | nil => cases room
    | cons b d =>
      have room := Nat.le_of_succ_le_succ room
      cases s with
      | nil =>
        rw [List.nil_append, List.take_succ_cons, List.cons_append, strncpy, if_neg (not_not.mpr rfl), padZeros_eq room]
        rfl
      | cons c s =>
        rw [List.cons_append, List.take_succ_cons, List.cons_append, strncpy, if_pos (plain c List.mem_cons_self),
          ih (fun e member => plain e (List.mem_cons_of_mem _ member)) room, List.length_cons, Nat.add_sub_add_right]
        rfl

private theorem strncatFrom_eq (plain : ∀ c ∈ s, c ≠ 0) (r : List UInt8) {p : List UInt8}
    (room : min n s.length < p.length) :
    strncatFrom p ((s ++ [0]).take n ++ r) n = .ok (s.take n ++ 0 :: p.drop (min n s.length + 1)) := by
  induction n generalizing s p with
  | zero =>
    cases p with
    | nil => cases room
    | cons b p => rw [Nat.zero_min, strncatFrom]; rfl
  | succ n ih =>
    cases p with
    | nil => cases room
    | cons b p =>
      cases s with
      | nil =>
        rw [List.nil_append, List.take_succ_cons, List.cons_append, strncatFrom, if_neg (not_not.mpr rfl)]
        rfl
      | cons c s =>
        rw [List.length_cons, Nat.add_min_add_right, List.length_cons] at room
        rw [List.cons_append, List.take_succ_cons, List.cons_append, strncatFrom, if_pos (plain c List.mem_cons_self),
          ih (fun e member => plain e (List.mem_cons_of_mem _ member)) (Nat.lt_of_succ_lt_succ room), List.length_cons,
          Nat.add_min_add_right]
        rfl

private theorem strncat_eq {x y : List UInt8} (plain : ∀ c ∈ s, c ≠ 0) (plain' : ∀ c ∈ x, c ≠ 0) (r : List UInt8)
    (some_bytes : 0 < n)
    (room : min n s.length ≤ y.length) : strncat (some (x ++ 0 :: y)) (some ((s ++ [0]).take n ++ r)) n =
      .ok (some (x ++ (s.take n ++ 0 :: y.drop (min n s.length)))) := by
  have behind : strncatFrom (0 :: y) ((s ++ [0]).take n ++ r) n = .ok (s.take n ++ 0 :: y.drop (min n s.length)) :=
    strncatFrom_eq plain r (Nat.lt_succ_of_le room)
  rw [strncat, if_pos (Nat.ne_of_gt some_bytes), strlen_eq plain']
  change (do
    let p1 ← strncatFrom ((x ++ 0 :: y).drop x.length) ((s ++ [0]).take n ++ r) n
    Except.ok (some ((x ++ 0 :: y).take x.length ++ p1))) = _
  rw [List.drop_left, List.take_left, behind]
  rfl

/-- A buffer with the room gets the first `n` bytes of the string, and what lies behind
them is as before. Of the string the bytes up to its NUL are read, at most `n` of them. -/
theorem bounded_writers (plain : ∀ c ∈ s, c ≠ 0) (n : Nat) (r : List UInt8) :
    (∀ d : List UInt8, n ≤ d.length →
      strncpy d ((s ++ [0]).take n ++ r) n = .ok (s.take n ++ List.replicate (n - s.length) 0 ++ d.drop n)) ∧
    ∀ x y : List UInt8, (∀ c ∈ x, c ≠ 0) → 0 < n → min n s.length ≤ y.length →
      strncat (some (x ++ 0 :: y)) (some ((s ++ [0]).take n ++ r)) n =
        .ok (some (x ++ (s.take n ++ 0 :: y.drop (min n s.length)))) :=
  ⟨fun _ room => strncpy_eq plain r room, fun _ _ plain' some_bytes room => strncat_eq plain plain' r some_bytes room⟩

theorem bounded_writers_witness :
    strncpy [7, 7, 7, 7] [97, 0] 3 = .ok [97, 0, 0, 7] ∧
      strncat (some [98, 0, 7, 7]) (some [97, 0]) 3 = .ok (some [98, 97, 0, 7]) := by
  obtain ⟨copy, append⟩ := @bounded_writers [97] (by simp) 3 []
  exact ⟨copy [7, 7, 7, 7] (by simp), append [98] [7, 7] (by simp) (by simp) (by simp)⟩

end Hotarubi.Lib.Strings
