import Hotarubi.Lib.Strings
import Hotarubi.Proofs.KmallocRealloc

/-! `memmove` of ranges that may overlap. The bytes still to come are never written: they
lie behind the others from the front, and before them from the back. -/

namespace Hotarubi.Lib.Strings
open Memory.Kmalloc

variable {memory : Nat → UInt8} {s1 s2 n : Nat}

private theorem copyBytesBack_copied (behind : s2 ≤ s1) :
    Copied memory (copyBytesBack memory (s1 + n) (s2 + n) n) s1 s2 n := by
  induction n generalizing memory with
  | zero => exact ⟨fun i bound => absurd bound (Nat.not_lt_zero i), fun _ _ => rfl⟩
  | succ n ih =>
    have rest := @ih (Function.update memory (s1 + n) (memory (s2 + n)))
    change Copied memory (copyBytesBack (Function.update memory (s1 + n) (memory (s2 + n))) (s1 + n) (s2 + n) n)
      s1 s2 (n + 1)
    refine ⟨fun i bound => ?_, fun address outside => ?_⟩
    · rcases Nat.lt_succ_iff_lt_or_eq.mp bound with early | rfl
      · rw [rest.content i early, Function.update_of_ne (by omega)]
      · rw [rest.others (s1 + i) fun j early => by omega]
        exact Function.update_self ..
    · rw [rest.others address fun i early => outside i (Nat.lt_succ_of_lt early)]
      exact Function.update_of_ne (outside n (Nat.lt_succ_self n)) _ _

private theorem memmove_copied (real : s1 ≠ 0) (real' : s2 ≠ 0) : Copied memory (memmove memory s1 s2 n).2 s1 s2 n := by
  rw [memmove]
  split
  next before => exact memcpy_copied real real' (.inl (Nat.le_of_lt before))
  next behind =>
    split
    next => exact copyBytesBack_copied (Nat.le_of_not_lt behind)
    next nothing =>
      obtain rfl : n = 0 := by
        by_contra some_bytes
        exact nothing ⟨real, real', Nat.pos_of_ne_zero some_bytes⟩
      exact ⟨fun i bound => absurd bound (Nat.not_lt_zero i), fun _ _ => rfl⟩

/-- The bytes of the source as they were, and no other byte written. -/
theorem memmove_moves (memory : Nat → UInt8) (n : Nat) (real : s1 ≠ 0) (real' : s2 ≠ 0) :
    (memmove memory s1 s2 n).1 = s1 ∧ (∀ i < n, (memmove memory s1 s2 n).2 (s1 + i) = memory (s2 + i)) ∧
      ∀ address, address < s1 ∨ s1 + n ≤ address → (memmove memory s1 s2 n).2 address = memory address := by
  have copied := @memmove_copied memory s1 s2 n real real'
  refine ⟨?_, copied.content, ?_⟩
  · rw [memmove]
    split
    next => rfl
    next => split <;> rfl
  · intro address outside
    apply copied.others
    intro i bound
    omega

theorem memmove_moves_witness :
    (memmove (fun address => .ofNat address) 5 4 4).1 = 5 ∧
      (∀ i < 4, (memmove (fun address => .ofNat address) 5 4 4).2 (5 + i) = .ofNat (4 + i)) ∧
      ∀ address, address < 5 ∨ 5 + 4 ≤ address →
        (memmove (fun address => .ofNat address) 5 4 4).2 address = .ofNat address :=
  memmove_moves (fun address => .ofNat address) 4 (by simp) (by simp)

end Hotarubi.Lib.Strings
