import Mathlib.Algebra.Group.Nat.Defs

/-! Memory in bytes. A word of some bytes is read and written little-endian, and what
is written is read back by whoever reads the same bytes. -/

namespace Hotarubi.Base

variable {m m' : Nat → UInt8} {a b n k v : Nat}

def load (m : Nat → UInt8) (a : Nat) : Nat → Nat
  | 0 => 0
  | n + 1 => (m a).toNat + 256 * load m (a + 1) n

def store (m : Nat → UInt8) (a n v : Nat) : Nat → UInt8 := fun b =>
  if a ≤ b ∧ b < a + n then UInt8.ofNat (v / 256 ^ (b - a)) else m b

theorem load_congr (same : ∀ b, a ≤ b → b < a + n → m b = m' b) : load m a n = load m' a n := by
  induction n generalizing a with
  | zero => rfl
  | succ n ih =>
    rw [load, load, same a (Nat.le_refl a) (by omega), ih]
    intro b above below
    exact same b (by omega) (by omega)

theorem load_add (m : Nat → UInt8) (a n k : Nat) : load m a (n + k) = load m a n + 256 ^ n * load m (a + n) k := by
  induction n generalizing a with
  | zero => simp [load]
  | succ n ih =>
    have next : a + 1 + n = a + (n + 1) := by omega
    rw [Nat.succ_add, load, load, ih, next, Nat.mul_add, ← Nat.mul_assoc, ← Nat.pow_succ', Nat.add_assoc]

/-- The bytes of a number make up its low part. -/
theorem load_bytes (bytes : ∀ i < n, m (a + i) = UInt8.ofNat (v / 256 ^ i)) : load m a n = v % 256 ^ n := by
  induction n generalizing a v with
  | zero => rw [load, Nat.pow_zero, Nat.mod_one]
  | succ n ih =>
    have first := bytes 0 (Nat.succ_pos n)
    rw [Nat.pow_zero, Nat.div_one, Nat.add_zero] at first
    have later : load m (a + 1) n = v / 256 % 256 ^ n := by
      apply ih
      intro i inside
      rw [Nat.add_assoc, Nat.add_comm 1 i, bytes (i + 1) (Nat.succ_lt_succ inside), Nat.pow_succ, Nat.mul_comm,
        Nat.div_div_eq_div_mul]
    have power : 256 ^ (n + 1) = 256 * 256 ^ n := Nat.pow_succ'
    rw [load, first, later, UInt8.toNat_ofNat', power, Nat.mod_mul]

theorem store_outside (outside : b < a ∨ a + n ≤ b) : store m a n v b = m b := by
  rw [store, if_neg]
  omega

theorem load_store_same (small : v < 256 ^ n) : load (store m a n v) a n = v := by
  rw [load_bytes (v := v), Nat.mod_eq_of_lt small]
  intro i inside
  rw [store, if_pos (by omega), Nat.add_sub_cancel_left]

theorem load_store_apart (apart : b + k ≤ a ∨ a + n ≤ b) : load (store m a n v) b k = load m b k := by
  apply load_congr
  intro c above below
  apply store_outside
  omega

end Hotarubi.Base
