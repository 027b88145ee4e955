import Mathlib.Algebra.Group.Int.Defs
import Mathlib.Algebra.Group.Nat.Defs
import Mathlib.Logic.Basic

/-! Words and masks. Adding a mask and clearing its bits again gives back exactly the
words that have none of these bits. A mask of low bits selects a field of a word. -/

namespace Hotarubi.Base.Mask

variable {w : Nat} {word mask : BitVec w}

/-- A word below every bit of a mask has none of them. -/
theorem and_eq_zero_of_lt {n : Nat} (clear : ∀ k < n, mask.getLsbD k = false) (small : word.toNat < 2 ^ n) :
    word &&& mask = 0#w := by
  apply BitVec.eq_of_getLsbD_eq
  intro k _
  rw [BitVec.getLsbD_and, BitVec.getLsbD_zero]
  by_cases below : k < n
  · rw [clear k below, Bool.and_false]
  · have beyond : word.getLsbD k = false :=
      Nat.testBit_lt_two_pow (Nat.lt_of_lt_of_le small (Nat.pow_le_pow_right (by omega) (Nat.not_lt.mp below)))
    rw [beyond, Bool.false_and]

theorem and_and_not (word mask : BitVec w) : word &&& ~~~mask &&& mask = 0#w := by
  rw [BitVec.and_assoc, BitVec.and_comm (~~~mask), BitVec.and_not_self]
  exact BitVec.and_zero

theorem and_not_eq_self (apart : word &&& mask = 0#w) : word &&& ~~~mask = word := by
  apply BitVec.eq_of_getLsbD_eq
  intro k inside
  have clear := congrArg (BitVec.getLsbD · k) apart
  simp only [BitVec.getLsbD_and, BitVec.getLsbD_zero, BitVec.getLsbD_not, inside, decide_true, Bool.true_and] at clear ⊢
  cases bit : word.getLsbD k with
  | false => rfl
  | true =>
    rw [bit, Bool.true_and] at clear
    rw [clear]
    rfl

/-- A mask that was set among other bits is cleared again. -/
theorem or_mask_and_not {other : BitVec w} (apart : word &&& mask = 0#w) (apart' : other &&& mask = 0#w) :
    (word ||| mask ||| other) &&& ~~~mask = word ||| other := by
  rw [BitVec.and_or_distrib_right, BitVec.and_or_distrib_right, and_not_eq_self apart, and_not_eq_self apart',
    BitVec.and_not_self]
  exact congrArg (· ||| other) BitVec.or_zero

/-- Bits that are set stay set if others are cleared and any are added. -/
theorem set_kept {clear other : BitVec w} (set : word &&& mask = mask) (apart : mask &&& clear = 0#w) :
    (word &&& ~~~clear ||| other) &&& mask = mask := by
  have kept : word &&& ~~~clear &&& mask = mask := by
    rw [BitVec.and_assoc, BitVec.and_comm (~~~clear), and_not_eq_self apart, set]
  rw [BitVec.and_or_distrib_right, kept]
  apply BitVec.eq_of_getLsbD_eq
  intro k _
  rw [BitVec.getLsbD_or, BitVec.getLsbD_and]
  cases mask.getLsbD k <;> simp

/-- Where the addition carries, a bit of the mask is lost. -/
theorem add_and_not_eq_iff : (word + mask) &&& ~~~mask = word ↔ word &&& mask = 0#w := by
  constructor
  · intro same
    rw [← same]
    exact and_and_not (word + mask) mask
  · intro apart
    rw [BitVec.add_eq_or_of_and_eq_zero _ _ apart, BitVec.and_or_distrib_right, and_not_eq_self apart, BitVec.and_not_self]
    exact BitVec.or_zero

/-- A mask of the low bits takes the remainder. -/
theorem and_low_toNat {v : Nat} (word : BitVec w) (low : mask.toNat = 2 ^ v - 1) : (word &&& mask).toNat =
    word.toNat % 2 ^ v := by
  rw [BitVec.toNat_and, low, Nat.and_two_pow_sub_one_eq_mod]

/-- What a narrower word keeps needs no mask. -/
theorem setWidth_and_low {v : Nat} (word : BitVec w) (low : mask.setWidth v = BitVec.allOnes v) :
    (word &&& mask).setWidth v = word.setWidth v := by
  rw [BitVec.setWidth_and, low, BitVec.and_allOnes]

/-- The field of `v` bits from bit `k` on. -/
theorem shift_toNat {v : Nat} (word : BitVec w) (k : Nat) : ((word >>> k).setWidth v).toNat =
    word.toNat / 2 ^ k % 2 ^ v := by
  rw [BitVec.toNat_setWidth, BitVec.toNat_ushiftRight, Nat.shiftRight_eq_div_pow]

theorem field_toNat {v : Nat} (word : BitVec w) (k : Nat) (low : mask.setWidth v = BitVec.allOnes v) :
    ((word >>> k &&& mask).setWidth v).toNat = word.toNat / 2 ^ k % 2 ^ v := by
  rw [setWidth_and_low _ low, shift_toNat]

/-- What a narrower word keeps of a signed one. -/
theorem setWidth_toInt {v : Nat} (word : BitVec w) (narrow : v ≤ w) : ((word.setWidth v).toNat : Int) =
    word.toInt % 2 ^ v := by
  have divides : ((2 ^ v : Nat) : Int) ∣ ((2 ^ w : Nat) : Int) := Int.natCast_dvd_natCast.mpr (Nat.pow_dvd_pow 2 narrow)
  calc ((word.setWidth v).toNat : Int)
      _ = word.toNat % (2 ^ v : Nat) := by rw [BitVec.toNat_setWidth, Int.natCast_emod]
      _ = word.toNat % (2 ^ w : Nat) % (2 ^ v : Nat) := (Int.emod_emod_of_dvd _ divides).symm
      _ = word.toInt % (2 ^ w : Nat) % (2 ^ v : Nat) := by rw [BitVec.toInt_eq_toNat_bmod, Int.bmod_emod]
      _ = word.toInt % (2 ^ v : Nat) := Int.emod_emod_of_dvd _ divides
      _ = word.toInt % 2 ^ v := by rw [Int.natCast_pow]; rfl

end Hotarubi.Base.Mask
