import Mathlib.Data.Finset.Card
import Mathlib.Data.Nat.Basic
import Mathlib.Logic.Function.Basic

/-! Bitmaps stored in machine words of any width: reading and writing a single
bit, and counting the bits set below a bound. -/

namespace Hotarubi.Base.Bitmap

variable {w : Nat}

def bitAt (words : Nat → BitVec w) (i : Nat) : Bool := (words (i / w)).getLsbD (i % w)

def setBit (words : Nat → BitVec w) (i : Nat) : Nat → BitVec w :=
  Function.update words (i / w) (words (i / w) ||| (1#w <<< (i % w)))

def clearBit (words : Nat → BitVec w) (i : Nat) : Nat → BitVec w :=
  Function.update words (i / w) (words (i / w) &&& ~~~(1#w <<< (i % w)))

private theorem same_position (i j : Nat) : i / w = j / w ∧ i % w = j % w ↔ i = j := by
  refine ⟨fun ⟨quotient, remainder⟩ => ?_, fun same => same ▸ ⟨rfl, rfl⟩⟩
  rw [← Nat.div_add_mod i w, ← Nat.div_add_mod j w, quotient, remainder]

private theorem mask_bit (positive : 0 < w) (i k : Nat) (inside : k < w) :
    (1#w <<< (i % w)).getLsbD k = decide (k = i % w) := by
  have := Nat.mod_lt i positive
  simp only [BitVec.getLsbD_shiftLeft, BitVec.getLsbD_one, inside, decide_true, Bool.true_and]
  by_cases below : k < i % w
  · simp [below]; omega
  · simp only [below, decide_false, Bool.not_false, Bool.true_and, positive, decide_true]
    congr 1
    exact propext ⟨fun _ => by omega, fun _ => by omega⟩

/-- Testing a word against a single-bit mask reads that bit. -/
theorem and_mask_ne_zero (word : BitVec w) {k : Nat} (inside : k < w) :
    ((word &&& (1#w <<< k)) != 0#w) = word.getLsbD k := by
  have position := Nat.mod_eq_of_lt inside
  have mask (j : Nat) (below : j < w) : (1#w <<< k).getLsbD j = decide (j = k) := by
    simpa only [position] using mask_bit (Nat.zero_lt_of_lt inside) k j below
  cases bit : word.getLsbD k with
  | false =>
    simp only [bne_eq_false_iff_eq]
    apply BitVec.eq_of_getLsbD_eq
    intro j below
    rw [BitVec.getLsbD_and, mask j below]
    by_cases same : j = k
    · simp [same, bit]
    · simp [same]
  | true =>
    rw [bne_iff_ne]
    intro zero
    have := congrArg (BitVec.getLsbD · k) zero
    simp [BitVec.getLsbD_and, mask k inside, bit] at this

theorem bitAt_setBit (positive : 0 < w) (words : Nat → BitVec w) (i j : Nat) :
    bitAt (setBit words i) j = (bitAt words j || decide (j = i)) := by
  have inside := Nat.mod_lt j positive
  unfold bitAt setBit
  by_cases same : j / w = i / w
  · rw [same, Function.update_self, BitVec.getLsbD_or, mask_bit positive i _ inside]
    congr 2
    exact propext ⟨fun rest => (same_position j i).mp ⟨same, rest⟩, fun equal => equal ▸ rfl⟩
  · rw [Function.update_of_ne same]
    have different : j ≠ i := fun equal => same (equal ▸ rfl)
    simp [different]

theorem bitAt_clearBit (positive : 0 < w) (words : Nat → BitVec w) (i j : Nat) :
    bitAt (clearBit words i) j = (bitAt words j && decide (j ≠ i)) := by
  have inside := Nat.mod_lt j positive
  unfold bitAt clearBit
  by_cases same : j / w = i / w
  · rw [same, Function.update_self, BitVec.getLsbD_and, BitVec.getLsbD_not,
      mask_bit positive i _ inside]
    have equal : (j % w = i % w) = (j = i) :=
      propext ⟨fun rest => (same_position j i).mp ⟨same, rest⟩, fun equal => equal ▸ rfl⟩
    simp [inside, equal]
  · rw [Function.update_of_ne same]
    have different : j ≠ i := fun equal => same (equal ▸ rfl)
    simp [different]

/-- A word is full exactly when all the bits stored in it are set. -/
theorem word_full_iff (positive : 0 < w) (words : Nat → BitVec w) (n : Nat) :
    words n = BitVec.allOnes w ↔ ∀ k < w, bitAt words (n * w + k) = true := by
  have position (k : Nat) (inside : k < w) : bitAt words (n * w + k) = (words n).getLsbD k := by
    have quotient : (n * w + k) / w = n := by
      rw [Nat.mul_comm, Nat.mul_add_div positive, Nat.div_eq_of_lt inside, Nat.add_zero]
    have remainder : (n * w + k) % w = k := by
      rw [Nat.mul_comm, Nat.mul_add_mod, Nat.mod_eq_of_lt inside]
    simp only [bitAt, quotient, remainder]
  constructor
  · intro full k inside
    simp [position k inside, full, inside]
  · intro all
    apply BitVec.eq_of_getLsbD_eq
    intro k inside
    simpa [inside] using (position k inside).symm.trans (all k inside)

/-- The number of set bits below `n`. -/
def popCount (words : Nat → BitVec w) (n : Nat) : Nat :=
  ((Finset.range n).filter fun i => bitAt words i = true).card

theorem popCount_le (words : Nat → BitVec w) (n : Nat) : popCount words n ≤ n := by
  simpa [popCount] using Finset.card_filter_le (Finset.range n) fun i => bitAt words i = true

/-- Set and clear bits below a bound add up to the bound. -/
theorem popCount_add_clear (words : Nat → BitVec w) (n : Nat) :
    popCount words n + ((Finset.range n).filter fun i => bitAt words i = false).card = n := by
  have split := Finset.card_filter_add_card_filter_not (s := Finset.range n)
    (fun i => bitAt words i = true)
  simpa [popCount] using split

theorem popCount_lt {words : Nat → BitVec w} {n i : Nat} (inside : i < n)
    (clear : bitAt words i = false) : popCount words n < n := by
  have := popCount_add_clear words n
  have : 0 < ((Finset.range n).filter fun i => bitAt words i = false).card :=
    Finset.card_pos.mpr ⟨i, by simp [inside, clear]⟩
  omega

theorem popCount_pos {words : Nat → BitVec w} {n i : Nat} (inside : i < n)
    (set : bitAt words i = true) : 0 < popCount words n :=
  Finset.card_pos.mpr ⟨i, by simp [inside, set]⟩

theorem popCount_setBit (positive : 0 < w) {words : Nat → BitVec w} {n i : Nat} (inside : i < n)
    (clear : bitAt words i = false) : popCount (setBit words i) n = popCount words n + 1 := by
  unfold popCount
  have grown : ((Finset.range n).filter fun j => bitAt (setBit words i) j = true) =
      insert i ((Finset.range n).filter fun j => bitAt words j = true) := by
    ext j
    simp only [Finset.mem_filter, Finset.mem_range, Finset.mem_insert, bitAt_setBit positive,
      Bool.or_eq_true, decide_eq_true_eq]
    grind
  rw [grown, Finset.card_insert_of_notMem (by simp [clear])]

theorem popCount_clearBit (positive : 0 < w) {words : Nat → BitVec w} {n i : Nat} (inside : i < n)
    (set : bitAt words i = true) : popCount (clearBit words i) n + 1 = popCount words n := by
  unfold popCount
  have shrunk : ((Finset.range n).filter fun j => bitAt (clearBit words i) j = true) =
      ((Finset.range n).filter fun j => bitAt words j = true).erase i := by
    ext j
    simp only [Finset.mem_filter, Finset.mem_range, Finset.mem_erase, bitAt_clearBit positive,
      Bool.and_eq_true, decide_eq_true_eq]
    grind
  rw [shrunk, Finset.card_erase_add_one (by simp [inside, set])]

end Hotarubi.Base.Bitmap
