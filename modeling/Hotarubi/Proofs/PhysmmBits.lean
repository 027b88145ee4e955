import Hotarubi.Base.Bitmap
import Hotarubi.Memory.Physmm

/-! What the marking helpers and the metadata loops do to each component of the
state. Later modules read these effects and never unfold the loops again. -/

namespace Hotarubi.Memory.Physmm
open Base Base.Bitmap

/-- The state of page `i`: its bit in the bitmap. -/
def State.used (m : State) (i : Nat) : Bool := bitAt m.memoryMapData i

/-- The bookkeeping that `init` establishes: the counter is the number of set
bits inside the map. -/
def State.Accounted (m : State) : Prop :=
  m.memoryMapUsed.toNat = popCount m.memoryMapData m.mapBits

instance (m : State) : Decidable m.Accounted := inferInstanceAs (Decidable (_ = _))

theorem peekUsed_eq (m : State) (bit : Nat) :
    peekUsed m bit = (decide (m.mapBits < bit) || m.used bit) := by
  unfold peekUsed
  split
  next beyond => simp [beyond]
  next inside =>
    rw [and_mask_ne_zero _ (Nat.mod_lt _ (by decide))]
    simp [State.used, bitAt, show ¬ m.mapBits < bit from inside]

theorem peekUsed_inside {m : State} {bit : Nat} (inside : bit < m.mapBits) :
    peekUsed m bit = m.used bit := by
  rw [peekUsed_eq]
  simp [show ¬ m.mapBits < bit by omega]

theorem markUsed_eq (m : State) (bit : Nat) :
    markUsed m bit =
      if bit < m.mapBits ∧ m.used bit = false then
        { m with memoryMapData := setBit m.memoryMapData bit, memoryMapUsed := m.memoryMapUsed + 1 }
      else m := by
  unfold markUsed
  by_cases inside : bit < m.mapBits
  · simp only [inside, peekUsed_inside inside, decide_true, Bool.true_and, true_and, beq_iff_eq]
    rfl
  · simp [inside]

private theorem markFree_eq (m : State) (bit : Nat) :
    markFree m bit =
      if bit < m.mapBits ∧ m.used bit = true then
        { m with memoryMapData := clearBit m.memoryMapData bit, memoryMapUsed := m.memoryMapUsed - 1 }
      else m := by
  unfold markFree
  by_cases inside : bit < m.mapBits
  · simp only [inside, peekUsed_inside inside, decide_true, Bool.true_and, true_and, beq_iff_eq]
    rfl
  · simp [inside]

/-- Everything but the bits and their counter. -/
structure SameLayout (m after : State) : Prop where
  size : after.memoryMapSize = m.memoryMapSize
  base : after.memoryMapBase = m.memoryMapBase
  array : after.memoryMapPages = m.memoryMapPages

theorem SameLayout.refl (m : State) : SameLayout m m := ⟨rfl, rfl, rfl⟩

theorem SameLayout.trans {m middle after : State} (first : SameLayout m middle)
    (second : SameLayout middle after) : SameLayout m after :=
  ⟨second.size.trans first.size, second.base.trans first.base, second.array.trans first.array⟩

theorem SameLayout.mapBits {m after : State} (same : SameLayout m after) :
    after.mapBits = m.mapBits := by
  simp only [State.mapBits, same.size]

theorem markUsed_layout (m : State) (bit : Nat) :
    SameLayout m (markUsed m bit) ∧ (markUsed m bit).pageMaps = m.pageMaps := by
  rw [markUsed_eq]
  split <;> exact ⟨⟨rfl, rfl, rfl⟩, rfl⟩

private theorem markFree_layout (m : State) (bit : Nat) :
    SameLayout m (markFree m bit) ∧ (markFree m bit).pageMaps = m.pageMaps := by
  rw [markFree_eq]
  split <;> exact ⟨⟨rfl, rfl, rfl⟩, rfl⟩

theorem markUsedFrom_layout (m : State) (bit len : Nat) :
    SameLayout m (markUsedFrom m bit len) ∧ (markUsedFrom m bit len).pageMaps = m.pageMaps := by
  induction len generalizing m bit with
  | zero => exact ⟨.refl m, rfl⟩
  | succ len ih =>
    have first := markUsed_layout m bit
    have rest := ih (markUsed m bit) (bit + 1)
    exact ⟨first.1.trans rest.1, rest.2.trans first.2⟩

theorem markFreeFrom_layout (m : State) (bit len : Nat) :
    SameLayout m (markFreeFrom m bit len) ∧ (markFreeFrom m bit len).pageMaps = m.pageMaps := by
  induction len generalizing m bit with
  | zero => exact ⟨.refl m, rfl⟩
  | succ len ih =>
    have first := markFree_layout m bit
    have rest := ih (markFree m bit) (bit + 1)
    exact ⟨first.1.trans rest.1, rest.2.trans first.2⟩

theorem used_markUsed (m : State) (bit i : Nat) :
    (markUsed m bit).used i = (m.used i || decide (i = bit ∧ i < m.mapBits)) := by
  rw [markUsed_eq]
  split
  next marked =>
    simp only [State.used, bitAt_setBit (by decide : 0 < 32)]
    by_cases same : i = bit
    · subst same; simp [marked.1]
    · simp [same]
  next kept =>
    by_cases same : i = bit
    · subst same
      by_cases inside : i < m.mapBits
      · have : m.used i = true := by simpa [inside] using kept
        simp [this]
      · simp [inside]
    · simp [same]

private theorem used_markFree (m : State) (bit i : Nat) :
    (markFree m bit).used i = (m.used i && !decide (i = bit ∧ i < m.mapBits)) := by
  rw [markFree_eq]
  split
  next marked =>
    simp only [State.used, bitAt_clearBit (by decide : 0 < 32)]
    by_cases same : i = bit
    · subst same; simp [marked.1]
    · simp [same]
  next kept =>
    by_cases same : i = bit
    · subst same
      by_cases inside : i < m.mapBits
      · have : m.used i = false := by simpa [inside] using kept
        simp [this]
      · simp [inside]
    · simp [same]

theorem used_markUsedFrom (m : State) (bit len i : Nat) :
    (markUsedFrom m bit len).used i =
      (m.used i || decide (bit ≤ i ∧ i < bit + len ∧ i < m.mapBits)) := by
  induction len generalizing m bit with
  | zero => simp [markUsedFrom]; omega
  | succ len ih =>
    rw [markUsedFrom, ih, used_markUsed, (markUsed_layout m bit).1.mapBits, Bool.or_assoc,
      ← Bool.decide_or]
    congr 2
    exact propext (by omega)

theorem used_markFreeFrom (m : State) (bit len i : Nat) :
    (markFreeFrom m bit len).used i =
      (m.used i && !decide (bit ≤ i ∧ i < bit + len ∧ i < m.mapBits)) := by
  induction len generalizing m bit with
  | zero => simp [markFreeFrom]; omega
  | succ len ih =>
    rw [markFreeFrom, ih, used_markFree, (markFree_layout m bit).1.mapBits, Bool.and_assoc,
      ← Bool.not_or, ← Bool.decide_or]
    congr 3
    exact propext (by omega)

theorem mapBits_lt (m : State) : m.mapBits < 2 ^ 32 := (m.memoryMapSize * 8).toNat_lt

private theorem markUsed_accounted {m : State} (balanced : m.Accounted) (bit : Nat) :
    (markUsed m bit).Accounted := by
  rw [markUsed_eq]
  split
  next marked =>
    have bound := mapBits_lt m
    have room : popCount m.memoryMapData m.mapBits < m.mapBits := popCount_lt marked.1 marked.2
    have grown := popCount_setBit (by decide : 0 < 32) marked.1 marked.2
    show (m.memoryMapUsed + 1).toNat = popCount (setBit m.memoryMapData bit) m.mapBits
    have counter : m.memoryMapUsed.toNat = popCount m.memoryMapData m.mapBits := balanced
    rw [UInt32.toNat_add, grown]
    simp only [UInt32.toNat_one, counter]
    omega
  next => exact balanced

private theorem markFree_accounted {m : State} (balanced : m.Accounted) (bit : Nat) :
    (markFree m bit).Accounted := by
  rw [markFree_eq]
  split
  next marked =>
    have positive : 0 < popCount m.memoryMapData m.mapBits := popCount_pos marked.1 marked.2
    have shrunk := popCount_clearBit (by decide : 0 < 32) marked.1 marked.2
    have counter : m.memoryMapUsed.toNat = popCount m.memoryMapData m.mapBits := balanced
    have enough : (1 : UInt32) ≤ m.memoryMapUsed := by
      rw [UInt32.le_iff_toNat_le, counter]
      exact positive
    show (m.memoryMapUsed - 1).toNat = popCount (clearBit m.memoryMapData bit) m.mapBits
    rw [UInt32.toNat_sub_of_le _ _ enough, counter]
    simp only [UInt32.toNat_one]
    omega
  next => exact balanced

theorem markUsedFrom_accounted {m : State} (balanced : m.Accounted) (bit len : Nat) :
    (markUsedFrom m bit len).Accounted := by
  induction len generalizing m bit with
  | zero => exact balanced
  | succ len ih => exact ih (markUsed_accounted balanced bit) (bit + 1)

theorem markFreeFrom_accounted {m : State} (balanced : m.Accounted) (bit len : Nat) :
    (markFreeFrom m bit len).Accounted := by
  induction len generalizing m bit with
  | zero => exact balanced
  | succ len ih => exact ih (markFree_accounted balanced bit) (bit + 1)

private theorem setPages_eq (m : State) (addr : PhysAddr) (entry : Nat → PageMap) (len : Nat) :
    ∃ pageMaps, setPages m addr entry len = { m with pageMaps } := by
  induction len generalizing m addr with
  | zero => exact ⟨_, rfl⟩
  | succ len ih =>
    obtain ⟨pageMaps, same⟩ := ih (m.setPage addr entry) (addr + pageSize)
    exact ⟨pageMaps, by rw [setPages, same]; rfl⟩

section Metadata
variable (m : State) (addr : PhysAddr) (entry : Nat → PageMap) (len : Nat)

@[simp] theorem setPages_layout : SameLayout m (setPages m addr entry len) := by
  obtain ⟨pageMaps, same⟩ := setPages_eq m addr entry len
  rw [same]
  exact ⟨rfl, rfl, rfl⟩

@[simp] theorem setPages_data : (setPages m addr entry len).memoryMapData = m.memoryMapData := by
  obtain ⟨pageMaps, same⟩ := setPages_eq m addr entry len
  rw [same]

@[simp] theorem setPages_counter : (setPages m addr entry len).memoryMapUsed = m.memoryMapUsed := by
  obtain ⟨pageMaps, same⟩ := setPages_eq m addr entry len
  rw [same]

@[simp] theorem setPages_used (i : Nat) : (setPages m addr entry len).used i = m.used i := by
  simp [State.used]

theorem setPages_accounted (balanced : m.Accounted) : (setPages m addr entry len).Accounted := by
  simpa only [State.Accounted, setPages_data, setPages_counter,
    (setPages_layout m addr entry len).mapBits] using balanced

end Metadata

end Hotarubi.Memory.Physmm
