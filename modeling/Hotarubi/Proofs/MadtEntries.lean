import Hotarubi.Proofs.AcpiLookup

/-! The loops over the entries of the MADT. They go by the length byte of each entry and
end only where they meet the end of the table exactly. -/

namespace Hotarubi.Acpi

open Memory Processor

/-- The length byte of the entry at an offset of the table. -/
def lengthAt (mem : Image) (madt : UInt64) (offset : Nat) : Nat := (mem (madt + .ofNat offset + 1)).toNat

/-- From an offset on, entries follow each other up to the very end of the table: the two
bytes of their header and the bytes of their length are in it, and no length is 0. -/
inductive Fits (mem : Image) (madt : UInt64) : Nat → Prop where
  | done : Fits mem madt (tableLength mem madt).toNat
  | entry {offset : Nat} (header : offset + 2 ≤ (tableLength mem madt).toNat)
      (positive : 1 ≤ lengthAt mem madt offset)
      (room : offset + lengthAt mem madt offset ≤ (tableLength mem madt).toNat)
      (rest : Fits mem madt (offset + lengthAt mem madt offset)) : Fits mem madt offset

/-- An entry with its header lies in `[madt, madt + length)`. -/
structure Inside (mem : Image) (madt ptr : UInt64) : Prop where
  header : (ptr - madt).toNat + 2 ≤ (tableLength mem madt).toNat
  body : (ptr - madt).toNat + (mem (ptr + 1)).toNat ≤ (tableLength mem madt).toNat

/-- The loops of `parse_madt` come to an end, and visit only entries of the table. -/
def Iterates (mem : Image) (madt : UInt64) : Prop :=
  ∃ fuel entries, visited mem (madtEnd mem madt) fuel (madtBegin madt) = some entries ∧
    ∀ ptr ∈ entries, Inside mem madt ptr

section Entries

variable {mem : Image} {madt : UInt64}

private theorem offset_ptr (madt ptr : UInt64) : madt + .ofNat (ptr - madt).toNat = ptr := by
  rw [UInt64.ofNat_toNat]
  grind

private theorem ptr_offset (madt : UInt64) {offset : Nat} (small : offset < 2 ^ 64) :
    (madt + .ofNat offset - madt).toNat = offset := by
  have same : madt + .ofNat offset - madt = .ofNat offset := by grind
  rw [same, UInt64.toNat_ofNat_of_lt' small]

private theorem tableLength_lt (mem : Image) (madt : UInt64) : (tableLength mem madt).toNat < 2 ^ 64 :=
  Nat.lt_trans (tableLength mem madt).toNat_lt (by decide)

private theorem madtEnd_offset (mem : Image) (madt : UInt64) : (madtEnd mem madt - madt).toNat =
    (tableLength mem madt).toNat := by
  have same : madtEnd mem madt - madt = (tableLength mem madt).toUInt64 := by
    unfold madtEnd
    grind
  rw [same, UInt32.toNat_toUInt64]

private theorem madtAdd_offset {ptr : UInt64} (inside : Inside mem madt ptr) :
    (madtAdd mem ptr - madt).toNat = (ptr - madt).toNat + lengthAt mem madt (ptr - madt).toNat := by
  have same : madtAdd mem ptr - madt = (ptr - madt) + (mem (ptr + 1)).toUInt64 := by
    unfold madtAdd
    grind
  have below := tableLength_lt mem madt
  have body := inside.body
  rw [same, lengthAt, offset_ptr, UInt64.toNat_add, UInt8.toNat_toUInt64, Nat.mod_eq_of_lt (by omega)]

private theorem fits_of_visited {fuel : Nat} {ptr : UInt64} {entries : List UInt64}
    (ended : visited mem (madtEnd mem madt) fuel ptr = some entries)
    (inside : ∀ ptr ∈ entries, Inside mem madt ptr) : Fits mem madt (ptr - madt).toNat := by
  induction fuel generalizing ptr entries with
  | zero => cases ended
  | succ fuel ih =>
    rw [visited] at ended
    split at ended
    next other =>
      obtain ⟨later, rest, same⟩ := Option.bind_eq_some_iff.mp ended
      obtain rfl := Option.some.inj same
      have here := inside ptr List.mem_cons_self
      have fits := ih rest fun ptr member => inside ptr (List.mem_cons_of_mem _ member)
      rw [madtAdd_offset here] at fits
      by_cases zero : lengthAt mem madt (ptr - madt).toNat = 0
      · rwa [zero] at fits
      · refine .entry here.header (Nat.one_le_iff_ne_zero.mpr zero) ?_ fits
        have body := here.body
        rwa [lengthAt, offset_ptr]
    next last =>
      obtain rfl := not_not.mp last
      rw [madtEnd_offset]
      exact .done

private theorem visited_stays {last ptr : UInt64} (stays : madtAdd mem ptr = ptr) (other : ptr ≠ last) (fuel : Nat) :
    visited mem last fuel ptr = none := by
  induction fuel with
  | zero => rfl
  | succ fuel ih =>
    rw [visited, if_pos other, stays, ih]
    rfl

private theorem visited_of_fits {offset : Nat} (fits : Fits mem madt offset) :
    ∃ fuel entries, visited mem (madtEnd mem madt) fuel (madt + .ofNat offset) = some entries ∧
      ∀ ptr ∈ entries, Inside mem madt ptr := by
  induction fits with
  | done =>
    have last : madt + .ofNat (tableLength mem madt).toNat = madtEnd mem madt := by
      rw [← madtEnd_offset, offset_ptr]
    refine ⟨1, [], ?_, by simp⟩
    rw [visited, if_neg (not_not_intro last)]
  | @entry offset header positive room rest ih =>
    obtain ⟨fuel, entries, ended, inside⟩ := ih
    have small : offset < 2 ^ 64 := by
      have below := tableLength_lt mem madt
      omega
    have here : Inside mem madt (madt + .ofNat offset) := by
      refine ⟨?_, ?_⟩
      · rwa [ptr_offset madt small]
      · rw [ptr_offset madt small]
        exact room
    refine ⟨fuel + 1, (madt + .ofNat offset) :: entries, ?_, ?_⟩
    · have other : madt + .ofNat offset ≠ madtEnd mem madt := by
        intro last
        have same := congrArg (fun ptr => (ptr - madt).toNat) last
        simp only [ptr_offset madt small, madtEnd_offset] at same
        omega
      have next : madt + .ofNat (offset + lengthAt mem madt offset) = madtAdd mem (madt + .ofNat offset) := by
        rw [← offset_ptr madt (madtAdd mem _), madtAdd_offset here, ptr_offset madt small]
      rw [visited, if_pos other, ← next, ended]
      rfl
    · intro ptr member
      rcases List.mem_cons.mp member with rfl | member
      · exact here
      · exact inside ptr member

/-- For a MADT that has been accepted, the loops end inside of it exactly when the entries
from offset 44 on add up to its length. -/
theorem iterates_iff (mem : Image) (madt : UInt64) (_accepted : check mem madt (acpiSig "APIC") = true) :
    Iterates mem madt ↔ Fits mem madt 44 := by
  have begins : madtBegin madt = madt + .ofNat 44 := rfl
  refine ⟨?_, ?_⟩
  · intro iterates
    obtain ⟨fuel, entries, ended, inside⟩ := iterates
    have fits := fits_of_visited ended inside
    rwa [begins, ptr_offset madt (by decide)] at fits
  · intro fits
    unfold Iterates
    rw [begins]
    exact visited_of_fits fits

/-- Such a table is parsed: the runs over its entries have an outcome. -/
theorem parseMadt_done {κ : Type} (mem : Image) (roots : Roots) (s : State κ)
    (some : (getTable mem roots (acpiSig "APIC")).2 ≠ 0)
    (fits : Fits mem (getTable mem roots (acpiSig "APIC")).2 44) :
    ∃ fuel entries, parseMadt mem roots fuel s = .some (parseTable entries s) := by
  obtain ⟨fuel, entries, ended, _⟩ := visited_of_fits fits
  refine ⟨fuel, entries.map (madtEntry mem), ?_⟩
  have ended : visited mem (madtEnd mem (getTable mem roots (acpiSig "APIC")).2) fuel
      (madtBegin (getTable mem roots (acpiSig "APIC")).2) = .some entries := ended
  simp only [parseMadt]
  rw [if_neg some, ended]
  rfl

/-- A MADT of 54 bytes with an entry of 4 bytes and one of 6. -/
def twoEntries : Image :=
  imageOf (acpiSig "APIC" ++ [54, 0, 0, 0, 0xa2] ++ List.replicate 35 0 ++ [0, 4, 0, 0, 1, 6])

theorem iterates_iff_witness :
    check twoEntries (va 0x1000) (acpiSig "APIC") = true ∧
      (tableLength twoEntries (va 0x1000)).toNat = 54 ∧
      lengthAt twoEntries (va 0x1000) 44 = 4 ∧ lengthAt twoEntries (va 0x1000) 48 = 6 ∧
      Iterates twoEntries (va 0x1000) := by
  have accepted : check twoEntries (va 0x1000) (acpiSig "APIC") = true := by decide +kernel
  have length : (tableLength twoEntries (va 0x1000)).toNat = 54 := by decide +kernel
  have first : lengthAt twoEntries (va 0x1000) 44 = 4 := by decide +kernel
  have second : lengthAt twoEntries (va 0x1000) 48 = 6 := by decide +kernel
  have last : Fits twoEntries (va 0x1000) (48 + lengthAt twoEntries (va 0x1000) 48) := by
    have ends : 48 + lengthAt twoEntries (va 0x1000) 48 = (tableLength twoEntries (va 0x1000)).toNat := by
      rw [second, length]
    exact ends ▸ .done
  have middle : Fits twoEntries (va 0x1000) (44 + lengthAt twoEntries (va 0x1000) 44) := by
    rw [first]
    exact .entry (by omega) (second ▸ by decide) (second ▸ by omega) last
  exact ⟨accepted, length, first, second,
    (iterates_iff twoEntries (va 0x1000) accepted).mpr (.entry (by omega) (by omega) (by omega) middle)⟩

/-- A MADT of 46 bytes whose one entry has the length 0. -/
theorem empty_entry_endless : ¬ ∀ (mem : Image) (madt : UInt64), check mem madt (acpiSig "APIC") = true →
    Iterates mem madt := by
  intro claim
  have iterates := claim (imageOf (acpiSig "APIC" ++ [46, 0, 0, 0, 0xb5])) (va 0x1000) (by decide +kernel)
  obtain ⟨fuel, entries, ended, _⟩ := iterates
  rw [visited_stays (by decide +kernel) (by decide +kernel)] at ended
  cases ended

end Entries

end Hotarubi.Acpi
