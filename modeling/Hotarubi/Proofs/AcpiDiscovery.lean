import Hotarubi.Base.Scan
import Hotarubi.Proofs.AcpiLookup
import Mathlib.Data.Nat.Find

/-! The scan for the RSDP. It goes by steps of two from an address that the firmware
names, so that it sees the addresses of one parity only. -/

namespace Hotarubi.Acpi

open Memory Base

/-- `rsdp::check` accepts what is at an address of the first megabyte. -/
def Holds (mem : Image) (i : Nat) : Prop := i < 0x100000 ∧ rsdpCheck mem (va (.ofNat i)) = true

/-- The first accepted structure at or above the start of the scan. -/
structure FirstRsdp (mem : Image) (i : Nat) : Prop where
  above : scanStart mem ≤ i
  here : Holds mem i
  first : ∀ j, scanStart mem ≤ j → j < i → ¬Holds mem j

section Discovery

variable {mem : Image}

private theorem rsdpCheck_iff {rsdp : UInt64} (nonnull : rsdp ≠ 0) : rsdpCheck mem rsdp = true ↔
    Agree (fun i => mem (rsdp + .ofNat i)) ((acpiSig "RSD PTR ").getD · 0) 8 ∧
      sumBytes mem rsdp 20 = 0 ∧ sumBytes mem rsdp (word mem (rsdp + 20) 4) = 0 := by
  have compared := strncmp_zero mem (acpiSig "RSD PTR ") 7 nonnull
  rw [← compared, rsdpCheck]
  split
  next same =>
    split
    next base => simp [same, base]
    next base => simp [base]
  next other => simp [other]

private theorem scanStart_eq (mem : Image) : scanStart mem = (mem (va 0x40e)).toNat / 16 := by
  rw [scanStart, UInt8.toNat_shiftRight]
  have four : (4 : UInt8).toNat % 8 = 4 := rfl
  rw [four, Nat.shiftRight_eq_div_pow]

private theorem scanStart_lt (mem : Image) : scanStart mem < 16 := by
  have byte := (mem (va 0x40e)).toNat_lt
  rw [scanStart_eq]
  omega

private theorem mem_scanned (i : Nat) : i ∈ scanned mem ↔
    scanStart mem ≤ i ∧ i < 0x100000 ∧ i % 2 = scanStart mem % 2 := by
  have small := scanStart_lt mem
  rw [scanned, List.mem_range']
  refine ⟨?_, ?_⟩
  · intro some
    obtain ⟨k, bound, rfl⟩ := some
    omega
  · intro inside
    exact ⟨(i - scanStart mem) / 2, by omega, by omega⟩

private theorem scanned_sorted (mem : Image) : (scanned mem).Pairwise (· < ·) := List.pairwise_lt_range' 2

private theorem findRsdp_eq_some (i : Nat) : findRsdp mem = some i ↔
    i ∈ scanned mem ∧ Holds mem i ∧ ∀ j ∈ scanned mem, j < i → ¬Holds mem j := by
  have bound {j : Nat} (member : j ∈ scanned mem) : j < 0x100000 := ((mem_scanned j).mp member).2.1
  rw [findRsdp, find?_sorted (scanned_sorted mem)]
  refine ⟨?_, ?_⟩
  · intro found
    obtain ⟨member, here, before⟩ := found
    refine ⟨member, ⟨bound member, here⟩, ?_⟩
    intro j inside below holds
    exact Bool.false_ne_true ((before j inside below).symm.trans holds.2)
  · intro found
    obtain ⟨member, here, before⟩ := found
    refine ⟨member, here.2, ?_⟩
    intro j inside below
    apply Bool.eq_false_iff.mpr
    exact fun accepted => before j inside below ⟨bound inside, accepted⟩

private theorem exists_first {a : Nat} (above : scanStart mem ≤ a) (here : Holds mem a) : ∃ i, FirstRsdp mem i := by
  classical
  have some : ∃ i, scanStart mem ≤ i ∧ Holds mem i := ⟨a, above, here⟩
  obtain ⟨start, holds⟩ := Nat.find_spec some
  refine ⟨Nat.find some, start, holds, ?_⟩
  intro j above below holds
  exact Nat.find_min some below ⟨above, holds⟩

theorem FirstRsdp.unique {i j : Nat} (one : FirstRsdp mem i) (other : FirstRsdp mem j) : i = j := by
  rcases Nat.lt_trichotomy i j with less | same | less
  · exact absurd one.here (other.first i one.above less)
  · exact same
  · exact absurd other.here (one.first j other.above less)

/-- With an accepted structure at an aligned address, the scan ends at the first one
exactly when that has the parity of its start, which is bit 4 of the byte. -/
theorem findRsdp_iff (mem : Image) (a : Nat) (above : 16 ≤ a) (_aligned : a % 16 = 0) (here : Holds mem a) :
    (∃ i, findRsdp mem = some i ∧ FirstRsdp mem i) ↔
      ∀ i, FirstRsdp mem i → i % 2 = (mem (va 0x40e)).toNat / 16 % 2 := by
  rw [← scanStart_eq]
  have small := scanStart_lt mem
  refine ⟨?_, ?_⟩
  · intro found i first
    obtain ⟨j, found, other⟩ := found
    obtain rfl := first.unique other
    exact ((mem_scanned i).mp ((findRsdp_eq_some i).mp found).1).2.2
  · intro parity
    obtain ⟨i, first⟩ := exists_first (by omega) here
    refine ⟨i, (findRsdp_eq_some i).mpr ⟨?_, first.here, ?_⟩, first⟩
    · exact (mem_scanned i).mpr ⟨first.above, first.here.1, parity i first⟩
    · intro j inside below
      exact first.first j ((mem_scanned j).mp inside).1 below

/-- When nothing is accepted at other addresses than aligned ones, the scan finds it
exactly when bit 4 of the byte is clear. -/
theorem findRsdp_aligned (aligned : ∀ i, Holds mem i → i % 16 = 0) {a : Nat} (above : 16 ≤ a) (here : Holds mem a) :
    (findRsdp mem).isSome ↔ (mem (va 0x40e)).toNat / 16 % 2 = 0 := by
  have small := scanStart_lt mem
  rw [← scanStart_eq]
  refine ⟨?_, ?_⟩
  · intro some
    obtain ⟨i, found⟩ := Option.isSome_iff_exists.mp some
    obtain ⟨inside, holds, _⟩ := (findRsdp_eq_some i).mp found
    have even := aligned i holds
    have parity := ((mem_scanned i).mp inside).2.2
    omega
  · intro even
    obtain ⟨i, first⟩ := exists_first (by omega) here
    have multiple := aligned i first.here
    have inside := (mem_scanned i).mpr ⟨first.above, first.here.1, by omega⟩
    have found := (findRsdp_eq_some i).mpr ⟨inside, first.here,
      fun j member below => first.first j ((mem_scanned j).mp member).1 below⟩
    rw [found]
    rfl

/-- The roots that `init_tables` leaves are accepted ones, or there are none. -/
theorem initTables_accepted {roots : Roots} (done : initTables mem ⟨0, 0⟩ = .ok roots) :
    roots = ⟨0, 0⟩ ∨ roots.Accepted mem := by
  unfold initTables at done
  split at done
  next => exact .inl (Except.ok.inj done).symm
  next i found =>
    simp only at done
    split at done
    next =>
      split at done
      next accepted =>
        obtain rfl := Except.ok.inj done
        exact .inr (.inl ⟨va_word_ne_zero mem _, accepted⟩)
      next => cases done
    next =>
      split at done
      next accepted =>
        obtain rfl := Except.ok.inj done
        by_cases null : va (.ofNat (word mem (va (.ofNat i) + 24) 8)) = 0
        · rw [null]
          exact .inl rfl
        · exact .inr (.inr ⟨rfl, null, accepted⟩)
      next => cases done

/-- Memory with an RSDP at 0xe0000, and a byte at 0x40e. -/
def rsdpAt (byte : UInt8) : Image := fun addr =>
  if addr = va 0x40e then byte else (acpiSig "RSD PTR " ++ [0xe1]).getD (addr - va 0xe0000).toNat 0

theorem findRsdp_iff_witness : Holds (rsdpAt 0xc0) 0xe0000 ∧
    ((∃ i, findRsdp (rsdpAt 0xc0) = some i ∧ FirstRsdp (rsdpAt 0xc0) i) ↔
      ∀ i, FirstRsdp (rsdpAt 0xc0) i → i % 2 = (rsdpAt 0xc0 (va 0x40e)).toNat / 16 % 2) :=
  have here : Holds (rsdpAt 0xc0) 0xe0000 := ⟨by decide, by decide +kernel⟩
  ⟨here, findRsdp_iff (rsdpAt 0xc0) 0xe0000 (by decide) (by decide) here⟩

private theorem bytes_of_R {k : Nat} (first : (acpiSig "RSD PTR " ++ [0xe1]).getD k 0 = 0x52) : k = 0 ∨ k = 6 := by
  have short : ∀ k < 9, (acpiSig "RSD PTR " ++ [0xe1]).getD k 0 = 0x52 → k = 0 ∨ k = 6 := by decide
  by_cases inside : k < 9
  · exact short k inside first
  · rw [List.getD_eq_getElem?_getD, List.getElem?_eq_none (Nat.le_of_not_lt inside)] at first
    cases first

private theorem rsdpAt_even {i : Nat} (holds : Holds (rsdpAt 0x10) i) : i % 2 = 0 := by
  obtain ⟨low, accepted⟩ := holds
  have first := ((rsdpCheck_iff (va_ne_zero (Nat.lt_trans low (by decide)))).mp accepted).1 0 (by decide) (by simp)
  have offset : va (.ofNat i) + .ofNat 0 - va 0xe0000 = .ofNat i - 0xe0000 := by
    unfold va
    grind
  have fits : i < UInt64.size := Nat.lt_trans low (by decide)
  have base : (0xe0000 : UInt64).toNat = 0xe0000 := rfl
  simp only [rsdpAt] at first
  split at first
  next => cases first
  next =>
    rw [offset] at first
    have index := bytes_of_R first
    rw [UInt64.toNat_sub, UInt64.toNat_ofNat_of_lt' fits, base] at index
    omega

/-- The byte 0x10 lets the scan begin at address 1. -/
theorem odd_start_misses : ¬ ∀ (mem : Image) (a : Nat), 16 ≤ a → a % 16 = 0 → Holds mem a →
    ∃ i, findRsdp mem = some i ∧ FirstRsdp mem i := by
  intro claim
  obtain ⟨i, found, first⟩ := claim (rsdpAt 0x10) 0xe0000 (by decide) (by decide) ⟨by decide, by decide +kernel⟩
  have parity := ((mem_scanned i).mp ((findRsdp_eq_some i).mp found).1).2.2
  have odd : scanStart (rsdpAt 0x10) % 2 = 1 := by decide +kernel
  have even := rsdpAt_even first.here
  omega

end Discovery

end Hotarubi.Acpi
