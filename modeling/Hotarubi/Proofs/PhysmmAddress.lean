import Hotarubi.Base.Mask
import Hotarubi.Proofs.PhysmmAccounting

/-! Physical addresses and their places in the direct map. `__VA` adds the base of the map
and `__PA` clears its bits. Of these bit 43 lies inside of the window, so that the two are
inverse in every other 8 TiB of it. -/

namespace Hotarubi.Memory.Physmm
open Base

theorem physMemBase_clear : ∀ k < 43, kVMRangePhysMemBase.toBitVec.getLsbD k = false := by decide

theorem pa_lt {x : UInt64} (image : x.toNat < kVMRangeKernelBase.toNat) : pa x = x &&& ~~~kVMRangePhysMemBase := by
  rw [pa, if_neg]
  rwa [ge_iff_le, UInt64.le_iff_toNat_le, Nat.not_le]

theorem pa_eq {x : UInt64} (small : x.toNat < 2 ^ 43) : pa x = x := by
  rw [pa_lt]
  · apply UInt64.toBitVec_inj.mp
    exact Mask.and_not_eq_self (Mask.and_eq_zero_of_lt physMemBase_clear small)
  · rw [kernelBase_toNat]
    omega

section Window

variable {m : State} {p : PhysAddr}

private theorem va_toNat (window : p.toNat < 2 ^ 46) : (va p).toNat = p.toNat + kVMRangePhysMemBase.toNat := by
  rw [va, UInt64.toNat_add, physMemBase_toNat]
  omega

private theorem pa_va_iff (window : p.toNat < 2 ^ 46) : pa (va p) = p ↔ p &&& kVMRangePhysMemBase = 0 := by
  rw [pa_lt, va, ← UInt64.toBitVec_inj, ← UInt64.toBitVec_inj]
  · exact Mask.add_and_not_eq_iff
  · rw [va_toNat window, physMemBase_toNat, kernelBase_toNat]
    omega

private theorem and_physMemBase_iff (window : p.toNat < 2 ^ 46) : p &&& kVMRangePhysMemBase = 0 ↔
    p.toNat / 2 ^ 43 % 2 = 0 := by
  have shared : ∀ k < 46, kVMRangePhysMemBase.toBitVec.getLsbD k = decide (k = 43) := by decide
  have bit : p.toBitVec.getLsbD 43 = false ↔ p.toNat / 2 ^ 43 % 2 = 0 := by
    change p.toNat.testBit 43 = false ↔ _
    rw [Nat.testBit_eq_decide_div_mod_eq, decide_eq_false_iff_not]
    omega
  rw [← bit, ← UInt64.toBitVec_inj]
  constructor
  · intro apart
    have clear : (p &&& kVMRangePhysMemBase).toBitVec.getLsbD 43 = false := by
      rw [apart]
      rfl
    rwa [UInt64.toBitVec_and, BitVec.getLsbD_and, shared 43 (by decide), decide_eq_true rfl, Bool.and_true] at clear
  · intro clear
    apply BitVec.eq_of_getLsbD_eq
    intro k _
    rw [UInt64.toBitVec_and, BitVec.getLsbD_and]
    by_cases below : k < 46
    · by_cases here : k = 43
      · rw [here, clear]
        rfl
      · rw [shared k below, decide_eq_false here, Bool.and_false]
        exact BitVec.getLsbD_zero.symm
    · have beyond : p.toBitVec.getLsbD k = false :=
        Nat.testBit_lt_two_pow (Nat.lt_of_lt_of_le window (Nat.pow_le_pow_right (by decide) (Nat.not_lt.mp below)))
      rw [beyond, Bool.false_and]
      exact BitVec.getLsbD_zero.symm

private theorem window_lt (window : p ≤ kVMRangePhysMemEnd - kVMRangePhysMemBase) : p.toNat < 2 ^ 46 := by
  have bound := UInt64.le_iff_toNat_le.mp window
  rw [show (kVMRangePhysMemEnd - kVMRangePhysMemBase).toNat = 2 ^ 46 - 1 from rfl] at bound
  omega

private theorem xpa_low (offset : m.memoryMapBase = kVMRangePhysMemBase) (window : p.toNat < 2 ^ 46) : xpa m p = p := by
  rw [xpa, offset, if_neg]
  rw [ge_iff_le, UInt64.le_iff_toNat_le, physMemBase_toNat]
  omega

private theorem xpa_va (offset : m.memoryMapBase = kVMRangePhysMemBase) (window : p.toNat < 2 ^ 46) : xpa m (va p) =
    pa (va p) := by
  rw [xpa, offset, if_pos]
  rw [ge_iff_le, UInt64.le_iff_toNat_le, va_toNat window]
  omega

/-- An address in the window comes back from the direct map, and names one entry of the
metadata in both forms, exactly where bit 43 is clear. -/
theorem address_round_trip_iff (offset : m.memoryMapBase = kVMRangePhysMemBase)
    (window : p ≤ kVMRangePhysMemEnd - kVMRangePhysMemBase) :
    (pa (va p) = p ∧ xpa m p = p ∧ xpa m (va p) = p ∧ ∀ entry, m.setPage (va p) entry = m.setPage p entry) ↔
      p.toNat / 2 ^ 43 % 2 = 0 := by
  have small := window_lt window
  rw [← and_physMemBase_iff small, ← pa_va_iff small, xpa_va offset small, xpa_low offset small]
  constructor
  · intro both
    exact both.1
  · intro same
    refine ⟨same, rfl, same, fun entry => ?_⟩
    rw [State.setPage, State.setPage, xpa_va offset small, xpa_low offset small, same]

end Window

/-- A map without pages that is used through the direct map. -/
def emptyMap : State := setPhysicalBaseOffset (setMemoryMap [] 0) kVMRangePhysMemBase

theorem address_round_trip_iff_witness :
    (pa (va 0x7ffffffffff) = 0x7ffffffffff ∧ xpa emptyMap 0x7ffffffffff = 0x7ffffffffff ∧
        xpa emptyMap (va 0x7ffffffffff) = 0x7ffffffffff ∧
        ∀ entry, emptyMap.setPage (va 0x7ffffffffff) entry = emptyMap.setPage 0x7ffffffffff entry) ↔
      (0x7ffffffffff : UInt64).toNat / 2 ^ 43 % 2 = 0 :=
  address_round_trip_iff rfl (by decide)

/-- The address 8 TiB comes back as 16 TiB. -/
theorem pa_va_carries : (0x80000000000 : UInt64) ≤ kVMRangePhysMemEnd - kVMRangePhysMemBase ∧
    pa (va 0x80000000000) = 0x100000000000 ∧ xpa emptyMap (va 0x80000000000) ≠ 0x80000000000 := by
  decide

end Hotarubi.Memory.Physmm
