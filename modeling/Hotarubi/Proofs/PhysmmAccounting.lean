import Hotarubi.Proofs.PhysmmCalls

/-! The counter of used pages against the bits themselves. The helpers never
count a bit that was already in the wanted state or that lies outside the map, so
no argument of a caller can make the two drift apart. -/

namespace Hotarubi.Memory.Physmm
open Base Base.Bitmap

/-- The number of free pages: clear bits inside the map. -/
def freePages (m : State) : Nat := ((Finset.range m.mapBits).filter fun i => m.used i = false).card

theorem freePageCount_eq {m : State} (balanced : m.Accounted) :
    m.memoryMapUsed.toNat ≤ m.mapBits ∧ (freePageCount m).toNat = m.mapBits - m.memoryMapUsed.toNat ∧
      (freePageCount m).toNat = freePages m := by
  have split : popCount m.memoryMapData m.mapBits + freePages m = m.mapBits := popCount_add_clear _ _
  have counter : m.memoryMapUsed.toNat = popCount m.memoryMapData m.mapBits := balanced
  have enough : m.memoryMapUsed ≤ m.memoryMapSize * 8 := by
    rw [UInt32.le_iff_toNat_le, counter]
    exact popCount_le _ _
  have count : (freePageCount m).toNat = m.mapBits - m.memoryMapUsed.toNat :=
    UInt32.toNat_sub_of_le _ _ enough
  refine ⟨UInt32.le_iff_toNat_le.mp enough, count, ?_⟩
  omega

/-- Page accounting: from balanced books, any sequence of calls with any
arguments leaves the counter equal to the number of set bits of the map, so the
reported number of free pages is exact and never underflows. -/
theorem accounting (m : State) (balanced : m.Accounted) (calls : List Call) :
    (run m calls).Accounted ∧ (run m calls).memoryMapUsed.toNat ≤ (run m calls).mapBits ∧
      (freePageCount (run m calls)).toNat = freePages (run m calls) := by
  have kept : (run m calls).Accounted :=
    run_induction (fun m call balanced => call.exec_accounted m balanced) balanced calls
  have count := freePageCount_eq kept
  exact ⟨kept, count.1, count.2.2⟩

/-- A map of whole words, as the unit tests set one up. -/
def setMemoryMap (words : List (BitVec 32)) (used : UInt32) : State where
  memoryMapData i := words.getD i 0
  memoryMapSize := 4 * UInt32.ofNat words.length
  memoryMapUsed := used
  memoryMapBase := 0
  memoryMapPages := 0x200000
  pageMaps _ := unusedPage

theorem accounting_witness :
    let m := setMemoryMap [0xfffffff1, 0x7fffffff] 60
    let calls := [.allocPage kActive, .freePage 0x1000, .freePage 0x1000, .freePageRange 0x3f123 32,
      .allocPageRange 2 kLocked, .freePage 0xffffffffffffffff]
    (run m calls).Accounted ∧ (run m calls).memoryMapUsed.toNat ≤ (run m calls).mapBits ∧
      (freePageCount (run m calls)).toNat = freePages (run m calls) :=
  accounting _ (by decide +kernel) _

end Hotarubi.Memory.Physmm
