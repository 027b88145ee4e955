import Hotarubi.Proofs.PhysmmAccounting

/-! Contiguous allocation. `_peek_used` rejects only bits beyond the end of the
map, so a candidate may run one page over the end, and the byte length handed to
the marking loop is a 32-bit product. The contract holds exactly when neither
slip decides the outcome. -/

namespace Hotarubi.Memory.Physmm
open Base Base.Bitmap

/-- The pages `page .. page + count - 1` of the map were free and exactly they
have become used. -/
structure RangeTaken (m after : State) (page count : Nat) : Prop where
  inside : ∀ i, page ≤ i → i < page + count → i < m.mapBits
  free : ∀ i, page ≤ i → i < page + count → m.used i = false
  taken : ∀ i, after.used i = (m.used i || decide (page ≤ i ∧ i < page + count))
  dropped : (freePageCount after).toNat + count = (freePageCount m).toNat

/-- What a non-null result for physical page `page` promises, including that the
call loads no bitmap word outside the map. -/
def RangeContract (m : State) (count : UInt32) (flags : Flags) : Prop :=
  ∀ page < 2 ^ 52, (allocPageRange m count flags).1 = some (UInt64.ofNat page * pageSize + m.memoryMapBase) →
    RangeTaken m (allocPageRange m count flags).2 page count.toNat ∧
      ∀ word ∈ allocPageRangeReads m count, word * 4 < m.memoryMapSize.toNat

/-- A run of free pages of the map that starts in one of its whole words. -/
structure FreeRange (m : State) (page count : Nat) : Prop where
  searched : page < m.searched
  inside : page + count ≤ m.mapBits
  free : ∀ i, page ≤ i → i < page + count → m.used i = false

/-- The last `count - 1` pages of the map are free and so is the bit behind them. -/
structure Overrun (m : State) (page count : Nat) : Prop where
  positive : 0 < page
  searched : page < m.searched
  beyond : page + count = m.mapBits + 1
  free : ∀ i, page ≤ i → i < page + count → m.used i = false

/-- When contiguous allocation keeps its contract. -/
def RangeSafe (m : State) (count : UInt32) : Prop :=
  freePageCount m < count ∨ FreeRange m 0 count.toNat ∨
    (∃ page, FreeRange m page count.toNat) ∧ count.toNat < 2 ^ 20 ∨
    (¬ ∃ page, FreeRange m page count.toNat) ∧ ¬ ∃ page, Overrun m page count.toNat

theorem freeRun_iff (m : State) (bit num : Nat) :
    FreeRun m bit num ↔ ∀ i, bit ≤ i → i < bit + num → i ≤ m.mapBits ∧ m.used i = false := by
  constructor
  · intro run i low high
    have := run (i - bit) (by omega)
    rw [Nat.add_sub_cancel' low, peekUsed_eq] at this
    simpa using this
  · intro all n below
    have := all (bit + n) (by omega) (by omega)
    rw [peekUsed_eq]
    simpa using this

theorem FreeRange.run {m : State} {page count : Nat} (range : FreeRange m page count) : FreeRun m page count := by
  have := range.inside
  exact (freeRun_iff m page count).mpr fun i low high => ⟨by omega, range.free i low high⟩

theorem Overrun.run {m : State} {page count : Nat} (overrun : Overrun m page count) : FreeRun m page count := by
  have := overrun.beyond
  exact (freeRun_iff m page count).mpr fun i low high => ⟨by omega, overrun.free i low high⟩

theorem FreeRun.cases {m : State} {page count : Nat} (run : FreeRun m page count) (positive : 0 < count)
    (searched : page < m.searched) (nonzero : 0 < page) :
    FreeRange m page count ∨ Overrun m page count := by
  have all := (freeRun_iff m page count).mp run
  have last := (all (page + count - 1) (by omega) (by omega)).1
  have free := fun i low high => (all i low high).2
  by_cases inside : page + count ≤ m.mapBits
  · exact .inl ⟨searched, inside, free⟩
  · exact .inr ⟨nonzero, searched, by omega, free⟩

private theorem pageAddr_inj {m : State} {page found : Nat} (small : page < 2 ^ 52) (searched : found < m.searched)
    {base : UInt64} (same : UInt64.ofNat page * pageSize + base = UInt64.ofNat found * pageSize + base) :
    page = found := by
  have equal := congrArg (fun x => (x - base).toNat) same
  simp only [UInt64.add_sub_cancel] at equal
  rw [pageAddr_toNat searched, UInt64.toNat_mul, UInt64.toNat_ofNat', pageSize_toNat] at equal
  omega

private theorem allocPageRange_some {m : State} {count : UInt32} (several : 1 < count) {flags : Flags} {ptr : UInt64}
    (granted : (allocPageRange m count flags).1 = some ptr) :
    ∃ page, 0 < page ∧ page < m.searched ∧ FreeRun m page count.toNat ∧
      (∀ earlier < page, ¬ FreeRun m earlier count.toNat) ∧ ¬ freePageCount m < count ∧
      ptr = UInt64.ofNat page * pageSize + m.memoryMapBase ∧
      (Call.allocPageRange count flags).range m = some (UInt64.ofNat page * pageSize, count.toNat % 2 ^ 20) := by
  have many := UInt32.lt_iff_toNat_lt.mp several
  rw [UInt32.toNat_one] at many
  obtain ⟨addr, len, ranged, takes, rfl⟩ := Call.granted (.allocPageRange count flags) granted
  have taken := Call.range_alloc takes ranged
  rw [Call.pages, Nat.max_eq_right (by omega)] at taken
  obtain ⟨rfl, enough, page, rfl, positive, searched, run, first⟩ := taken
  refine ⟨page, positive, searched, run, first, ?_, rfl, ranged⟩
  rwa [UInt32.not_lt, UInt32.le_iff_toNat_le]

private theorem allocPageRange_succeeds {m : State} {count : UInt32} (several : 1 < count) (flags : Flags)
    (enough : ¬ freePageCount m < count) {page : Nat} (searched : page < m.searched)
    (run : FreeRun m page count.toNat) (nonzero : ¬ FreeRun m 0 count.toNat) :
    ∃ ptr, (allocPageRange m count flags).1 = some ptr := by
  have effect := (Call.allocPageRange count flags).exec_eq m
  change allocPageRange m count flags = _ at effect
  have many : ¬ count ≤ 1 := UInt32.not_le.mpr several
  rcases searchFirstFreeRange_cases m several with ⟨bit, below, hit, _, found⟩ | ⟨missing, _⟩
  · have positive : bit ≠ 0 := fun zero => nonzero (zero ▸ hit)
    have kept : ¬ (freePageCount m < count ∨ (searchFirstFreeRange m count).1 = 0) := by
      rw [found, pageAddr_eq_zero below]
      exact not_or.mpr ⟨enough, positive⟩
    simp only [Call.range, many, kept, if_false] at effect
    exact ⟨_, by rw [effect]; rfl⟩
  · exact absurd run (missing page searched)

private theorem markUsedFrom_counter {m : State} {bit len : Nat}
    (free : ∀ i, bit ≤ i → i < bit + len → i < m.mapBits ∧ m.used i = false) :
    (markUsedFrom m bit len).memoryMapUsed = m.memoryMapUsed + UInt32.ofNat len := by
  induction len generalizing m bit with
  | zero => exact (UInt32.add_zero _).symm
  | succ len ih =>
    have head := free bit (by omega) (by omega)
    have rest : ∀ i, bit + 1 ≤ i → i < bit + 1 + len →
        i < (markUsed m bit).mapBits ∧ (markUsed m bit).used i = false := by
      intro i low high
      have := free i (by omega) (by omega)
      rw [(markUsed_layout m bit).1.mapBits, used_markUsed]
      simp [this, show i ≠ bit by omega]
    rw [markUsedFrom, ih rest, markUsed_eq, if_pos head]
    show m.memoryMapUsed + 1 + UInt32.ofNat len = _
    rw [UInt32.add_assoc, UInt32.add_comm 1, UInt32.ofNat_add]
    rfl

section Granted
variable {m : State} {count : UInt32} {flags : Flags} {page : Nat}

/-- Marking is complete when the count survives the 32-bit byte length. -/
theorem FreeRange.taken (range : FreeRange m page count.toNat) (small : count.toNat < 2 ^ 20)
    (enough : ¬ freePageCount m < count)
    (handled : (Call.allocPageRange count flags).range m =
      some (UInt64.ofNat page * pageSize, count.toNat % 2 ^ 20)) :
    RangeTaken m (allocPageRange m count flags).2 page count.toNat := by
  have inside := range.inside
  rw [Nat.mod_eq_of_lt small] at handled
  have bits := (Call.allocPageRange count flags).exec_used m
  have effect := (Call.allocPageRange count flags).exec_eq m
  rw [handled] at effect
  simp only [handled, pageAddr_div range.searched] at bits effect
  change allocPageRange m count flags = _ at effect
  refine ⟨fun i low high => by omega, range.free, ?_, ?_⟩
  · intro i
    rw [show (allocPageRange m count flags).2 = ((Call.allocPageRange count flags).exec m).2 from rfl, bits i]
    by_cases covered : page ≤ i ∧ i < page + count.toNat
    · rw [if_pos ⟨covered.1, covered.2, by omega⟩]
      simp [covered, Call.takes]
    · rw [if_neg (fun all => covered ⟨all.1, all.2.1⟩)]
      simp [covered]
  · have counter : (markUsedFrom m page count.toNat).memoryMapUsed = m.memoryMapUsed + UInt32.ofNat count.toNat :=
      markUsedFrom_counter fun i low high => ⟨by omega, range.free i low high⟩
    rw [UInt32.ofNat_toNat] at counter
    have size := ((Call.allocPageRange count flags).exec_layout m).size
    change (allocPageRange m count flags).2.memoryMapSize = _ at size
    have used : (allocPageRange m count flags).2.memoryMapUsed = m.memoryMapUsed + count := by
      rw [effect]
      simpa [markRange, Call.takes] using counter
    have remaining : freePageCount (allocPageRange m count flags).2 = freePageCount m - count := by
      simp only [freePageCount, size, used]
      grind
    have bound : count ≤ freePageCount m := UInt32.not_lt.mp enough
    rw [remaining, UInt32.toNat_sub_of_le _ _ bound]
    have := UInt32.le_iff_toNat_le.mp bound
    omega

private theorem mem_peekReads {word bit : Nat} (read : word ∈ peekReads m bit) : bit ≤ m.mapBits ∧ word = bit / 32 := by
  unfold peekReads at read
  split at read
  · simp at read
  · exact ⟨by omega, by simpa using read⟩

private theorem word_inside {bit : Nat} (inside : bit < m.mapBits) : bit / 32 * 4 < m.memoryMapSize.toNat := by
  have bits : m.mapBits ≤ m.memoryMapSize.toNat * 8 := by
    simp only [State.mapBits, UInt32.toNat_mul]
    exact Nat.mod_le _ _
  omega

private theorem mem_markReads {word bit len : Nat} (read : word ∈ markReads m bit len) :
    word * 4 < m.memoryMapSize.toNat := by
  induction len generalizing bit with
  | zero => simp [markReads] at read
  | succ len ih =>
    rcases List.mem_append.mp read with here | later
    · split at here
      next inside => exact (mem_peekReads here).2 ▸ word_inside inside
      next => simp at here
    · exact ih later

private theorem mem_rangeTest_reads {word bit num : Nat} (positive : 0 < num) (read : word ∈ (rangeTest m num bit).2) :
    ∃ n < num, bit + n ≤ m.mapBits ∧ word = (bit + n) / 32 ∧ ∀ k < n, peekUsed m (bit + k) = false := by
  unfold rangeTest at read
  split at read
  next free =>
    rcases List.mem_append.mp read with here | later
    · exact ⟨0, positive, (mem_peekReads here).1, (mem_peekReads here).2, nofun⟩
    · obtain ⟨n, one, below, before, inside⟩ := followingFree_reads later
      refine ⟨n, below, (mem_peekReads inside).1, (mem_peekReads inside).2, ?_⟩
      intro k less
      rcases Nat.eq_zero_or_pos k with rfl | more
      · simpa using free
      · exact before k more less
  next => exact ⟨0, positive, (mem_peekReads read).1, (mem_peekReads read).2, nofun⟩

private theorem FreeRange.reads_inside (range : FreeRange m page count.toNat) (several : 1 < count)
    {word : Nat} (read : word ∈ allocPageRangeReads m count) : word * 4 < m.memoryMapSize.toNat := by
  have inside := range.inside
  have positive : 0 < count.toNat := by
    have := UInt32.lt_iff_toNat_lt.mp several
    simp at this
    omega
  have searching : word ∈ (searchFirstFreeRange m count).2 → word * 4 < m.memoryMapSize.toNat := by
    intro read
    have passes := rangeTest_iff m count.toNat positive
    have search : searchFirstFreeRange m count = searchWords m (rangeTest m count.toNat) := by
      simp only [searchFirstFreeRange, UInt32.not_le.mpr several, if_false]
      rfl
    rw [search] at read
    rcases searchWords_reads (fun bit hit => ((passes bit).mp hit).head positive) read with walked | probed
    · have := mapWords_eq m
      omega
    · obtain ⟨bit, _, misses, loaded⟩ := probed
      obtain ⟨n, below, _, rfl, _⟩ := mem_rangeTest_reads positive loaded
      have notLater : bit ≤ page := by
        by_contra later
        have := misses page (by omega)
        rw [(passes page).mpr range.run] at this
        cases this
      exact word_inside (by omega)
  simp only [allocPageRangeReads] at read
  split at read
  · simp at read
  · split at read
    · exact searching read
    · rcases List.mem_append.mp read with here | later
      · exact searching here
      · exact mem_markReads later

private theorem last_unmarked (searched : page < m.searched) (range : FreeRange m page count.toNat)
    (wrapped : 2 ^ 20 ≤ count.toNat)
    (handled : (Call.allocPageRange count flags).range m = some (UInt64.ofNat page * pageSize, count.toNat % 2 ^ 20)) :
    (allocPageRange m count flags).2.used (page + count.toNat - 1) = false := by
  have kept := (Call.allocPageRange count flags).exec_used m (page + count.toNat - 1)
  have reduced := Nat.mod_lt count.toNat (by decide : 0 < 2 ^ 20)
  simp only [handled, pageAddr_div searched] at kept
  rw [if_neg (by omega)] at kept
  exact kept.trans (range.free (page + count.toNat - 1) (by omega) (by omega))

/-- A request that is not safe is granted, and what is granted breaks the contract. -/
theorem RangeContract.safe (contract : RangeContract m count flags) (several : 1 < count) (positive : 0 < count.toNat) :
    RangeSafe m count := by
  by_contra unsafe'
  simp only [RangeSafe, not_or, not_and_or, not_not, not_lt] at unsafe'
  obtain ⟨enough, zero, large, candidate⟩ := unsafe'
  have noZero : ¬ FreeRun m 0 count.toNat := by
    intro run
    have free := fun i low high => ((freeRun_iff m 0 count.toNat).mp run i low high).2
    rcases candidate with ⟨page, range⟩ | ⟨page, overrun⟩
    · have := range.inside
      have := range.searched
      exact zero ⟨by omega, by omega, free⟩
    · have := overrun.beyond
      have := overrun.searched
      have := overrun.positive
      exact zero ⟨by omega, by omega, free⟩
  obtain ⟨start, below, run⟩ : ∃ page < m.searched, FreeRun m page count.toNat := by
    rcases candidate with ⟨page, range⟩ | ⟨page, overrun⟩
    · exact ⟨page, range.searched, range.run⟩
    · exact ⟨page, overrun.searched, overrun.run⟩
  obtain ⟨ptr, granted⟩ := allocPageRange_succeeds several flags enough below run noZero
  obtain ⟨page, nonzero, searched, run, _, _, rfl, handled⟩ := allocPageRange_some several granted
  have bound := pageAddr_toNat searched
  have small : page < 2 ^ 52 := by
    have := (UInt64.ofNat page * pageSize).toNat_lt
    omega
  have taken := (contract page small granted).1
  rcases run.cases positive searched nonzero with range | overrun
  · have wrapped : 2 ^ 20 ≤ count.toNat := large.resolve_left fun none' => none' ⟨page, range⟩
    have marked := taken.taken (page + count.toNat - 1)
    rw [last_unmarked searched range wrapped handled, range.free _ (by omega) (by omega), Bool.false_or,
      decide_eq_true (by omega)] at marked
    cases marked
  · have := overrun.beyond
    have := taken.inside m.mapBits (by omega) (by omega)
    omega

private theorem RangeSafe.contract (safe : RangeSafe m count) (several : 1 < count) (positive : 0 < count.toNat) :
    RangeContract m count flags := by
  intro page small granted
  obtain ⟨found, nonzero, searched, run, first, enough, pointer, handled⟩ := allocPageRange_some several granted
  obtain rfl := pageAddr_inj small searched pointer
  have complete (range : FreeRange m page count.toNat) (short : count.toNat < 2 ^ 20) :
      RangeTaken m (allocPageRange m count flags).2 page count.toNat ∧
        ∀ word ∈ allocPageRangeReads m count, word * 4 < m.memoryMapSize.toNat :=
    ⟨range.taken short enough handled, fun word read => range.reads_inside several read⟩
  rcases safe with short | zero | ⟨⟨start, fits⟩, short⟩ | ⟨noRange, noOverrun⟩
  · exact absurd short enough
  · exact absurd zero.run (first 0 nonzero)
  · rcases run.cases positive searched nonzero with range | overrun
    · exact complete range short
    · have := fits.inside
      have := overrun.beyond
      exact absurd fits.run (first start (by omega))
  · rcases run.cases positive searched nonzero with range | overrun
    · exact absurd ⟨page, range⟩ noRange
    · exact absurd ⟨page, overrun⟩ noOverrun

end Granted

/-- Contiguous allocation of two pages or more keeps its contract exactly when the
request is refused for want of free pages, page 0 starts a fitting run, a fitting
run exists and the count is below 2^20, or none exists and no run ends one page
behind the map. -/
theorem range_contract_iff (m : State) (count : UInt32) (several : 1 < count) (flags : Flags) :
    RangeContract m count flags ↔ RangeSafe m count := by
  have positive : 0 < count.toNat := by
    have := UInt32.lt_iff_toNat_lt.mp several
    simp at this
    omega
  exact ⟨fun contract => contract.safe several positive, fun safe => safe.contract several positive⟩

theorem range_contract_iff_witness :
    RangeContract (setMemoryMap [0xfffffff1, 0xffffffff] 61) 2 kActive ↔
      RangeSafe (setMemoryMap [0xfffffff1, 0xffffffff] 61) 2 :=
  range_contract_iff _ 2 (by decide) kActive

/-- Pages 1 and 63 of a 64-page map are free: a request for two pages is granted
page 63 and the page behind the map. -/
theorem range_overrun : ¬ RangeContract (setMemoryMap [0xfffffffd, 0x7fffffff] 62) 2 kActive := by
  intro contract
  have taken := (contract 63 (by decide) (by decide +kernel)).1
  exact absurd (taken.inside 64 (by decide) (by decide)) (by decide)

end Hotarubi.Memory.Physmm
