import Hotarubi.Proofs.PhysmmBits

/-! The word-skipping searches return the lowest page that passes their test.
Skipping full words loses nothing, since every bit in them is set. -/

namespace Hotarubi.Memory.Physmm
open Base Base.Bitmap

/-- The first page number no search starts from: only whole words are visited. -/
def State.searched (m : State) : Nat := 32 * m.mapWords

theorem mapWords_eq (m : State) : m.mapWords = m.memoryMapSize.toNat / 4 := by
  simp [State.mapWords]

private theorem word_not_full {m : State} {bit : Nat} (free : peekUsed m bit = false) :
    m.memoryMapData (bit / 32) ≠ 0xffffffff#32 := by
  intro full
  have all := (word_full_iff (by decide : 0 < 32) m.memoryMapData (bit / 32)).mp (by simpa using full)
    (bit % 32) (Nat.mod_lt _ (by decide))
  have same : bit / 32 * 32 + bit % 32 = bit := by omega
  rw [same] at all
  rw [peekUsed_eq] at free
  simp [State.used, all] at free

section Search
variable {m : State} {test : Nat → Bool × List Nat}
  (skips : ∀ bit, (test bit).1 = true → peekUsed m bit = false)
include skips

private theorem scanWord_none {i bit : Nat} (missed : (scanWord m test i).1 = none) (inside : bit / 32 = i) :
    (test bit).1 = false := by
  by_contra hit
  have hit : (test bit).1 = true := by simpa using hit
  subst inside
  have open' := word_not_full (skips bit hit)
  simp only [scanWord, bne_iff_ne, ne_eq, open', not_false_eq_true, if_true, scan_fst] at missed
  have := List.findSome?_eq_none_iff.mp missed (bit % 32) (by simp; omega)
  rw [show bit / 32 * 32 + bit % 32 = bit by omega] at this
  simp [hit] at this

omit skips in
private theorem word_missed {i k : Nat} (before : ∀ j ∈ List.range 32, j < k →
    (if (test (i * 32 + j)).1 = true then some (i * 32 + j) else none) = none) :
    ∀ earlier < i * 32 + k, earlier / 32 = i → (test earlier).1 = false := by
  intro earlier below inside
  have missed := before (earlier % 32) (by simp; omega) (by omega)
  rw [show i * 32 + earlier % 32 = earlier by omega] at missed
  by_contra hit
  simp [hit] at missed

/-- Those before a page fail where the words before its word and the pages before it in
its word do. -/
private theorem pages_missed {i bit : Nat} (bound : i < m.mapWords) (located : bit / 32 = i)
    (before : ∀ j ∈ List.range m.mapWords, j < i → (scanWord m test j).1 = none)
    (within : ∀ earlier < bit, earlier / 32 = i → (test earlier).1 = false) : ∀ earlier < bit, (test earlier).1 =
      false := by
  intro a below
  by_cases same : a / 32 = i
  · exact within a below same
  · exact scanWord_none skips (before (a / 32) (by simp; omega) (by omega)) rfl

omit skips in
private theorem scanWord_some {i bit : Nat} (found : (scanWord m test i).1 = some bit) :
    bit / 32 = i ∧ (test bit).1 = true ∧ ∀ earlier < bit, earlier / 32 = i → (test earlier).1 = false := by
  simp only [scanWord, apply_ite Prod.fst, scan_fst] at found
  split at found
  next =>
    obtain ⟨k, member, here, before⟩ := findSome?_sorted List.pairwise_lt_range found
    have low := List.mem_range.mp member
    by_cases hit : (test (i * 32 + k)).1 = true
    · simp only [hit, if_true, Option.some.injEq] at here
      subst here
      exact ⟨by omega, hit, word_missed before⟩
    · simp [hit] at here
  next => simp at found

omit skips in
private theorem scanWord_reads {i word : Nat} (read : word ∈ (scanWord m test i).2) :
    word = i ∨ ∃ bit, bit / 32 = i ∧ (∀ earlier < bit, earlier / 32 = i → (test earlier).1 = false) ∧
      word ∈ (test bit).2 := by
  unfold scanWord at read
  split at read
  next =>
    rcases List.mem_cons.mp read with same | read
    · exact .inl same
    · obtain ⟨k, member, before, inside⟩ := mem_scan_snd_sorted List.pairwise_lt_range read
      have low := List.mem_range.mp member
      exact .inr ⟨i * 32 + k, by omega, word_missed before, inside⟩
  next => exact .inl (by simpa using read)

private theorem searchWords_cases :
    (∃ bit < m.searched, (test bit).1 = true ∧ (∀ earlier < bit, (test earlier).1 = false) ∧
      (searchWords m test).1 = UInt64.ofNat bit * pageSize) ∨
    ((∀ bit < m.searched, (test bit).1 = false) ∧ (searchWords m test).1 = 0) := by
  simp only [searchWords, scan_fst]
  split
  next bit found =>
    obtain ⟨i, member, here, before⟩ := findSome?_sorted List.pairwise_lt_range found
    obtain ⟨inside, hit, earlier⟩ := scanWord_some here
    have bound := List.mem_range.mp member
    exact .inl ⟨bit, by unfold State.searched; omega, hit, pages_missed skips bound inside before earlier, rfl⟩
  next absent =>
    refine .inr ⟨?_, rfl⟩
    intro bit below
    unfold State.searched at below
    exact scanWord_none skips (List.findSome?_eq_none_iff.mp absent (bit / 32) (by simp; omega)) rfl

/-- The words a search loads: those it walks over, and those its test loads at a
page all of whose predecessors failed. -/
theorem searchWords_reads {word : Nat} (read : word ∈ (searchWords m test).2) :
    word < m.mapWords ∨
      ∃ bit < m.searched, (∀ earlier < bit, (test earlier).1 = false) ∧ word ∈ (test bit).2 := by
  obtain ⟨i, member, before, inside⟩ := mem_scan_snd_sorted List.pairwise_lt_range read
  have bound := List.mem_range.mp member
  rcases scanWord_reads inside with rfl | ⟨bit, located, earlier, inside⟩
  · exact .inl bound
  · exact .inr ⟨bit, by unfold State.searched; omega, pages_missed skips bound located before earlier, inside⟩

end Search

theorem pageAddr_toNat {m : State} {bit : Nat} (inside : bit < m.searched) :
    (UInt64.ofNat bit * pageSize).toNat = bit * 4096 := by
  have bound := m.memoryMapSize.toNat_lt
  have words := mapWords_eq m
  unfold State.searched at inside
  rw [UInt64.toNat_mul, UInt64.toNat_ofNat', pageSize_toNat]
  omega

theorem pageAddr_div {m : State} {bit : Nat} (inside : bit < m.searched) :
    (UInt64.ofNat bit * pageSize / pageSize).toNat = bit := by
  rw [UInt64.toNat_div, pageAddr_toNat inside, pageSize_toNat]
  omega

theorem pageAddr_eq_zero {m : State} {bit : Nat} (inside : bit < m.searched) :
    UInt64.ofNat bit * pageSize = 0 ↔ bit = 0 := by
  rw [← UInt64.toNat_inj, pageAddr_toNat inside, UInt64.toNat_zero]
  omega

/-- Page numbers below `searched` lie inside the map unless the 32-bit product
of its size wraps. -/
theorem searched_le {m : State} (fits : m.memoryMapSize.toNat * 8 < 2 ^ 32) :
    m.searched ≤ m.mapBits := by
  have words := mapWords_eq m
  have bits : m.mapBits = m.memoryMapSize.toNat * 8 := by
    simp only [State.mapBits, UInt32.toNat_mul]
    exact Nat.mod_eq_of_lt fits
  unfold State.searched
  omega

theorem searchFirstFree_cases (m : State) :
    (∃ bit < m.searched, peekUsed m bit = false ∧ (∀ earlier < bit, peekUsed m earlier = true) ∧
      (searchFirstFree m).1 = UInt64.ofNat bit * pageSize) ∨
    ((∀ bit < m.searched, peekUsed m bit = true) ∧ (searchFirstFree m).1 = 0) := by
  have cases := @searchWords_cases m (fun bit => (peekUsed m bit == false, peekReads m bit)) (by simp)
  simpa [searchFirstFree] using cases

private theorem followingFree_iff (m : State) (bit num : Nat) :
    (followingFree m bit num).1 = true ↔ ∀ n, 1 ≤ n → n < num → peekUsed m (bit + n) = false := by
  simp only [followingFree, scan_fst, Option.isNone_iff_eq_none, List.findSome?_eq_none_iff,
    List.mem_range'_1, beq_true]
  constructor
  · intro all n positive below
    have := all n (by omega)
    simpa using this
  · intro all n inside
    simp [all n inside.1 (by omega)]

theorem followingFree_reads {m : State} {bit num word : Nat} (read : word ∈ (followingFree m bit num).2) :
    ∃ n, 1 ≤ n ∧ n < num ∧ (∀ k, 1 ≤ k → k < n → peekUsed m (bit + k) = false) ∧
      word ∈ peekReads m (bit + n) := by
  obtain ⟨n, member, before, inside⟩ := mem_scan_snd_sorted List.pairwise_lt_range' read
  have bounds := List.mem_range'_1.mp member
  refine ⟨n, bounds.1, by omega, ?_, inside⟩
  intro k positive below
  have := before k (List.mem_range'_1.mpr (by omega)) below
  simpa using this

/-- A run of pages that all read as free. The page right behind the map takes
part in it, since `peekUsed` loads its bit. -/
def FreeRun (m : State) (bit num : Nat) : Prop := ∀ n < num, peekUsed m (bit + n) = false

theorem FreeRun.head {m : State} {bit num : Nat} (run : FreeRun m bit num) (positive : 0 < num) :
    peekUsed m bit = false := run 0 positive

section RangeSearch
variable (m : State) (num : Nat)

/-- The test `_search_first_free_range` makes at each candidate. -/
def rangeTest (bit : Nat) : Bool × List Nat :=
  if peekUsed m bit == false then
    let rest := followingFree m bit num
    (rest.1, peekReads m bit ++ rest.2)
  else (false, peekReads m bit)

theorem rangeTest_iff (positive : 0 < num) (bit : Nat) :
    (rangeTest m num bit).1 = true ↔ FreeRun m bit num := by
  unfold rangeTest FreeRun
  constructor
  · intro passed n below
    split at passed
    next free =>
      rcases Nat.eq_zero_or_pos n with rfl | later
      · simpa using free
      · exact (followingFree_iff m bit num).mp passed n later below
    next => simp at passed
  · intro run
    have first := run 0 positive
    simp only [Nat.add_zero] at first
    simp only [first, beq_self_eq_true, if_true]
    exact (followingFree_iff m bit num).mpr fun n _ below => run n below

end RangeSearch

theorem searchFirstFreeRange_cases (m : State) {num : UInt32} (several : 1 < num) :
    (∃ bit < m.searched, FreeRun m bit num.toNat ∧ (∀ earlier < bit, ¬ FreeRun m earlier num.toNat) ∧
      (searchFirstFreeRange m num).1 = UInt64.ofNat bit * pageSize) ∨
    ((∀ bit < m.searched, ¬ FreeRun m bit num.toNat) ∧ (searchFirstFreeRange m num).1 = 0) := by
  have positive : 0 < num.toNat := by
    have := UInt32.lt_iff_toNat_lt.mp several
    simp at this
    omega
  have passes := rangeTest_iff m num.toNat positive
  have search : searchFirstFreeRange m num = searchWords m (rangeTest m num.toNat) := by
    simp only [searchFirstFreeRange, UInt32.not_le.mpr several, if_false]
    rfl
  simp only [search, ← passes, Bool.not_eq_true]
  exact searchWords_cases fun bit passed => ((passes bit).mp passed).head positive

end Hotarubi.Memory.Physmm
