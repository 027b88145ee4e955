import Hotarubi.Proofs.PhysmmSearch

/-! Every call either leaves the state alone or handles one range of pages: it
marks them in the bitmap and walks their metadata. The invariants below need no
more than this description. -/

namespace Hotarubi.Memory.Physmm
open Base Base.Bitmap

theorem byteLength_toNat (count : UInt32) : (byteLength count).toNat = count.toNat % 2 ^ 20 * 4096 := by
  simp only [byteLength, UInt32.toNat_toUInt64, UInt32.toNat_mul, show (0x1000 : UInt32).toNat = 4096 from rfl]
  omega

private theorem byteLength_div (count : UInt32) : (byteLength count / pageSize).toNat = count.toNat % 2 ^ 20 := by
  rw [UInt64.toNat_div, byteLength_toNat, pageSize_toNat, Nat.mul_div_cancel _ (by decide)]

namespace Call

def takes : Call → Bool
  | .allocPage _ | .allocPageRange _ _ => true
  | .freePage _ | .freePageRange _ _ => false

/-- The metadata entry a call leaves behind. -/
def entry (m : State) : Call → Nat → PageMap
  | .allocPage flags | .allocPageRange _ flags => m.flagged flags
  | .freePage _ | .freePageRange _ _ => fun _ => unusedPage

/-- The range a call handles: its address and the number of pages the bitmap loop
visits. The byte lengths are 32-bit products, so counts lose their high bits. -/
def range (m : State) : Call → Option (PhysAddr × Nat)
  | .allocPage _ => single
  | .allocPageRange count _ =>
    if count ≤ 1 then single
    else if freePageCount m < count ∨ (searchFirstFreeRange m count).1 = 0 then none
    else some ((searchFirstFreeRange m count).1, count.toNat % 2 ^ 20)
  | .freePage page =>
    if dropOffset m page < pageSize ∨ boundWeight (dropOffset m page) > (m.memoryMapSize * 8).toUInt64 then none
    else some (dropOffset m page, 1)
  | .freePageRange page count =>
    let clamped := clampCount m (dropOffset m page) (if count < 1 then 1 else count).toNat
    if dropOffset m page < pageSize ∨ clamped = 0 then none
    else some (dropOffset m page, clamped.toNat % 2 ^ 20)
where
  single : Option (PhysAddr × Nat) :=
    if freePageCount m = 0 ∨ (searchFirstFree m).1 = 0 then none else some ((searchFirstFree m).1, 1)

end Call

def markRange (m : State) (takes : Bool) (page len : Nat) : State :=
  if takes then markUsedFrom m page len else markFreeFrom m page len

theorem markRange_layout (m : State) (takes : Bool) (page len : Nat) :
    SameLayout m (markRange m takes page len) ∧ (markRange m takes page len).pageMaps = m.pageMaps := by
  unfold markRange
  split
  · exact markUsedFrom_layout m page len
  · exact markFreeFrom_layout m page len

private theorem used_markRange (m : State) (takes : Bool) (page len i : Nat) :
    (markRange m takes page len).used i =
      if page ≤ i ∧ i < page + len ∧ i < m.mapBits then takes else m.used i := by
  unfold markRange
  cases takes with
  | true =>
    rw [if_pos rfl, used_markUsedFrom]
    split <;> rename_i inside <;> simp [inside]
  | false =>
    rw [if_neg (by simp), used_markFreeFrom]
    split <;> rename_i inside <;> simp [-not_and, inside]

private theorem markRange_accounted {m : State} (balanced : m.Accounted) (takes : Bool) (page len : Nat) :
    (markRange m takes page len).Accounted := by
  unfold markRange
  split
  · exact markUsedFrom_accounted balanced page len
  · exact markFreeFrom_accounted balanced page len

theorem flagged_congr {m after : State} (same : SameLayout m after) (flags : Flags) :
    after.flagged flags = m.flagged flags := by
  funext i
  simp only [State.flagged, State.linkAddr, same.array]

private theorem allocPage_eq (m : State) (flags : Flags) :
    allocPage m flags =
      if freePageCount m = 0 ∨ (searchFirstFree m).1 = 0 then (none, m)
      else
        let addr := (searchFirstFree m).1
        (some (addr + m.memoryMapBase),
          setPages (markRange m true (addr / pageSize).toNat 1) addr (m.flagged flags) 1) := by
  unfold allocPage
  by_cases empty : freePageCount m = 0
  · simp only [empty, true_or, if_true]
  · by_cases missing : (searchFirstFree m).1 = 0
    · simp only [missing, or_true, if_true, ite_self]
    · have same := (markRange_layout m true ((searchFirstFree m).1 / pageSize).toNat 1).1
      simp only [empty, missing, if_false, or_self]
      rw [← flagged_congr same]
      rfl

private theorem allocPageRange_eq (m : State) {count : UInt32} (several : ¬ count ≤ 1) (flags : Flags) :
    allocPageRange m count flags =
      if freePageCount m < count ∨ (searchFirstFreeRange m count).1 = 0 then (none, m)
      else
        let addr := (searchFirstFreeRange m count).1
        (some (addr + m.memoryMapBase),
          setPages (markRange m true (addr / pageSize).toNat (count.toNat % 2 ^ 20)) addr (m.flagged flags)
            (count.toNat % 2 ^ 20)) := by
  unfold allocPageRange
  rw [if_neg several]
  by_cases short : freePageCount m < count
  · simp only [short, true_or, if_true]
  · by_cases missing : (searchFirstFreeRange m count).1 = 0
    · simp only [missing, or_true, if_true, ite_self]
    · have same := (markRange_layout m true
        ((searchFirstFreeRange m count).1 / pageSize).toNat (count.toNat % 2 ^ 20)).1
      simp only [short, missing, if_false, or_self, flagPageRange, markUsedRange, byteLength_div]
      rw [← flagged_congr same]
      rfl

private theorem freePage_eq (m : State) (page : UInt64) :
    freePage m page =
      if dropOffset m page < pageSize ∨
          boundWeight (dropOffset m page) > (m.memoryMapSize * 8).toUInt64 then m
      else
        let addr := dropOffset m page
        setPages (markRange m false (addr / pageSize).toNat 1) addr (fun _ => unusedPage) 1 := by
  unfold freePage
  by_cases low : dropOffset m page < pageSize
  · simp only [low, true_or, if_true]
  · by_cases beyond : boundWeight (dropOffset m page) > (m.memoryMapSize * 8).toUInt64
    · simp only [beyond, or_true, if_true, ite_self]
    · simp only [low, beyond, if_false, or_self]
      rfl

private theorem freePageRange_eq (m : State) (page : UInt64) (count : UInt32) :
    freePageRange m page count =
      let clamped := clampCount m (dropOffset m page) (if count < 1 then 1 else count).toNat
      if dropOffset m page < pageSize ∨ clamped = 0 then m
      else
        let addr := dropOffset m page
        setPages (markRange m false (addr / pageSize).toNat (clamped.toNat % 2 ^ 20)) addr
          (fun _ => unusedPage) (clamped.toNat % 2 ^ 20) := by
  unfold freePageRange
  by_cases low : dropOffset m page < pageSize
  · simp only [low, true_or, if_true]
  · by_cases empty : clampCount m (dropOffset m page) (if count < 1 then 1 else count).toNat = 0
    · simp only [empty, or_true, if_true, ne_eq, not_true_eq_false, if_false, ite_self]
    · simp only [low, empty, if_false, or_self, ne_eq, not_false_eq_true, if_true, resetPageRange,
        markFreeRange, byteLength_div]
      rfl

/-- What a call returns and does to the state. -/
theorem Call.exec_eq (call : Call) (m : State) :
    call.exec m = match call.range m with
      | none => (none, m)
      | some (addr, len) =>
        (if call.takes then some (addr + m.memoryMapBase) else none,
          setPages (markRange m call.takes (addr / pageSize).toNat len) addr (call.entry m) len) := by
  cases call with
  | allocPage flags =>
    simp only [exec, range, range.single, allocPage_eq]
    split <;> rfl
  | allocPageRange count flags =>
    simp only [exec, range]
    by_cases few : count ≤ 1
    · simp only [Physmm.allocPageRange, few, if_true, range.single, allocPage_eq]
      split <;> rfl
    · simp only [allocPageRange_eq m few, few, if_false]
      split <;> rfl
  | freePage page =>
    simp only [exec, range, freePage_eq]
    split <;> rfl
  | freePageRange page count =>
    simp only [exec, range, freePageRange_eq]
    generalize clampCount m (dropOffset m page) _ = clamped
    split <;> rfl

theorem clampCount_le (m : State) (addr : PhysAddr) (count : Nat) (small : count < 2 ^ 32) :
    (clampCount m addr count).toNat ≤ count := by
  induction count with
  | zero => simp [clampCount]
  | succ count ih =>
    unfold clampCount
    split
    · rw [UInt32.toNat_ofNat_of_lt' small]
    · have := ih (by omega)
      omega

theorem clampCount_spec (m : State) (addr : PhysAddr) (count : Nat) : clampCount m addr count = 0 ∨
    boundWeight (addr + byteLength (clampCount m addr count)) < (m.memoryMapSize * 8).toUInt64 := by
  induction count with
  | zero => exact .inl rfl
  | succ count ih =>
    rw [clampCount]
    split
    next inside => exact .inr inside
    next => exact ih

theorem requested_eq (count : UInt32) : (if count < 1 then 1 else count).toNat = max 1 count.toNat := by
  simp only [UInt32.lt_iff_toNat_lt, apply_ite UInt32.toNat, UInt32.toNat_one]
  split <;> omega

/-- The number of pages a call names. -/
def Call.pages : Call → Nat
  | .allocPage _ | .freePage _ => 1
  | .allocPageRange count _ | .freePageRange _ count => max 1 count.toNat

theorem freeRun_one {m : State} {bit : Nat} : FreeRun m bit 1 ↔ peekUsed m bit = false := by
  refine ⟨fun run => run.head (by decide), fun free n below => ?_⟩
  rwa [show n = 0 by omega]

section Ranges

variable {m : State} {call : Call} {addr : PhysAddr} {len : Nat}

/-- An allocation takes the first run of free pages that is long enough. -/
def Takes (m : State) (num : Nat) (addr : PhysAddr) (len : Nat) : Prop :=
  len = num % 2 ^ 20 ∧ num ≤ (freePageCount m).toNat ∧ ∃ bit, addr = UInt64.ofNat bit * pageSize ∧ 0 < bit ∧
    bit < m.searched ∧ FreeRun m bit num ∧ ∀ earlier < bit, ¬ FreeRun m earlier num

private theorem single_takes (ranged : Call.range.single m = some (addr, len)) : Takes m 1 addr len := by
  unfold Call.range.single at ranged
  split at ranged
  next => cases ranged
  next granted =>
    cases ranged
    obtain ⟨some', found⟩ := not_or.mp granted
    have enough : (freePageCount m).toNat ≠ 0 := fun zero => some' (UInt32.toNat_inj.mp zero)
    rcases searchFirstFree_cases m with ⟨bit, searched, free, earlier, same⟩ | ⟨_, missing⟩
    · rw [same, pageAddr_eq_zero searched] at found
      refine ⟨rfl, by omega, bit, same, by omega, searched, freeRun_one.mpr free, fun i before run => ?_⟩
      rw [freeRun_one, earlier i before] at run
      cases run
    · exact absurd missing found

theorem Call.range_alloc (takes : call.takes = true) (ranged : call.range m = some (addr, len)) :
    Takes m call.pages addr len := by
  cases call with
  | freePage page => cases takes
  | freePageRange page count => cases takes
  | allocPage flags => exact single_takes ranged
  | allocPageRange count flags =>
    simp only [range, UInt32.le_iff_toNat_le, UInt32.toNat_one] at ranged
    rw [pages]
    split at ranged
    next few =>
      rw [Nat.max_eq_left few]
      exact single_takes ranged
    next several =>
      rw [Nat.max_eq_right (by omega)]
      split at ranged
      next => cases ranged
      next granted =>
        cases ranged
        obtain ⟨enough, found⟩ := not_or.mp granted
        rw [UInt32.not_lt, UInt32.le_iff_toNat_le] at enough
        have many : 1 < count := by
          rw [UInt32.lt_iff_toNat_lt, UInt32.toNat_one]
          omega
        rcases searchFirstFreeRange_cases m many with ⟨bit, searched, run, first, same⟩ | ⟨_, missing⟩
        · rw [same, pageAddr_eq_zero searched] at found
          exact ⟨rfl, enough, bit, same, by omega, searched, run, first⟩
        · exact absurd missing found

private theorem firstRun_unique {num bit other : Nat} (run : FreeRun m bit num)
    (first : ∀ earlier < bit, ¬ FreeRun m earlier num)
    (run' : FreeRun m other num) (first' : ∀ earlier < other, ¬ FreeRun m earlier num) : bit = other := by
  rcases Nat.lt_trichotomy bit other with before | same | behind
  · exact absurd run (first' bit before)
  · exact same
  · exact absurd run' (first other behind)

private theorem single_of_takes (taken : Takes m 1 addr len) : Call.range.single m = some (addr, len) := by
  obtain ⟨rfl, enough, bit, rfl, positive, searched, run, first⟩ := taken
  have free := freeRun_one.mp run
  have some' : freePageCount m ≠ 0 := by
    intro zero
    rw [zero] at enough
    exact Nat.not_succ_le_zero 0 enough
  rcases searchFirstFree_cases m with ⟨other, _, free', earlier, same⟩ | ⟨used, _⟩
  · have first' : ∀ i < other, ¬ FreeRun m i 1 := by
      intro i before run'
      rw [freeRun_one, earlier i before] at run'
      cases run'
    obtain rfl := firstRun_unique run first (freeRun_one.mpr free') first'
    have found : (searchFirstFree m).1 ≠ 0 := by
      rw [same, ne_eq, pageAddr_eq_zero searched]
      omega
    rw [Call.range.single, if_neg (not_or.mpr ⟨some', found⟩), same]
    rfl
  · rw [used bit searched] at free
    cases free

/-- An allocation takes pages exactly when there is such a run. -/
theorem Call.range_of_takes (takes : call.takes = true) (taken : Takes m call.pages addr len) :
    call.range m = some (addr, len) := by
  cases call with
  | freePage page => cases takes
  | freePageRange page count => cases takes
  | allocPage flags => exact single_of_takes taken
  | allocPageRange count flags =>
    rw [pages] at taken
    simp only [range, UInt32.le_iff_toNat_le, UInt32.toNat_one]
    split
    next few =>
      rw [Nat.max_eq_left few] at taken
      exact single_of_takes taken
    next several =>
      rw [Nat.max_eq_right (by omega)] at taken
      obtain ⟨rfl, enough, bit, rfl, positive, searched, run, first⟩ := taken
      have many : 1 < count := by
        rw [UInt32.lt_iff_toNat_lt, UInt32.toNat_one]
        omega
      have granted : ¬ freePageCount m < count := by
        rw [UInt32.lt_iff_toNat_lt]
        omega
      rcases searchFirstFreeRange_cases m many with ⟨other, _, run', first', same⟩ | ⟨none, _⟩
      · obtain rfl := firstRun_unique run first run' first'
        have found : (searchFirstFreeRange m count).1 ≠ 0 := by
          rw [same, ne_eq, pageAddr_eq_zero searched]
          omega
        rw [if_neg (not_or.mpr ⟨granted, found⟩), same]
      · exact absurd run (none bit searched)

theorem Call.range_freePage {page : UInt64} (ranged : (Call.freePage page).range m = some (addr, len)) :
    addr = dropOffset m page ∧ len = 1 ∧ ¬ dropOffset m page < pageSize ∧
      boundWeight (dropOffset m page) ≤ (m.memoryMapSize * 8).toUInt64 := by
  simp only [range] at ranged
  split at ranged
  next => cases ranged
  next kept =>
    cases ranged
    obtain ⟨high, within⟩ := not_or.mp kept
    exact ⟨rfl, rfl, high, UInt64.not_lt.mp within⟩

theorem Call.range_freePageRange {page : UInt64} {count : UInt32}
    (ranged : (Call.freePageRange page count).range m = some (addr, len)) :
    addr = dropOffset m page ∧ len = (clampCount m (dropOffset m page) (max 1 count.toNat)).toNat % 2 ^ 20 ∧
      ¬ dropOffset m page < pageSize ∧ clampCount m (dropOffset m page) (max 1 count.toNat) ≠ 0 := by
  simp only [range, requested_eq] at ranged
  split at ranged
  next => cases ranged
  next kept =>
    cases ranged
    obtain ⟨high, some'⟩ := not_or.mp kept
    exact ⟨rfl, rfl, high, some'⟩

/-- A free handles pages its caller named, from the pointer on. -/
theorem Call.freePageRange_length {page : UInt64} {count : UInt32}
    (ranged : (Call.freePageRange page count).range m = some (addr, len)) : len ≤ max 1 count.toNat := by
  have few := count.toNat_lt
  have clamped := clampCount_le m (dropOffset m page) (max 1 count.toNat) (by omega)
  rw [(range_freePageRange ranged).2.1]
  exact Nat.le_trans (Nat.mod_le _ _) clamped

/-- What is handed out is the range that was taken. -/
theorem Call.granted (call : Call) {ptr : UInt64} (answer : (call.exec m).1 = some ptr) :
    ∃ addr len, call.range m = some (addr, len) ∧ call.takes = true ∧ ptr = addr + m.memoryMapBase := by
  rw [exec_eq] at answer
  split at answer
  next => cases answer
  next addr len ranged =>
    split at answer
    next takes => exact ⟨addr, len, ranged, takes, (Option.some.inj answer).symm⟩
    next => cases answer

end Ranges

section Effects
variable (call : Call) (m : State)

theorem Call.exec_layout : SameLayout m (call.exec m).2 := by
  rw [exec_eq]
  split
  next => exact .refl m
  next => exact (markRange_layout m _ _ _).1.trans (setPages_layout ..)

theorem Call.exec_used (i : Nat) :
    (call.exec m).2.used i = match call.range m with
      | none => m.used i
      | some (addr, len) =>
        if (addr / pageSize).toNat ≤ i ∧ i < (addr / pageSize).toNat + len ∧ i < m.mapBits then call.takes
        else m.used i := by
  rw [exec_eq]
  split
  next => rfl
  next => simp only [setPages_used, used_markRange]

theorem Call.exec_taken {i : Nat} (taking : call.takes = true) (used : m.used i = true) :
    (call.exec m).2.used i = true := by
  rw [exec_used]
  split
  next => exact used
  next =>
    split
    next => exact taking
    next => exact used

theorem Call.exec_accounted (balanced : m.Accounted) : (call.exec m).2.Accounted := by
  rw [exec_eq]
  split
  next => exact balanced
  next => exact setPages_accounted _ _ _ _ (markRange_accounted balanced ..)

end Effects

theorem run_induction {property : State → Prop} (kept : ∀ m (call : Call), property m → property (call.exec m).2)
    {m : State} (initial : property m) (calls : List Call) : property (run m calls) := by
  induction calls generalizing m with
  | nil => exact initial
  | cons call calls ih => exact ih (kept m call initial)

end Hotarubi.Memory.Physmm
