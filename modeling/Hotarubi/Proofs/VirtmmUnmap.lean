import Hotarubi.Proofs.VirtmmSystem

/-! Unmapping a range. A pass of the loop that misses a table leaves the address
where it is, so every pass after it looks at the same hole. -/

namespace Hotarubi.Memory.Virtmm
open Base Radix

/-- A supply that also notes what is passed to `free_page`. -/
def recording {σ : Type} (pages : PageSource σ) : PageSource (σ × List UInt64) where
  allocPage flags m := ((pages.allocPage flags m.1).1, (pages.allocPage flags m.1).2, m.2)
  freePage m ptr := (pages.freePage m.1 ptr, m.2 ++ [ptr])
  physicalBaseOffset m := pages.physicalBaseOffset m.1

def State.noted {σ : Type} (s : State σ) : State (σ × List UInt64) := ⟨s.mem, s.cr3, s.systemPml4, s.physmm, []⟩

/-- How often the body of the loop runs. -/
def passes (len : UInt64) : Nat := (pageCount len - 1).toNat + 1

/-- The number of pages a length takes. -/
def pagesOf (len : UInt64) : Nat := (len.toNat + 4095) / 4096

/-- The pages of a range that the tables tell apart. -/
def span (len : UInt64) : Nat := min (pagesOf len) (2 ^ 36)

def pageAt (v : VirtAddr) (i : Nat) : VirtAddr := v + UInt64.ofNat i * pageSize

/-- An address of the range that starts at `v`, which may wrap. -/
def InRange (v : VirtAddr) (len : UInt64) (a : VirtAddr) : Prop := a - v < len

def Present (entry : UInt64) : Prop := entry &&& kPresent ≠ 0

instance (entry : UInt64) : Decidable (Present entry) := inferInstanceAs (Decidable (_ ≠ _))

/-- All three levels above the leaf entry are there. -/
def HasTable (base : UInt64) (mem : UInt64 → UInt64) (root : UInt64) (v : VirtAddr) : Prop :=
  walk (link base mem) root (directories v) ≠ none

instance (base : UInt64) (mem : UInt64 → UInt64) (root : UInt64) (v : VirtAddr) :
    Decidable (HasTable base mem root v) := inferInstanceAs (Decidable (_ ≠ _))

/-- The pointer that `free_page` is to get for a page of the range. -/
def mappedPage (base : UInt64) (mem : UInt64 → UInt64) (root : UInt64) (v : VirtAddr) (i : Nat) : Option UInt64 :=
  if Present (pte base mem root (pageAt v i)) then some (virtAddr base (frame (pte base mem root (pageAt v i))))
  else none

/-- The one it gets once the loop arrives there. -/
def freedPage (base : UInt64) (mem : UInt64 → UInt64) (root : UInt64) (v : VirtAddr) (i : Nat) : Option UInt64 :=
  if frame (pte base mem root (pageAt v i)) ≠ 0 then some (virtAddr base (frame (pte base mem root (pageAt v i))))
  else none

/-- The range is clear, all else is as it was, and each page that was mapped in
the range has been passed to `free_page` if that was asked for. -/
structure Unmapped {σ : Type} (base root : UInt64) (v : VirtAddr) (len : UInt64) (freePage : Bool)
    (s s' : State (σ × List UInt64)) : Prop where
  cleared : ∀ a, InRange v len a → ¬ Present (pte base s'.mem root a)
  others : ∀ w, (∀ a, InRange v len a → indices w ≠ indices a) → pte base s'.mem root w = pte base s.mem root w
  freed : s'.physmm.2 = s.physmm.2 ++
    if freePage then (List.range (span len)).filterMap (mappedPage base s.mem root v) else []

/-- No hole in the tables lies below a page that is mapped, no page is mapped to
frame 0, and no entry that is not present but names a frame is arrived at. -/
structure Clearable (base : UInt64) (mem : UInt64 → UInt64) (root : UInt64) (v : VirtAddr) (len : UInt64)
    (freePage : Bool) : Prop where
  nonempty : 0 < len.toNat
  counted : len.toNat % 4096 = 0 ∨ len.toNat + 4096 < 2 ^ 64
  reached : ∀ i < span len, Present (pte base mem root (pageAt v i)) →
    frame (pte base mem root (pageAt v i)) ≠ 0 ∧ ∀ j < i, HasTable base mem root (pageAt v j)
  entries : freePage = true → ∀ i < span len, (∀ j < i, HasTable base mem root (pageAt v j)) →
    frame (pte base mem root (pageAt v i)) ≠ 0 → Present (pte base mem root (pageAt v i))

theorem pageCount_toNat (len : UInt64) : (pageCount len).toNat =
    if len.toNat % 4096 = 0 then len.toNat / 4096 else (len.toNat + 4096) % 2 ^ 64 / 4096 := by
  have aligned : len % pageSize = 0 ↔ len.toNat % 4096 = 0 := by
    rw [← UInt64.toNat_inj, UInt64.toNat_mod, pageSize_toNat, UInt64.toNat_zero]
  unfold pageCount
  rw [page_toNat]
  simp only [ne_eq, ite_not, aligned]
  split
  next => rfl
  next => rw [UInt64.toNat_add, pageSize_toNat]

theorem passes_eq_iff (len : UInt64) :
    passes len = pagesOf len ↔ 0 < len.toNat ∧ (len.toNat % 4096 = 0 ∨ len.toNat + 4096 < 2 ^ 64) := by
  have := len.toNat_lt
  have count := pageCount_toNat len
  have least : (1 : UInt64).toNat = 1 := rfl
  unfold passes pagesOf
  rw [UInt64.toNat_sub, count, least]
  split
  · omega
  · omega

private theorem filterMap_range_prefix {β : Type} (f : Nat → Option β) {few many : Nat} (order : few ≤ many) :
    (List.range few).filterMap f = (List.range many).filterMap fun i => if i < few then f i else none := by
  obtain ⟨rest, rfl⟩ := Nat.exists_eq_add_of_le order
  rw [List.range_add, List.filterMap_append]
  have none_left : ((List.range rest).map (few + ·)).filterMap (fun i => if i < few then f i else none) = [] := by
    apply List.filterMap_eq_nil_iff.mpr
    intro i member
    obtain ⟨k, _, rfl⟩ := List.mem_map.mp member
    exact if_neg (Nat.not_lt.mpr (Nat.le_add_right few k))
  rw [none_left, List.append_nil]
  exact List.filterMap_congr fun i member => by rw [if_pos (List.mem_range.mp member)]

theorem pte_congr (base : UInt64) (mem : UInt64 → UInt64) (root : UInt64) {v w : VirtAddr}
    (same : indices v = indices w) : pte base mem root v = pte base mem root w := by
  obtain ⟨leaf, above⟩ := List.cons_eq_cons.mp same
  rw [pte, pte, leaf, above]

theorem pageAt_succ (v : VirtAddr) (i : Nat) : pageAt v i + pageSize = pageAt v (i + 1) := by
  unfold pageAt
  rw [UInt64.ofNat_add]
  grind

theorem indices_pageAt (v : VirtAddr) (i j : Nat) :
    indices (pageAt v i) = indices (pageAt v j) ↔ i % 2 ^ 36 = j % 2 ^ 36 := by
  rw [indices_eq_iff_pageNumber, pageAt, pageAt, pageNumber_add, pageNumber_add]
  omega

section Range

variable {v : VirtAddr} {len : UInt64}

private theorem pageAt_inRange {i : Nat} (inside : i < pagesOf len) : InRange v len (pageAt v i) := by
  have := len.toNat_lt
  unfold pagesOf at inside
  have distance : (pageAt v i - v).toNat = i * 4096 := by
    have offset : pageAt v i - v = UInt64.ofNat i * pageSize := by
      unfold pageAt
      grind
    rw [offset, UInt64.toNat_mul, UInt64.toNat_ofNat', pageSize_toNat]
    omega
  rw [InRange, UInt64.lt_iff_toNat_lt, distance]
  omega

private theorem inRange_page (aligned : v.toNat % 4096 = 0) {a : VirtAddr} (inside : InRange v len a) :
    ∃ i < span len, indices a = indices (pageAt v i) := by
  have distance := UInt64.lt_iff_toNat_lt.mp inside
  have := a.toNat_lt
  have := v.toNat_lt
  rw [UInt64.toNat_sub] at distance
  refine ⟨(a - v).toNat / 4096 % 2 ^ 36, ?_, ?_⟩
  · unfold span pagesOf
    rw [UInt64.toNat_sub]
    omega
  · rw [indices_eq_iff_pageNumber, pageAt, pageNumber_add, UInt64.toNat_sub]
    unfold pageNumber
    omega

end Range

section Loop

variable {σ : Type} {pages : PageSource σ} {base : UInt64} {valid : σ → Prop} {root : UInt64}
  {s : State (σ × List UInt64)} {v : VirtAddr} {len : UInt64} {freePage : Bool}

/-- What the loop needs of physmm: the base offset stays. -/
structure Anchored (pages : PageSource σ) (base : UInt64) (valid : σ → Prop) : Prop where
  offset : ∀ m, valid m → pages.physicalBaseOffset m = base
  frees : ∀ m ptr, valid m → valid (pages.freePage m ptr)

/-- The tables are in order, whatever pages are in use. -/
abbrev Ordered (base : UInt64) (valid : σ → Prop) (root : UInt64) (s : State (σ × List UInt64)) : Prop :=
  Good base (fun m : σ × List UInt64 => valid m.1) (fun _ _ => True) root s

/-- One pass as a function of the address and the state. -/
def pass (pages : PageSource σ) (pml4 : UInt64) (freePage : Bool) (at' : VirtAddr × State σ) : VirtAddr × State σ :=
  unmapPage pages at'.2 pml4 at'.1 freePage

theorem unmapPages_iterate (pages : PageSource σ) (s : State σ) (pml4 : UInt64) (v : VirtAddr) (freePage : Bool)
    (more : Nat) : unmapPages pages s pml4 v freePage more = ((pass pages pml4 freePage)^[more + 1] (v, s)).2 := by
  induction more generalizing s v with
  | zero => rfl
  | succ more ih => exact ih _ _

/-- What `n` passes have done: they have got over `m` pages, fewer than `n` only
if the next page is a hole, and cleared each of them that had a frame. -/
structure Progress (base : UInt64) (valid : σ → Prop) (root : UInt64) (s : State (σ × List UInt64)) (v : VirtAddr)
    (freePage : Bool) (n m : Nat) (at' : VirtAddr × State (σ × List UInt64)) : Prop where
  good : Ordered base valid root at'.2
  walks : ∀ w, walk (link base at'.2.mem) root (directories w) = walk (link base s.mem) root (directories w)
  address : at'.1 = pageAt v m
  passed : ∀ j < m, HasTable base s.mem root (pageAt v j)
  stuck : m = n ∨ m < n ∧ ¬ HasTable base s.mem root (pageAt v m)
  ptes : ∀ w, pte base at'.2.mem root w =
    if (∃ i < m, indices w = indices (pageAt v i)) ∧ frame (pte base s.mem root w) ≠ 0 then 0
    else pte base s.mem root w
  freed : at'.2.physmm.2 = s.physmm.2 ++
    if freePage then (List.range (min m (2 ^ 36))).filterMap (freedPage base s.mem root v) else []

theorem Progress.start (good : Ordered base valid root s) : Progress base valid root s v freePage 0 0 (v, s) where
  good := good
  walks _ := rfl
  address := by
    unfold pageAt
    simp
  passed j below := absurd below (Nat.not_lt_zero j)
  stuck := .inl rfl
  ptes w := by simp
  freed := by simp

/-- A page with a frame has not been passed before, so it is one of the first `2^36`. -/
theorem Progress.fresh {n m : Nat} {at' : VirtAddr × State (σ × List UInt64)}
    (progress : Progress base valid root s v freePage n m at')
    (names : frame (pte base at'.2.mem root (pageAt v m)) ≠ 0) :
    m < 2 ^ 36 ∧ pte base at'.2.mem root (pageAt v m) = pte base s.mem root (pageAt v m) := by
  have entry := progress.ptes (pageAt v m)
  split at entry
  next => exact absurd (by rw [entry]; rfl) names
  next untouched =>
    refine ⟨Nat.lt_of_not_le fun wrapped => untouched ⟨⟨m - 2 ^ 36, by omega, ?_⟩, by rwa [entry] at names⟩, entry⟩
    rw [indices_pageAt]
    omega

private theorem freed_succ (base : UInt64) (mem : UInt64 → UInt64) (root : UInt64)
    (v : VirtAddr) {m : Nat} {l : List UInt64}
    (last : m < 2 ^ 36 → l = (freedPage base mem root v m).toList) (beyond : ¬ m < 2 ^ 36 → l = []) :
    (List.range (min (m + 1) (2 ^ 36))).filterMap (freedPage base mem root v) =
      (List.range (min m (2 ^ 36))).filterMap (freedPage base mem root v) ++ l := by
  by_cases first : m < 2 ^ 36
  · rw [last first, Nat.min_eq_left (by omega), Nat.min_eq_left (by omega), List.range_succ, List.filterMap_append,
      List.filterMap_cons, List.filterMap_nil]
    cases freedPage base mem root v m with
    | none => rfl
    | some ptr => rfl
  · rw [beyond first, Nat.min_eq_right (by omega), Nat.min_eq_right (by omega), List.append_nil]

/-- Nothing changes where the entry has no frame. -/
theorem Progress.bare {m : Nat} {now : State (σ × List UInt64)}
    (progress : Progress base valid root s v freePage m m (pageAt v m, now))
    (table : HasTable base s.mem root (pageAt v m)) (empty : frame (pte base now.mem root (pageAt v m)) = 0) :
    Progress base valid root s v freePage (m + 1) (m + 1) (pageAt v (m + 1), now) := by
  refine ⟨progress.good, progress.walks, rfl, Nat.forall_lt_succ_right.mpr ⟨progress.passed, table⟩, .inl rfl,
    fun w => ?_, ?_⟩
  · have entry := progress.ptes w
    simp only [Nat.exists_lt_succ_right]
    by_cases here : indices w = indices (pageAt v m)
    · rw [← pte_congr base now.mem root here, entry] at empty
      rw [entry]
      split at empty
      next cleared => rw [if_pos cleared, if_pos ⟨.inl cleared.1, cleared.2⟩]
      next kept => rw [if_neg kept, if_neg fun names => names.2 empty]
    · simpa only [here, or_false] using entry
  · have entry := progress.ptes (pageAt v m)
    have nothing (first : m < 2 ^ 36) : freedPage base s.mem root v m = none := by
      split at entry
      next cleared =>
        obtain ⟨⟨i, earlier, same⟩, _⟩ := cleared
        rw [indices_pageAt] at same
        omega
      next => rw [freedPage, ← entry, if_neg (not_not.mpr empty)]
    rw [freed_succ (l := []) base s.mem root v (fun first => by rw [nothing first, Option.toList_none]) fun _ => rfl,
      List.append_nil]
    exact progress.freed

/-- An entry with a frame is cleared, and the frame noted. -/
theorem Progress.clear (anchored : Anchored pages base valid) (offset : BaseOffset base) {m : Nat}
    {now : State (σ × List UInt64)} (progress : Progress base valid root s v freePage m m (pageAt v m, now)) {t : UInt64}
    (reached : walk (link base now.mem) root (directories (pageAt v m)) = some t)
    (names : frame (pte base now.mem root (pageAt v m)) ≠ 0) :
    Progress base valid root s v freePage (m + 1) (m + 1) (pageAt v (m + 1), ({ now with
      physmm := if freePage then
        (recording pages).freePage now.physmm (virtAddr base (frame (pte base now.mem root (pageAt v m))))
      else now.physmm } : State (σ × List UInt64)).store (t + base) (ptIndex (pageAt v m)) 0) := by
  obtain ⟨first, entry⟩ := progress.fresh names
  have table : HasTable base s.mem root (pageAt v m) := by
    rw [HasTable, ← progress.walks, reached]
    exact Option.some_ne_none t
  have one := freed_succ base s.mem root v (fun _ => rfl) fun beyond => absurd first beyond
  rw [freedPage, ← entry, if_pos names] at one
  generalize later : (if freePage = true then
    (recording pages).freePage now.physmm (virtAddr base (frame (pte base now.mem root (pageAt v m))))
    else now.physmm) = physmm
  have ready : valid physmm.1 := by
    rw [← later]
    split
    next => exact anchored.frees _ _ progress.good.valid
    next => exact progress.good.valid
  have good : Ordered base valid root ({ now with physmm } : State (σ × List UInt64)) :=
    ⟨progress.good.tables, ready⟩
  have stored := store_leaf offset good (v := pageAt v m) reached 0
  refine ⟨stored.good, fun w => ?_, rfl, Nat.forall_lt_succ_right.mpr ⟨progress.passed, table⟩, .inl rfl,
    fun w => ?_, ?_⟩
  · rw [store_walk offset good (v := pageAt v m) reached 0 (by simp [directories])]
    exact progress.walks w
  · have before := progress.ptes w
    rw [stored.ptes]
    simp only [Nat.exists_lt_succ_right]
    by_cases here : indices w = indices (pageAt v m)
    · have held : frame (pte base s.mem root w) ≠ 0 := by
        rwa [pte_congr base s.mem root here, ← entry]
      rw [if_pos here, if_pos ⟨.inr here, held⟩]
    · simpa only [here, or_false, if_false] using before
  · have before := progress.freed
    simp only [one, State.store, ← later]
    cases freePage with
    | false => simpa only [Bool.false_eq_true, if_false] using before
    | true =>
      simp only [if_true] at before ⊢
      rw [← List.append_assoc, ← before]
      rfl

theorem Progress.step (anchored : Anchored pages base valid) (offset : BaseOffset base) {n m : Nat}
    {at' : VirtAddr × State (σ × List UInt64)} (progress : Progress base valid root s v freePage n m at') :
    ∃ m', Progress base valid root s v freePage (n + 1) m' (pass (recording pages) (root + base) freePage at') := by
  obtain ⟨w, now⟩ := at'
  obtain rfl : w = pageAt v m := progress.address
  have same : (recording pages).physicalBaseOffset now.physmm = base := anchored.offset _ progress.good.valid
  have below := progress.walks (pageAt v m)
  unfold pass
  cases reached : walk (link base now.mem) root (directories (pageAt v m)) with
  | none =>
    rw [unmapPage_missing same offset progress.good freePage reached]
    have hole : ¬ HasTable base s.mem root (pageAt v m) := fun table => table (below.symm.trans reached)
    have bound : m < n + 1 := by
      rcases progress.stuck with equal | ⟨less, _⟩
      · omega
      · omega
    exact ⟨m, { progress with stuck := .inr ⟨bound, hole⟩ }⟩
  | some t =>
    rw [unmapPage_found same offset progress.good freePage reached, pageAt_succ]
    have table : HasTable base s.mem root (pageAt v m) := by
      rw [HasTable, ← below, reached]
      exact Option.some_ne_none t
    obtain rfl : m = n := progress.stuck.resolve_right fun stuck => stuck.2 table
    refine ⟨m + 1, ?_⟩
    by_cases empty : frame (pte base now.mem root (pageAt v m)) = 0
    · rw [if_pos empty]
      exact progress.bare table empty
    · rw [if_neg empty]
      exact progress.clear anchored offset reached empty

theorem progress_iterate (anchored : Anchored pages base valid) (offset : BaseOffset base)
    (good : Ordered base valid root s) (v : VirtAddr) (freePage : Bool) (n : Nat) :
    ∃ m, Progress base valid root s v freePage n m ((pass (recording pages) (root + base) freePage)^[n] (v, s)) := by
  induction n with
  | zero => exact ⟨0, .start good⟩
  | succ n ih =>
    obtain ⟨m, progress⟩ := ih
    rw [Function.iterate_succ_apply']
    exact progress.step anchored offset

end Loop

section Region

variable {base root : UInt64} {s : State (Physmm.State × List UInt64)} {v : VirtAddr} {len : UInt64} {freePage : Bool}

theorem physmm_anchored (base : UInt64) : Anchored physmmSource base fun m => m.memoryMapBase = base where
  offset _ same := same
  frees m ptr same := ((Physmm.Call.freePage ptr).exec_layout m).base.trans same

/-- The loop arrives at a page with a frame if no hole lies below it. -/
theorem Progress.arrives {σ : Type} {valid : σ → Prop} {s : State (σ × List UInt64)} {n m : Nat}
    {at' : VirtAddr × State (σ × List UInt64)} (progress : Progress base valid root s v freePage n m at') {i : Nat}
    (inside : i < n) (below : ∀ j < i, HasTable base s.mem root (pageAt v j))
    (names : frame (pte base s.mem root (pageAt v i)) ≠ 0) : i < m := by
  rcases progress.stuck with rfl | ⟨_, hole⟩
  · exact inside
  · apply Nat.lt_of_not_le
    intro before
    rcases Nat.lt_or_eq_of_le before with earlier | rfl
    · exact hole (below m earlier)
    · exact hole fun missing => names (by rw [pte_missing missing]; rfl)

theorem absent_zero : ¬ Present 0 := by decide

private theorem span_lt {i : Nat} (inside : i < span len) : i < pagesOf len ∧ i < 2 ^ 36 := by
  unfold span at inside
  omega

/-- Every page of the range that is mapped names a frame and is one of the first `m`. -/
def Early (base : UInt64) (mem : UInt64 → UInt64) (root : UInt64) (v : VirtAddr) (len : UInt64) (m : Nat) : Prop :=
  ∀ i < span len, Present (pte base mem root (pageAt v i)) → frame (pte base mem root (pageAt v i)) ≠ 0 ∧ i < m

/-- What is freed on the way is then a selection of the pages of the range. -/
theorem Early.part {mem : UInt64 → UInt64} {m : Nat} (early : Early base mem root v len m) :
    ∀ i ∈ List.range (span len), mappedPage base mem root v i = none ∨
      mappedPage base mem root v i = if i < min m (2 ^ 36) then freedPage base mem root v i else none := by
  intro i member
  have inside := List.mem_range.mp member
  by_cases present : Present (pte base mem root (pageAt v i))
  · obtain ⟨names, before⟩ := early i inside present
    right
    rw [if_pos (Nat.lt_min.mpr ⟨before, (span_lt inside).2⟩), mappedPage, if_pos present, freedPage, if_pos names]
  · exact .inl (by rw [mappedPage, if_neg present])

section Outcome

variable {σ : Type} {valid : σ → Prop} {s : State (σ × List UInt64)} {m : Nat} {at' : VirtAddr × State (σ × List UInt64)}

theorem Progress.far (progress : Progress base valid root s v freePage (pagesOf len) m at') : m ≤ pagesOf len := by
  rcases progress.stuck with equal | ⟨less, _⟩
  · omega
  · omega

private theorem Progress.selection (progress : Progress base valid root s v freePage (pagesOf len) m at') :
    (List.range (min m (2 ^ 36))).filterMap (freedPage base s.mem root v) =
      (List.range (span len)).filterMap fun i => if i < min m (2 ^ 36) then freedPage base s.mem root v i else none := by
  have far := progress.far
  exact filterMap_range_prefix _ (by unfold span; omega)

private theorem Progress.early_of_cleared (progress : Progress base valid root s v freePage (pagesOf len) m at')
    (cleared : ∀ a, InRange v len a → ¬ Present (pte base at'.2.mem root a)) : Early base s.mem root v len m := by
  intro i inside present
  have bound := span_lt inside
  have gone := cleared _ (pageAt_inRange bound.1)
  rw [progress.ptes] at gone
  split at gone
  next passed =>
    obtain ⟨⟨k, before, same⟩, names⟩ := passed
    rw [indices_pageAt] at same
    exact ⟨names, by omega⟩
  next => exact absurd present gone

private theorem Progress.early_of_clearable (progress : Progress base valid root s v freePage (pagesOf len) m at')
    (clearable : Clearable base s.mem root v len freePage) : Early base s.mem root v len m := by
  intro i inside present
  obtain ⟨names, below⟩ := clearable.reached i inside present
  exact ⟨names, progress.arrives (span_lt inside).1 below names⟩

private theorem Progress.clearable (progress : Progress base valid root s v freePage (pagesOf len) m at')
    (sound : 0 < len.toNat ∧ (len.toNat % 4096 = 0 ∨ len.toNat + 4096 < 2 ^ 64))
    (done : Unmapped base root v len freePage s at'.2) : Clearable base s.mem root v len freePage := by
  have early := progress.early_of_cleared done.cleared
  refine ⟨sound.1, sound.2, fun i inside present => ?_, fun asked i inside below names => ?_⟩
  · obtain ⟨names, before⟩ := early i inside present
    exact ⟨names, fun j below => progress.passed j (Nat.lt_trans below before)⟩
  · have freed := done.freed
    rw [progress.freed, asked, if_pos rfl, if_pos rfl, List.append_cancel_left_eq, progress.selection,
      filterMap_eq_iff early.part] at freed
    have before := progress.arrives (span_lt inside).1 below names
    have same := freed i (List.mem_range.mpr inside)
    rw [if_pos (Nat.lt_min.mpr ⟨before, (span_lt inside).2⟩), freedPage, if_pos names] at same
    by_contra absent
    rw [mappedPage, if_neg absent] at same
    cases same

/-- A clearable range ends up as it should. -/
theorem Progress.unmapped (progress : Progress base valid root s v freePage (pagesOf len) m at')
    (aligned : v.toNat % 4096 = 0) (clearable : Clearable base s.mem root v len freePage) :
    Unmapped base root v len freePage s at'.2 := by
  have early := progress.early_of_clearable clearable
  refine ⟨fun a inside => ?_, fun w outside => ?_, ?_⟩
  · obtain ⟨i, within, same⟩ := inRange_page aligned inside
    rw [pte_congr base _ root same, progress.ptes]
    split
    next => exact absent_zero
    next kept =>
      intro present
      obtain ⟨names, before⟩ := early i within present
      exact kept ⟨⟨i, before, rfl⟩, names⟩
  · rw [progress.ptes, if_neg]
    rintro ⟨⟨i, before, same⟩, _⟩
    exact outside _ (pageAt_inRange (Nat.lt_of_lt_of_le before progress.far)) same
  · rw [progress.freed]
    cases asked : freePage with
    | false => rfl
    | true =>
      rw [if_pos rfl, if_pos rfl, progress.selection, (filterMap_eq_iff early.part).mpr]
      intro i member
      have inside := List.mem_range.mp member
      rcases early.part i member with absent | same
      · split
        next before =>
          rw [absent, freedPage, if_neg]
          intro names
          have below : ∀ j < i, HasTable base s.mem root (pageAt v j) :=
            fun j earlier => progress.passed j (Nat.lt_trans earlier (Nat.lt_min.mp before).1)
          rw [mappedPage, if_pos (clearable.entries asked i inside below names)] at absent
          cases absent
        next => exact absent.symm
      · exact same.symm

end Outcome

/-- `_unmap_region` clears its range and nothing else, frees what was mapped there
and takes one pass for each page exactly if the range is clearable. -/
theorem unmapRegion_clears_iff (offset : BaseOffset base) (ordered : Tables base (fun _ => True) s.mem root)
    (anchored : s.physmm.1.memoryMapBase = base) (aligned : v.toNat % 4096 = 0) (len : UInt64) (freePage : Bool) :
    (Unmapped base root v len freePage s (unmapRegion (recording physmmSource) s (root + base) v len freePage).2 ∧
      passes len = pagesOf len) ↔ Clearable base s.mem root v len freePage := by
  have good : Ordered base (fun m : Physmm.State => m.memoryMapBase = base) root s := ⟨ordered, anchored⟩
  obtain ⟨m, progress⟩ := progress_iterate (physmm_anchored base) offset good v freePage (passes len)
  have run : (unmapRegion (recording physmmSource) s (root + base) v len freePage).2 =
      ((pass (recording physmmSource) (root + base) freePage)^[passes len] (v, s)).2 := by
    rw [unmapRegion, if_neg (add_base_ne_zero offset good.root), unmapPages_iterate, passes]
  rw [run, passes_eq_iff]
  constructor
  · rintro ⟨done, sound⟩
    rw [(passes_eq_iff len).mpr sound] at progress done
    exact progress.clearable sound done
  · intro clearable
    have sound := And.intro clearable.nonempty clearable.counted
    rw [(passes_eq_iff len).mpr sound] at progress ⊢
    exact ⟨progress.unmapped aligned clearable, sound⟩

/-- The calls of the interface leave the tables in order. -/
theorem simulate_tables {s : State Physmm.State} (offset : BaseOffset base) (ready : Ready base s.physmm)
    (start : Empty base (Taken s.physmm) s.mem s.cr3) {calls : List Call}
    (admissible : ∀ call ∈ calls, call.Admissible) :
    Tables base (fun _ => True) (simulate physmmSource calls (s, fun _ => none)).1.mem
      (simulate physmmSource calls (s, fun _ => none)).1.cr3 := by
  have tables := (simulate_represents (physmm_supply base) offset admissible (empty_represents ready start)).good.tables
  exact ⟨tables.unshared, fun t reached => ⟨(tables.frames t reached).1, trivial⟩, tables.directory⟩

end Region

section Examples

/-- The state of the examples: an empty PML4 in page 1 of 64. -/
def blankTables : State Physmm.State := ⟨fun _ => 0, 0x1000, 0, Physmm.setMemoryMap [0x3, 0] 2⟩

private theorem blankTables_ready : Ready 0 blankTables.physmm := ⟨.inr (by decide +kernel), by decide +kernel, rfl⟩

private theorem blankTables_empty : Empty 0 (Taken blankTables.physmm) blankTables.mem blankTables.cr3 :=
  ⟨⟨by decide, by decide, by decide⟩, by unfold Taken; decide +kernel, fun _ => rfl⟩

theorem unmapRegion_clears_iff_witness :
    let s := (simulate physmmSource [.mapFixed 0x400000 0x5000 kWritable, .mapFixed 0x401000 0x6000 kNone]
      (blankTables, fun _ => none)).1.noted
    Unmapped 0 s.cr3 0x400000 0x1001 true s
      (unmapRegion (recording physmmSource) s (s.cr3 + 0) 0x400000 0x1001 true).2 ∧ passes 0x1001 = 2 := by
  intro s
  have admissible : ∀ call ∈ [Call.mapFixed 0x400000 0x5000 kWritable, .mapFixed 0x401000 0x6000 kNone],
      call.Admissible := by
    simp only [List.forall_mem_cons, List.not_mem_nil, false_imp_iff, implies_true, and_true]
    exact ⟨⟨⟨by decide, .inl (by decide)⟩, ⟨by decide, by decide, by decide⟩, by decide⟩,
      ⟨⟨by decide, .inl (by decide)⟩, ⟨by decide, by decide, by decide⟩, by decide⟩⟩
  have ordered := simulate_tables (.inl rfl) blankTables_ready blankTables_empty admissible
  refine (unmapRegion_clears_iff (s := s) (.inl rfl) ordered (by decide +kernel) (by decide) 0x1001 true).mpr
    ⟨by decide, .inr (by decide), by decide +kernel, by decide +kernel⟩

/-- Page 0x1ff of the range has no page table, so the page above it stays mapped. -/
theorem hole_keeps_mapping :
    let s := (simulate physmmSource [.mapFixed 0x200000 0x5000 kWritable] (blankTables, fun _ => none)).1.noted
    Tables 0 (fun _ => True) s.mem s.cr3 ∧ ¬ Unmapped 0 s.cr3 0x1ff000 0x2000 false s
      (unmapRegion (recording physmmSource) s (s.cr3 + 0) 0x1ff000 0x2000 false).2 := by
  intro s
  have admissible : ∀ call ∈ [Call.mapFixed 0x200000 0x5000 kWritable], call.Admissible := by
    simp only [List.forall_mem_cons, List.not_mem_nil, false_imp_iff, implies_true, and_true]
    exact ⟨⟨by decide, .inl (by decide)⟩, ⟨by decide, by decide, by decide⟩, by decide⟩
  refine ⟨simulate_tables (.inl rfl) blankTables_ready blankTables_empty admissible, fun done => ?_⟩
  have gone := done.cleared 0x200000 (by unfold InRange; decide)
  exact gone (by decide +kernel)

end Examples

end Hotarubi.Memory.Virtmm
