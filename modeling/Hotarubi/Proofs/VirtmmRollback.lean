import Hotarubi.Proofs.PhysmmFree
import Hotarubi.Proofs.VirtmmAddress
import Hotarubi.Proofs.VirtmmUnmap

/-! Mapping a range of addresses. When a page cannot be mapped the loop unmaps what came
before, one page short of it, and hands the length 0 on where only one page did. -/

namespace Hotarubi.Memory.Virtmm
open Base Radix

section Holes

variable {σ : Type} {pages : PageSource σ} {base : UInt64} {valid : σ → Prop} {live : σ → UInt64 → Prop}
  {root : UInt64} {s : State σ}

private theorem walk_hole {mem : UInt64 → UInt64} {path : List (Fin 512)} (hole : walk (link base mem) root path = none)
    (rest : List (Fin 512)) : walk (link base mem) root (rest ++ path) = none := by
  induction rest with
  | nil => exact hole
  | cons i rest ih => rw [List.cons_append, walk, ih, Option.bind_none]

private theorem nextTable_refused (supply : Supply pages base valid live) (offset : BaseOffset base)
    (good : Good base valid live root s) {path : List (Fin 512)} (short : path.length < 3) {t : UInt64}
    (reached : walk (link base s.mem) root path = some t) {i : Fin 512}
      (refused : (nextTable pages s (t + base) i).1 = none) :
    walk (link base (nextTable pages s (t + base) i).2.mem) root (i :: path) = none := by
  rcases tableAt_cases (supply.offset _ good.valid) good ⟨path, Nat.le_of_lt_succ short, reached⟩ i with
    ⟨empty, null⟩ | ⟨u, linked, _⟩
  · unfold nextTable at refused ⊢
    rw [if_pos null] at refused ⊢
    split at refused
    next => rwa [walk_cons reached]
    next => cases refused
  · rw [nextTable_present supply offset good ⟨path, Nat.le_of_lt_succ short, reached⟩ linked] at refused
    cases refused

private theorem descend_refused (supply : Supply pages base valid live) (offset : BaseOffset base)
    {rest path : List (Fin 512)} (good : Good base valid live root s) (short : path.length + rest.length ≤ 3) {t : UInt64}
    (reached : walk (link base s.mem) root path = some t) (refused : (descend pages s (t + base) rest).1 = none) :
    walk (link base (descend pages s (t + base) rest).2.mem) root (rest.reverse ++ path) = none := by
  induction rest generalizing s path t with
  | nil => cases refused
  | cons i rest ih =>
    rw [List.length_cons] at short
    obtain ⟨grown, next⟩ := nextTable_spec supply offset good (by omega) reached i
    have hole := nextTable_refused supply offset good (by omega) reached (i := i)
    simp only [descend, List.reverse_cons, List.append_assoc, List.singleton_append] at refused ⊢
    cases level : nextTable pages s (t + base) i with
    | mk answer s1 =>
      rw [level] at refused grown next hole
      cases answer with
      | none => exact walk_hole (hole rfl) _
      | some ptr =>
        obtain ⟨u, rfl, further⟩ := next ptr rfl
        exact ih grown.good (by rw [List.length_cons]; omega) further refused

private theorem mapPage_refused (supply : Supply pages base valid live) (offset : BaseOffset base)
    (good : Good base valid live root s) {v : VirtAddr} {p : PhysAddr} {flags : UInt64}
    (refused : (mapPage pages s (root + base) v p flags).1 = false) :
    ¬ HasTable base (mapPage pages s (root + base) v p flags).2.mem root v := by
  have short : ([] : List (Fin 512)).length + [pml4Index v, pdptIndex v, pdtIndex v].length ≤ 3 := Nat.le_refl 3
  have hole := descend_refused supply offset good short rfl
  rw [mapPage_eq] at refused ⊢
  cases level : descend pages s (root + base) [pml4Index v, pdptIndex v, pdtIndex v] with
  | mk answer s1 =>
    rw [level] at refused hole
    cases answer with
    | none => exact not_not.mpr (hole rfl)
    | some pt => cases refused

private theorem present_entry (p flags : UInt64) : Present (p ||| (kPresent ||| flags)) := by
  have kept : (p ||| (kPresent ||| flags)) &&& kPresent = kPresent := by
    apply UInt64.toBitVec_inj.mp
    simp only [UInt64.toBitVec_and, UInt64.toBitVec_or]
    apply BitVec.eq_of_getLsbD_eq
    intro i inside
    simp only [BitVec.getLsbD_and, BitVec.getLsbD_or]
    cases kPresent.toBitVec.getLsbD i <;> simp
  rw [Present, kept]
  decide

private theorem hasTable_of_present {mem : UInt64 → UInt64} {v : VirtAddr} (present : Present (pte base mem root v)) :
    HasTable base mem root v := by
  intro missing
  rw [pte_missing missing] at present
  exact absent_zero present

end Holes

section Recording

variable {σ : Type} (pages : PageSource σ)

/-- The state without the notes. -/
def State.forget (s : State (σ × List UInt64)) : State σ := ⟨s.mem, s.cr3, s.systemPml4, s.physmm.1⟩

private theorem unmapPage_forget (s : State (σ × List UInt64)) (pml4 : UInt64) (v : VirtAddr) (freePage : Bool) :
    unmapPage pages s.forget pml4 v freePage =
      ((unmapPage (recording pages) s pml4 v freePage).1, (unmapPage (recording pages) s pml4 v freePage).2.forget) := by
  have tables : ∀ t i, tableAt pages s.forget t i = tableAt (recording pages) s t i := fun _ _ => rfl
  have entries : ∀ t i, s.forget.load t i = s.load t i := fun _ _ => rfl
  unfold unmapPage
  simp only [tables, entries]
  split_ifs <;> rfl

private theorem unmapPages_forget (s : State (σ × List UInt64)) (pml4 : UInt64) (v : VirtAddr) (freePage : Bool)
    (more : Nat) :
    unmapPages pages s.forget pml4 v freePage more = (unmapPages (recording pages) s pml4 v freePage more).forget := by
  induction more generalizing s v with
  | zero => rw [unmapPages, unmapPage_forget, unmapPages]
  | succ more ih =>
    rw [unmapPages, unmapPage_forget]
    exact ih ..

private theorem unmapPage_noted (s : State (σ × List UInt64)) (pml4 : UInt64) (v : VirtAddr) (freePage : Bool) :
    ∃ freed, (unmapPage (recording pages) s pml4 v freePage).2.physmm =
      (freed.foldl pages.freePage s.physmm.1, s.physmm.2 ++ freed) := by
  have nothing : s.physmm = (([] : List UInt64).foldl pages.freePage s.physmm.1, s.physmm.2 ++ []) := by
    rw [List.foldl_nil, List.append_nil]
  unfold unmapPage
  dsimp only
  split_ifs
  · exact ⟨[], nothing⟩
  · exact ⟨[], nothing⟩
  · exact ⟨[], nothing⟩
  · exact ⟨[_], rfl⟩
  · exact ⟨[], nothing⟩
  · exact ⟨[], nothing⟩

private theorem unmapPages_noted (s : State (σ × List UInt64)) (pml4 : UInt64) (v : VirtAddr) (freePage : Bool)
    (more : Nat) :
    ∃ freed, (unmapPages (recording pages) s pml4 v freePage more).physmm =
      (freed.foldl pages.freePage s.physmm.1, s.physmm.2 ++ freed) := by
  induction more generalizing s v with
  | zero => exact unmapPage_noted pages s pml4 v freePage
  | succ more ih =>
    obtain ⟨first, noted⟩ := unmapPage_noted pages s pml4 v freePage
    obtain ⟨rest, noted'⟩ := ih (unmapPage (recording pages) s pml4 v freePage).2
      (unmapPage (recording pages) s pml4 v freePage).1
    refine ⟨first ++ rest, ?_⟩
    rw [unmapPages, noted', noted, List.foldl_append, List.append_assoc]

end Recording

section Pages

variable {σ : Type} (pages : PageSource σ)

/-- The state after so many passes of the loop of `map_address_range`. -/
def afterPages (s : State σ) (v : VirtAddr) (flags : UInt64) : Nat → State σ
  | 0 => s
  | k + 1 => (mapAddress pages (afterPages s v flags k) (pageAt v k) flags).2

/-- Page `k` of the range is the first that cannot be mapped. -/
structure FailsAt (s : State σ) (v : VirtAddr) (flags : UInt64) (k : Nat) : Prop where
  earlier : ∀ i < k, (mapAddress pages (afterPages pages s v flags i) (pageAt v i) flags).1 = true
  fails : (mapAddress pages (afterPages pages s v flags k) (pageAt v k) flags).1 = false

/-- The pointers `alloc_page` has returned for the pages before page `k`. -/
def framesTaken (s : State σ) (v : VirtAddr) (flags : UInt64) (k : Nat) : List UInt64 :=
  (List.range k).filterMap fun i => (pages.allocPage Physmm.kActive (afterPages pages s v flags i).physmm).1

variable {pages} {s : State σ} {v : VirtAddr} {flags : UInt64}

private theorem mapAddressesFrom_fails {k : Nat} (fails : FailsAt pages s v flags k) {i more : Nat} (before : i ≤ k)
    (far : k < i + more) :
    mapAddressesFrom pages (afterPages pages s v flags i) (pageAt v i) flags (UInt64.ofNat i) more =
      (false, unmapAddressRange pages (afterPages pages s v flags (k + 1)) v (UInt64.ofNat k - 1)) := by
  induction more generalizing i with
  | zero => omega
  | succ more ih =>
    rw [mapAddressesFrom]
    rcases Nat.lt_or_eq_of_le before with less | rfl
    · have mapped := fails.earlier i less
      cases step : mapAddress pages (afterPages pages s v flags i) (pageAt v i) flags with
      | mk granted s1 =>
        rw [step] at mapped
        subst mapped
        have next := ih (i := i + 1) less (by omega)
        rw [afterPages, step, ← pageAt_succ, UInt64.ofNat_add] at next
        exact next
    · have failed := fails.fails
      cases step : mapAddress pages (afterPages pages s v flags i) (pageAt v i) flags with
      | mk granted s1 =>
        rw [step] at failed
        subst failed
        have start : pageAt v i - pageSize * UInt64.ofNat i = v := by
          unfold pageAt
          grind
        dsimp only
        rw [start, afterPages, step]

/-- The call fails with the first page that cannot be mapped, and unmaps from the start
of the range one page fewer than it has mapped. -/
private theorem mapAddressRange_fails {k : Nat} (fails : FailsAt pages s v flags k) {npages : UInt64}
    (inside : k < npages.toNat) :
    mapAddressRange pages s v npages flags =
      (false, unmapAddressRange pages (afterPages pages s v flags (k + 1)) v (UInt64.ofNat k - 1)) := by
  have far : k < 0 + npages.toNat := by omega
  have loop := mapAddressesFrom_fails fails (Nat.zero_le k) far
  have start : pageAt v 0 = v := by simp [pageAt]
  rwa [start] at loop

end Pages

section Loop

variable {σ : Type} {pages : PageSource σ} {base : UInt64} {valid : σ → Prop} {live : σ → UInt64 → Prop}
  {s : State σ} {v : VirtAddr} {flags : UInt64} {k : Nat}

theorem mapAddress_spec (supply : Supply pages base valid live) (offset : BaseOffset base)
    (good : Good base valid live s.cr3 s) (v : VirtAddr) (flags : UInt64) :
    Mapped base valid live s.cr3 s v ((pages.allocPage Physmm.kActive s.physmm).1.getD 0 ||| (kPresent ||| flags))
      (mapAddress pages s v flags) := by
  rw [mapAddress_eq supply offset good]
  have spec := mapPage_spec supply offset (good_alloc supply good Physmm.kActive) v
    ((pages.allocPage Physmm.kActive s.physmm).1.getD 0) flags
  exact ⟨spec.good, ⟨spec.registers.cr3, spec.registers.systemPml4⟩, spec.ptes⟩

private theorem mapAddress_refused (supply : Supply pages base valid live) (offset : BaseOffset base)
    (good : Good base valid live s.cr3 s) (refused : (mapAddress pages s v flags).1 = false) :
    ¬ HasTable base (mapAddress pages s v flags).2.mem s.cr3 v := by
  rw [mapAddress_eq supply offset good] at refused ⊢
  exact mapPage_refused supply offset (good_alloc supply good Physmm.kActive) refused

private theorem mapAddress_refused_ptes (supply : Supply pages base valid live) (offset : BaseOffset base)
    (good : Good base valid live s.cr3 s) (refused : (mapAddress pages s v flags).1 = false) (w : VirtAddr) :
    pte base (mapAddress pages s v flags).2.mem s.cr3 w = pte base s.mem s.cr3 w := by
  have entry := (mapAddress_spec supply offset good v flags).ptes w
  rwa [refused, if_neg (by simp)] at entry

/-- The first pages of the range are mapped, and all else is as it was. -/
structure PagesMapped (base : UInt64) (valid : σ → Prop) (live : σ → UInt64 → Prop) (s : State σ) (v : VirtAddr) (k : Nat)
    (s' : State σ) : Prop where
  good : Good base valid live s.cr3 s'
  cr3 : s'.cr3 = s.cr3
  present : ∀ i < k, Present (pte base s'.mem s.cr3 (pageAt v i))
  others : ∀ w, (∀ i < k, indices w ≠ indices (pageAt v i)) → pte base s'.mem s.cr3 w = pte base s.mem s.cr3 w

theorem PagesMapped.refused (supply : Supply pages base valid live) (offset : BaseOffset base) {s1 : State σ}
    (mapped : PagesMapped base valid live s v k s1) {a : VirtAddr} (refused : (mapAddress pages s1 a flags).1 = false) :
    PagesMapped base valid live s v k (mapAddress pages s1 a flags).2 := by
  have good := mapped.good
  rw [← mapped.cr3] at good
  have spec := mapAddress_spec supply offset good a flags
  have same := mapAddress_refused_ptes supply offset good refused
  rw [mapped.cr3] at same
  have still := spec.good
  rw [mapped.cr3] at still
  refine ⟨still, spec.registers.cr3.trans mapped.cr3, fun i before => ?_, fun w outside => ?_⟩
  · rw [same]
    exact mapped.present i before
  · rw [same]
    exact mapped.others w outside

theorem PagesMapped.granted (supply : Supply pages base valid live) (offset : BaseOffset base) {s1 : State σ}
    (mapped : PagesMapped base valid live s v k s1) (granted : (mapAddress pages s1 (pageAt v k) flags).1 = true) :
    PagesMapped base valid live s v (k + 1) (mapAddress pages s1 (pageAt v k) flags).2 := by
  have good := mapped.good
  rw [← mapped.cr3] at good
  have spec := mapAddress_spec supply offset good (pageAt v k) flags
  have still := spec.good
  rw [mapped.cr3] at still
  refine ⟨still, spec.registers.cr3.trans mapped.cr3, fun i before => ?_, fun w outside => ?_⟩
  · have entry := spec.ptes (pageAt v i)
    rw [mapped.cr3] at entry
    rw [entry]
    split
    next => exact present_entry _ _
    next other =>
      rcases Nat.lt_succ_iff_lt_or_eq.mp before with earlier | rfl
      · exact mapped.present i earlier
      · exact absurd ⟨granted, rfl⟩ other
  · have entry := spec.ptes w
    rw [mapped.cr3, if_neg (fun same => outside k k.lt_succ_self same.2)] at entry
    rw [entry]
    exact mapped.others w fun i before => outside i (Nat.lt_succ_of_lt before)

/-- What the passes before the failure have done. -/
theorem FailsAt.mapped (fails : FailsAt pages s v flags k) (supply : Supply pages base valid live)
    (offset : BaseOffset base)
    (good : Good base valid live s.cr3 s) {j : Nat} (before : j ≤ k) :
    PagesMapped base valid live s v j (afterPages pages s v flags j) := by
  induction j with
  | zero => exact ⟨good, rfl, fun i inside => absurd inside (Nat.not_lt_zero i), fun w _ => rfl⟩
  | succ j ih => exact (ih (Nat.le_of_succ_le before)).granted supply offset (fails.earlier j before)

/-- The state that the rollback finds: page `k` has no table. -/
theorem FailsAt.failed (fails : FailsAt pages s v flags k) (supply : Supply pages base valid live)
    (offset : BaseOffset base)
    (good : Good base valid live s.cr3 s) :
    PagesMapped base valid live s v k (afterPages pages s v flags (k + 1)) ∧
      ¬ HasTable base (afterPages pages s v flags (k + 1)).mem s.cr3 (pageAt v k) := by
  have mapped := fails.mapped supply offset good (Nat.le_refl k)
  have good' := mapped.good
  rw [← mapped.cr3] at good'
  refine ⟨mapped.refused supply offset fails.fails, ?_⟩
  have hole := mapAddress_refused supply offset good' fails.fails
  rwa [mapped.cr3] at hole

/-- A range that fails has not gone around the tables. -/
theorem FailsAt.short (fails : FailsAt pages s v flags k) (supply : Supply pages base valid live) (offset : BaseOffset base)
    (good : Good base valid live s.cr3 s) : k < 2 ^ 36 := by
  obtain ⟨mapped, hole⟩ := fails.failed supply offset good
  by_contra around
  have same : indices (pageAt v (k - 2 ^ 36)) = indices (pageAt v k) := by
    rw [indices_pageAt]
    omega
  have present := mapped.present (k - 2 ^ 36) (by omega)
  rw [pte_congr base _ s.cr3 same] at present
  exact hole (hasTable_of_present present)

end Loop

section Rollback

variable {base : UInt64} {s : State Physmm.State} {v : VirtAddr} {flags : UInt64} {k : Nat}

/-- A call that fails leaves nothing behind: no page of the range is mapped, all other
translations are as before, and what was taken for earlier pages is free again. -/
structure AllOrNothing (base : UInt64) (s s' : State Physmm.State) (v : VirtAddr) (npages : UInt64) (taken : List UInt64) :
    Prop where
  clear : ∀ i < npages.toNat, ¬ Present (pte base s'.mem s'.cr3 (pageAt v i))
  others : ∀ w, (∀ i < npages.toNat, indices w ≠ indices (pageAt v i)) →
    pte base s'.mem s'.cr3 w = pte base s.mem s.cr3 w
  freed : ∀ ptr ∈ taken, ¬ Taken s'.physmm (ptr - base)

private theorem rollback_progress {root : UInt64} (offset : BaseOffset base) (good : Good base (Balanced base) Taken root s)
    (same : s.cr3 = root) (v : VirtAddr) (npages : UInt64) :
    ∃ m at', Progress base (fun m : Physmm.State => m.memoryMapBase = base) root s.noted v true
        (passes (pageSize * npages)) m at' ∧
      unmapAddressRange physmmSource s v npages = at'.2.forget ∧
      at'.2.physmm.1 = at'.2.physmm.2.foldl Physmm.freePage s.physmm := by
  have pml4 := pml4_eq (physmm_counted base).toSupply good.valid (same ▸ good.root)
  have ordered : Ordered base (fun m : Physmm.State => m.memoryMapBase = base) root s.noted :=
    ⟨⟨good.tables.unshared, fun t reached => ⟨(good.tables.frames t reached).1, trivial⟩, good.tables.directory⟩,
      good.valid.offset⟩
  obtain ⟨m, progress⟩ := progress_iterate (physmm_anchored base) offset ordered v true (passes (pageSize * npages))
  have run : unmapAddressRange physmmSource s v npages =
      (unmapPages (recording physmmSource) s.noted (root + base) v true
        (pageCount (pageSize * npages) - 1).toNat).forget := by
    rw [unmapAddressRange, unmapRegion, pml4, same, if_neg (add_base_ne_zero offset good.root)]
    exact unmapPages_forget physmmSource s.noted (root + base) v true _
  obtain ⟨freed, noted⟩ := unmapPages_noted physmmSource s.noted (root + base) v true
    (pageCount (pageSize * npages) - 1).toNat
  rw [unmapPages_iterate] at run noted
  refine ⟨m, _, progress, run, ?_⟩
  rw [show passes (pageSize * npages) = (pageCount (pageSize * npages) - 1).toNat + 1 from rfl, noted]
  rfl

private theorem Progress.holed {root : UInt64} {s : State (Physmm.State × List UInt64)} {n m h : Nat}
    {at' : VirtAddr × State (Physmm.State × List UInt64)}
    (progress : Progress base (fun m : Physmm.State => m.memoryMapBase = base) root s v true n m at')
    (tables : ∀ i < h, HasTable base s.mem root (pageAt v i)) (hole : ¬ HasTable base s.mem root (pageAt v h)) :
    m = min n h := by
  have low : m ≤ h := by
    by_contra beyond
    exact hole (progress.passed h (Nat.lt_of_not_le beyond))
  rcases progress.stuck with rfl | ⟨less, missing⟩
  · omega
  · have high : ¬ m < h := fun before => missing (tables m before)
    omega

private theorem unmapPage_cr3 {σ : Type} (pages : PageSource σ) (s : State σ) (pml4 : UInt64) (v : VirtAddr)
    (freePage : Bool) :
    (unmapPage pages s pml4 v freePage).2.cr3 = s.cr3 := by
  unfold unmapPage
  dsimp only
  split_ifs <;> rfl

private theorem unmapPages_cr3 {σ : Type} (pages : PageSource σ) (s : State σ) (pml4 : UInt64) (v : VirtAddr)
    (freePage : Bool)
    (more : Nat) : (unmapPages pages s pml4 v freePage more).cr3 = s.cr3 := by
  induction more generalizing s v with
  | zero => exact unmapPage_cr3 pages s pml4 v freePage
  | succ more ih =>
    rw [unmapPages, ih]
    exact unmapPage_cr3 pages s pml4 v freePage

private theorem unmapAddressRange_cr3 (s : State Physmm.State) (v : VirtAddr) (npages : UInt64) :
    (unmapAddressRange physmmSource s v npages).cr3 = s.cr3 := by
  unfold unmapAddressRange unmapRegion
  split
  next => rfl
  next => exact unmapPages_cr3 ..

private theorem FailsAt.rolled (fails : FailsAt physmmSource s v flags k) (offset : BaseOffset base)
    (good : Good base (Balanced base) Taken s.cr3 s) {npages : UInt64} (inside : k < npages.toNat) :
    ∃ s1 s' freed, s1 = afterPages physmmSource s v flags (k + 1) ∧
      mapAddressRange physmmSource s v npages flags = (false, s') ∧ s'.cr3 = s.cr3 ∧
      (∀ w, pte base s'.mem s.cr3 w =
        if (∃ i < min (passes (pageSize * (UInt64.ofNat k - 1))) k, indices w = indices (pageAt v i)) ∧
          frame (pte base s1.mem s.cr3 w) ≠ 0 then 0 else pte base s1.mem s.cr3 w) ∧
      freed = (List.range (min (passes (pageSize * (UInt64.ofNat k - 1))) k)).filterMap (freedPage base s1.mem s.cr3 v) ∧
      s'.physmm = freed.foldl Physmm.freePage s1.physmm := by
  have supply := (physmm_counted base).toSupply
  obtain ⟨mapped, hole⟩ := fails.failed supply offset good
  have short := fails.short supply offset good
  obtain ⟨m, at', progress, run, freed⟩ := rollback_progress offset mapped.good mapped.cr3 v (UInt64.ofNat k - 1)
  have tables : ∀ i < k, HasTable base (afterPages physmmSource s v flags (k + 1)).noted.mem s.cr3 (pageAt v i) :=
    fun i before => hasTable_of_present (mapped.present i before)
  have far := progress.holed tables hole
  subst far
  refine ⟨_, _, _, rfl, mapAddressRange_fails fails inside, ?_, ?_, rfl, ?_⟩
  · rw [unmapAddressRange_cr3, mapped.cr3]
  · rw [run]
    exact progress.ptes
  · have noted := progress.freed
    rw [if_pos rfl, Nat.min_eq_left (by omega)] at noted
    rw [run]
    change at'.2.physmm.1 = _
    rw [freed, noted]
    rfl

end Rollback

section Growth

variable {σ : Type} {pages : PageSource σ} {kept : σ → Prop} {s : State σ}

private theorem nextTable_kept (closed : ∀ m flags, kept m → kept (pages.allocPage flags m).2)
    (before : kept s.physmm) (t : UInt64)
    (i : Fin 512) : kept (nextTable pages s t i).2.physmm := by
  have after := closed s.physmm Physmm.kLocked before
  unfold nextTable
  split
  next =>
    split
    next allocated => rwa [allocated] at after
    next allocated => rwa [allocated] at after
  next => exact before

private theorem descend_kept (closed : ∀ m flags, kept m → kept (pages.allocPage flags m).2)
    (before : kept s.physmm) (t : UInt64)
    (path : List (Fin 512)) : kept (descend pages s t path).2.physmm := by
  induction path generalizing s t with
  | nil => exact before
  | cons i path ih =>
    have first := nextTable_kept closed before t i
    rw [descend]
    cases level : nextTable pages s t i with
    | mk answer s1 =>
      rw [level] at first
      cases answer with
      | none => exact first
      | some next => exact ih first next

private theorem mapAddress_kept {base : UInt64} {valid : σ → Prop} {live : σ → UInt64 → Prop}
    (supply : Supply pages base valid live)
    (offset : BaseOffset base) (good : Good base valid live s.cr3 s)
    (closed : ∀ m flags, kept m → kept (pages.allocPage flags m).2)
    (before : kept (pages.allocPage Physmm.kActive s.physmm).2) (v : VirtAddr) (flags : UInt64) :
    kept (mapAddress pages s v flags).2.physmm := by
  have later := descend_kept (s := { s with physmm := (pages.allocPage Physmm.kActive s.physmm).2 }) closed before
    (s.cr3 + base) [pml4Index v, pdptIndex v, pdtIndex v]
  rw [mapAddress_eq supply offset good, mapPage_eq]
  split
  next level => rwa [level] at later
  next level => rwa [level] at later

end Growth

section Cases

variable {base : UInt64} {s : State Physmm.State} {v : VirtAddr} {flags : UInt64} {k : Nat} {npages : UInt64}

private theorem FailsAt.keeps_last (fails : FailsAt physmmSource s v flags k) (offset : BaseOffset base)
    (good : Good base (Balanced base) Taken s.cr3 s) (inside : k < npages.toNat) (several : 2 ≤ k) (taken : List UInt64) :
    ¬ AllOrNothing base s (mapAddressRange physmmSource s v npages flags).2 v npages taken := by
  obtain ⟨s1, s', _, rfl, run, cr3, ptes, _, _⟩ := fails.rolled offset good inside
  have short := fails.short (physmm_counted base).toSupply offset good
  have count : passes (pageSize * (UInt64.ofNat k - 1)) = k - 1 := by
    have length : (pageSize * (UInt64.ofNat k - 1)).toNat = 4096 * (k - 1) := by
      rw [UInt64.toNat_mul, UInt64.toNat_sub, UInt64.toNat_ofNat', pageSize_toNat, UInt64.toNat_one]
      omega
    rw [(passes_eq_iff _).mpr (by omega), pagesOf]
    omega
  have present := (fails.failed (physmm_counted base).toSupply offset good).1.present (k - 1) (by omega)
  intro all
  have gone := all.clear (k - 1) (by omega)
  rw [run, cr3, ptes, count, if_neg] at gone
  · exact gone present
  · rintro ⟨⟨i, before, same⟩, _⟩
    rw [indices_pageAt] at same
    omega

/-- Where no page was mapped nothing is unmapped. -/
theorem FailsAt.first (fails : FailsAt physmmSource s v flags 0) (offset : BaseOffset base)
    (good : Good base (Balanced base) Taken s.cr3 s) (inside : 0 < npages.toNat)
    (unmapped : ∀ i < npages.toNat, ¬ Present (pte base s.mem s.cr3 (pageAt v i))) :
    AllOrNothing base s (mapAddressRange physmmSource s v npages flags).2 v npages [] := by
  obtain ⟨s1, s', _, rfl, run, cr3, ptes, _, _⟩ := fails.rolled offset good inside
  have mapped := (fails.failed (physmm_counted base).toSupply offset good).1
  have same : ∀ w, pte base s'.mem s'.cr3 w = pte base s.mem s.cr3 w := by
    intro w
    rw [cr3, ptes, if_neg]
    · exact mapped.others w fun i before => absurd before (Nat.not_lt_zero i)
    · rintro ⟨⟨i, before, _⟩, _⟩
      exact Nat.not_lt_zero i (Nat.lt_of_lt_of_le before (Nat.min_le_right _ _))
  rw [run]
  refine ⟨fun i before => ?_, fun w _ => same w, nofun⟩
  rw [same]
  exact unmapped i before

/-- The leaf entry that the first page of a range gets. -/
def firstEntry (s : State Physmm.State) (flags : UInt64) : UInt64 :=
  (Physmm.allocPage s.physmm Physmm.kActive).1.getD 0 ||| (kPresent ||| flags)

/-- With the length 0 the loop gets over the one page that was mapped, and frees the
frame its entry names. -/
theorem FailsAt.second (fails : FailsAt physmmSource s v flags 1) (offset : BaseOffset base)
    (good : Good base (Balanced base) Taken s.cr3 s) (inside : 1 < npages.toNat) :
    ∃ s', mapAddressRange physmmSource s v npages flags = (false, s') ∧ s'.cr3 = s.cr3 ∧
      (∀ w, pte base s'.mem s.cr3 w = if indices w = indices v then
          if frame (firstEntry s flags) ≠ 0 then 0 else firstEntry s flags
        else pte base s.mem s.cr3 w) ∧
      s'.physmm = if frame (firstEntry s flags) ≠ 0 then
          Physmm.freePage (afterPages physmmSource s v flags 2).physmm (virtAddr base (frame (firstEntry s flags)))
        else (afterPages physmmSource s v flags 2).physmm := by
  have supply := (physmm_counted base).toSupply
  obtain ⟨s1, s', freed, rfl, run, cr3, ptes, list, frees⟩ := fails.rolled offset good inside
  have start : pageAt v 0 = v := by simp [pageAt]
  have mapped := fails.mapped supply offset good (Nat.le_refl 1)
  have good' := mapped.good
  rw [← mapped.cr3] at good'
  have entries : ∀ w, pte base (afterPages physmmSource s v flags 2).mem s.cr3 w =
      if indices w = indices v then firstEntry s flags else pte base s.mem s.cr3 w := by
    intro w
    have second := mapAddress_refused_ptes supply offset good' fails.fails w
    have first := (mapAddress_spec supply offset good v flags).ptes w
    have granted : (mapAddress physmmSource s v flags).1 = true := by
      rw [← start]
      exact fails.earlier 0 Nat.one_pos
    simp only [granted, true_and] at first
    rw [mapped.cr3] at second
    rw [afterPages, second, afterPages, start]
    exact first
  have count : min (passes (pageSize * (UInt64.ofNat 1 - 1))) 1 = 1 := by decide
  rw [count] at ptes list
  refine ⟨s', run, cr3, fun w => ?_, ?_⟩
  · have entry := ptes w
    simp only [Nat.lt_one_iff, exists_eq_left, start, entries] at entry
    rw [entry]
    by_cases here : indices w = indices v
    · simp [here]
    · simp [here]
  · rw [frees, list]
    simp only [List.range_one, List.filterMap_cons, List.filterMap_nil, freedPage, start, entries, if_true]
    by_cases names : frame (firstEntry s flags) = 0
    · simp [names]
    · simp [names]

/-- A page in use, in a map of a given size and offset. -/
structure InUse (base : UInt64) (size : Nat) (page : UInt64) (m : Physmm.State) : Prop where
  taken : Taken m page
  size : m.mapBits = size
  offset : m.memoryMapBase = base

theorem InUse.kept {size : Nat} {page : UInt64} (m : Physmm.State) (flags : Physmm.Flags) (inUse : InUse base size page m) :
    InUse base size page (physmmSource.allocPage flags m).2 := by
  have layout := (Physmm.Call.allocPage flags).exec_layout m
  exact ⟨(Physmm.Call.allocPage flags).exec_taken m rfl inUse.taken, layout.mapBits.trans inUse.size,
    layout.base.trans inUse.offset⟩

private theorem FailsAt.second_taken (fails : FailsAt physmmSource s v flags 1) (offset : BaseOffset base)
    (good : Good base (Balanced base) Taken s.cr3 s) {ptr : UInt64}
    (granted : (Physmm.allocPage s.physmm Physmm.kActive).1 = some ptr) :
    ∃ page, ptr = page + base ∧ IsFrame page ∧ page.toNat / 4096 < s.physmm.mapBits ∧
      InUse base s.physmm.mapBits page (afterPages physmmSource s v flags 2).physmm := by
  have supply := (physmm_counted base).toSupply
  have mapped := fails.mapped supply offset good (Nat.le_refl 1)
  have good' := mapped.good
  rw [← mapped.cr3] at good'
  obtain ⟨page, address, isFrame, _, taken⟩ := supply.grants _ _ ptr good.valid granted
  have inside : page.toNat / 4096 < s.physmm.mapBits := by
    obtain ⟨n, _, bound, _, _, same, _, _⟩ := Physmm.allocPage_some good.valid.sound granted
    rw [address, good.valid.offset, UInt64.add_sub_cancel, page_toNat] at same
    rwa [same]
  have layout := (Physmm.Call.allocPage Physmm.kActive).exec_layout s.physmm
  have first : InUse base s.physmm.mapBits page (physmmSource.allocPage Physmm.kActive s.physmm).2 :=
    ⟨taken, layout.mapBits, layout.base.trans good.valid.offset⟩
  have once : InUse base s.physmm.mapBits page (afterPages physmmSource s v flags 1).physmm :=
    mapAddress_kept supply offset good InUse.kept first (pageAt v 0) flags
  exact ⟨page, address, isFrame, inside,
    mapAddress_kept supply offset good' InUse.kept (once.kept _ Physmm.kActive) (pageAt v 1) flags⟩

private theorem freePage_offset {m : Physmm.State} (same : m.memoryMapBase = kVMRangePhysMemBase) {entry : UInt64}
    (high : 2 ^ 52 ≤ (frame entry).toNat) (i : Nat) :
    (Physmm.freePage m (virtAddr kVMRangePhysMemBase (frame entry))).used i = m.used i := by
  have nonzero : frame entry ≠ 0 := by
    intro zero
    rw [zero, UInt64.toNat_zero] at high
    omega
  have low : (frame entry).toNat ≤ 0x1ffffffffff000 := by
    rw [frame, UInt64.toNat_and]
    exact Nat.and_le_right
  have base := physMemBase_toNat
  have value : (frame entry + kVMRangePhysMemBase).toNat + 0x780000000000 = (frame entry).toNat := by
    rw [UInt64.toNat_add, base]
    omega
  have below : ¬ frame entry + kVMRangePhysMemBase ≥ m.memoryMapBase := by
    rw [same, ge_iff_le, UInt64.le_iff_toNat_le, base]
    omega
  rw [virtAddr, if_neg nonzero]
  refine Physmm.Call.used_beyond (.freePage _) (fun addr len ranged => ?_) i
  rw [(Physmm.Call.range_freePage ranged).1, Physmm.dropOffset, if_neg below]
  have bits := Physmm.mapBits_lt m
  omega

private theorem firstEntry_some {page : UInt64}
    (granted : (Physmm.allocPage s.physmm Physmm.kActive).1 = some (page + base)) :
    firstEntry s flags = (page + base) ||| (kPresent ||| flags) := by
  rw [firstEntry, granted, Option.getD_some]

private theorem frame_flags (masked : flags &&& ~~~kMask = 0) : frame (kPresent ||| flags) = 0 := by
  rw [frame_union, show frame flags = 0 from masked]
  decide

/-- Without a page to free, the entry that was made stays. -/
private theorem FailsAt.second_ungranted (fails : FailsAt physmmSource s v flags 1) (offset : BaseOffset base)
    (good : Good base (Balanced base) Taken s.cr3 s) (masked : flags &&& ~~~kMask = 0) (inside : 1 < npages.toNat)
    (granted : (Physmm.allocPage s.physmm Physmm.kActive).1 = none) {taken : List UInt64} :
    ¬ AllOrNothing base s (mapAddressRange physmmSource s v npages flags).2 v npages taken := by
  obtain ⟨s', run, cr3, ptes, _⟩ := fails.second offset good inside
  have names : frame (firstEntry s flags) = 0 := by
    rw [firstEntry, granted, Option.getD_none, UInt64.zero_or, frame_flags masked]
  intro all
  have gone := all.clear 0 (by omega)
  rw [run, cr3, show pageAt v 0 = v by simp [pageAt], ptes, if_pos rfl, if_neg (not_not.mpr names)] at gone
  exact gone (present_entry _ _)

/-- Where pointers are addresses, the entry names the page that was taken. -/
private theorem FailsAt.second_restored (fails : FailsAt physmmSource s v flags 1)
    (good : Good 0 (Balanced 0) Taken s.cr3 s) (masked : flags &&& ~~~kMask = 0) (inside : 1 < npages.toNat)
    (unmapped : ∀ i < npages.toNat, ¬ Present (pte 0 s.mem s.cr3 (pageAt v i))) {ptr : UInt64}
    (granted : (Physmm.allocPage s.physmm Physmm.kActive).1 = some ptr) :
    AllOrNothing 0 s (mapAddressRange physmmSource s v npages flags).2 v npages [ptr] := by
  obtain ⟨s', run, cr3, ptes, physmm⟩ := fails.second (.inl rfl) good inside
  obtain ⟨page, rfl, isFrame, bound, inUse⟩ := fails.second_taken (.inl rfl) good granted
  have names : frame (firstEntry s flags) = page := by
    rw [firstEntry_some granted, UInt64.add_zero]
    exact frame_or isFrame.aligned isFrame.bound (frame_flags masked)
  have nonzero : frame (firstEntry s flags) ≠ 0 := by
    rw [names]
    exact isFrame.nonzero
  rw [if_pos nonzero, names, virtAddr, if_neg isFrame.nonzero, UInt64.add_zero] at physmm
  rw [run]
  refine ⟨fun i before => ?_, fun w outside => ?_, fun ptr member => ?_⟩
  · rw [cr3, ptes]
    split
    next => exact absent_zero
    next => exact unmapped i before
  · rw [cr3, ptes, if_neg]
    intro here
    exact outside 0 (by omega) (by rw [here]; simp [pageAt])
  · obtain rfl := List.mem_singleton.mp member
    have drop : Physmm.dropOffset (afterPages physmmSource s v flags 2).physmm page = page :=
      Physmm.dropOffset_physical (.inl inUse.offset)
    have first : page.toNat / 4096 ≠ 0 := by
      have := isFrame.aligned
      have := isFrame.nonzero
      rw [ne_eq, ← UInt64.toNat_inj, UInt64.toNat_zero] at this
      omega
    rw [UInt64.add_zero, UInt64.sub_zero, Taken, physmm, Physmm.freePage_used _ (by rwa [drop]), drop, inUse.size,
      if_pos ⟨Nat.le_refl _, Nat.lt_succ_self _, bound⟩]
    decide

/-- From the direct map's base on, the entry has lost the upper bits of the pointer. -/
private theorem FailsAt.second_left (fails : FailsAt physmmSource s v flags 1)
    (good : Good kVMRangePhysMemBase (Balanced kVMRangePhysMemBase) Taken s.cr3 s) (inside : 1 < npages.toNat)
    {ptr : UInt64} (granted : (Physmm.allocPage s.physmm Physmm.kActive).1 = some ptr) :
    ¬ AllOrNothing kVMRangePhysMemBase s (mapAddressRange physmmSource s v npages flags).2 v npages [ptr] := by
  obtain ⟨s', run, _, _, physmm⟩ := fails.second (.inr rfl) good inside
  obtain ⟨page, rfl, isFrame, _, inUse⟩ := fails.second_taken (.inr rfl) good granted
  have high := frame_direct_map isFrame (kPresent ||| flags)
  rw [← firstEntry_some granted] at high
  have nonzero : frame (firstEntry s flags) ≠ 0 := by
    intro zero
    rw [zero, UInt64.toNat_zero] at high
    omega
  rw [if_pos nonzero] at physmm
  intro all
  have gone := all.freed (page + kVMRangePhysMemBase) List.mem_cons_self
  rw [run, UInt64.add_sub_cancel, Taken, physmm, freePage_offset inUse.offset high] at gone
  exact gone inUse.taken

/-- One page is unmapped again as it should be if `alloc_page` returned one, and without
an offset that the entry loses. -/
private theorem FailsAt.second_iff (fails : FailsAt physmmSource s v flags 1) (offset : BaseOffset base)
    (good : Good base (Balanced base) Taken s.cr3 s) (masked : flags &&& ~~~kMask = 0) (inside : 1 < npages.toNat)
    (unmapped : ∀ i < npages.toNat, ¬ Present (pte base s.mem s.cr3 (pageAt v i))) :
    AllOrNothing base s (mapAddressRange physmmSource s v npages flags).2 v npages
        (Physmm.allocPage s.physmm Physmm.kActive).1.toList ↔ base = 0 ∧ 0 < Physmm.spare s.physmm := by
  have spare := (physmm_counted base).granted _ Physmm.kActive good.valid
  cases granted : (Physmm.allocPage s.physmm Physmm.kActive).1 with
  | none =>
    refine iff_of_false (fails.second_ungranted offset good masked inside granted) fun both => ?_
    obtain ⟨ptr, answered⟩ := spare.mpr both.2
    cases granted.symm.trans answered
  | some ptr =>
    have positive : 0 < Physmm.spare s.physmm := spare.mp ⟨ptr, granted⟩
    rw [and_iff_left positive]
    rcases offset with rfl | rfl
    · exact iff_of_true (fails.second_restored good masked inside unmapped granted) rfl
    · exact iff_of_false (fails.second_left good inside granted) (by decide)

/-- If page `k` of a range is the first that cannot be mapped, the call returns false; all
is as before if and only if `k` is 0, or it is 1, the pointers of physmm carry no offset
and the first page got a frame. -/
theorem map_address_range_all_or_nothing_iff (offset : BaseOffset base) (good : Good base (Balanced base) Taken s.cr3 s)
    (masked : flags &&& ~~~kMask = 0) (inside : k < npages.toNat)
    (unmapped : ∀ i < npages.toNat, ¬ Present (pte base s.mem s.cr3 (pageAt v i)))
    (fails : FailsAt physmmSource s v flags k) :
    (mapAddressRange physmmSource s v npages flags).1 = false ∧
      (AllOrNothing base s (mapAddressRange physmmSource s v npages flags).2 v npages
        (framesTaken physmmSource s v flags k) ↔
        k = 0 ∨ k = 1 ∧ base = 0 ∧ 0 < Physmm.spare s.physmm) := by
  refine ⟨congrArg Prod.fst (mapAddressRange_fails fails inside), ?_⟩
  match k with
  | 0 => exact iff_of_true (fails.first offset good inside unmapped) (.inl rfl)
  | 1 =>
    have taken : framesTaken physmmSource s v flags 1 = (Physmm.allocPage s.physmm Physmm.kActive).1.toList := by
      rw [framesTaken, List.range_one, List.filterMap_cons, List.filterMap_nil]
      simp only [afterPages, physmmSource]
      cases (Physmm.allocPage s.physmm Physmm.kActive).1 with
      | none => rfl
      | some ptr => rfl
    rw [taken, fails.second_iff offset good masked inside unmapped]
    simp
  | k + 2 =>
    refine iff_of_false (fails.keeps_last offset good inside (by omega) _) ?_
    omega

end Cases

section Examples

/-- An empty PML4 in page 1 and the given bitmap, before there is a direct map. -/
def lowTables (words : List (BitVec 32)) (used : UInt32) : State Physmm.State :=
  ⟨fun _ => 0, 0x1000, 0, Physmm.setMemoryMap words used⟩

private theorem lowTables_good {words : List (BitVec 32)} {used : UInt32}
    (accounted : (lowTables words used).physmm.Accounted)
    (reserved : (lowTables words used).physmm.used 0 = true) (root : (lowTables words used).physmm.used 1 = true) :
    Good 0 (Balanced 0) Taken 0x1000 (lowTables words used) :=
  (Empty.good ⟨⟨by decide, by decide, by decide⟩, root, fun _ => rfl⟩ ⟨⟨.inr accounted, reserved, rfl⟩, accounted⟩).1

/-- Five pages: one to map, three for its tables, and one too few for the next page. -/
theorem map_address_range_all_or_nothing_iff_witness :
    let s := lowTables [0xffffff83] 27
    (mapAddressRange physmmSource s 0x3ff000 2 kWritable).1 = false ∧
      (AllOrNothing 0 s (mapAddressRange physmmSource s 0x3ff000 2 kWritable).2 0x3ff000 2
          (framesTaken physmmSource s 0x3ff000 kWritable 1) ↔
        1 = 0 ∨ 1 = 1 ∧ (0 : UInt64) = 0 ∧ 0 < Physmm.spare s.physmm) := by
  intro s
  exact map_address_range_all_or_nothing_iff (.inl rfl)
    (lowTables_good (by decide +kernel) (by decide +kernel) (by decide +kernel)) (by decide) (by decide) (by decide +kernel)
    ⟨by decide +kernel, by decide +kernel⟩

/-- Two pages are mapped when the third fails, and the second stays. -/
theorem map_address_range_keeps_page : ¬ ∀ (s : State Physmm.State) (v : VirtAddr) (npages flags : UInt64) (k : Nat),
    Good 0 (Balanced 0) Taken s.cr3 s → flags &&& ~~~kMask = 0 → k < npages.toNat →
    (∀ i < npages.toNat, ¬ Present (pte 0 s.mem s.cr3 (pageAt v i))) → FailsAt physmmSource s v flags k →
    AllOrNothing 0 s (mapAddressRange physmmSource s v npages flags).2 v npages (framesTaken physmmSource s v flags k) := by
  intro claim
  let s := lowTables [0xffffff03] 26
  have all := claim s 0x3fe000 3 kWritable 2 (lowTables_good (by decide +kernel) (by decide +kernel) (by decide +kernel))
    (by decide) (by decide) (by decide +kernel) ⟨by decide +kernel, by decide +kernel⟩
  exact all.clear 1 (by decide) (by decide +kernel)

end Examples

end Hotarubi.Memory.Virtmm
