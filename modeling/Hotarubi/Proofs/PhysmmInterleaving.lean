import Hotarubi.Memory.PhysmmCode
import Hotarubi.Proofs.PhysmmOwnership

/-! Every interleaving of the page allocator's calls, access by access, shows its
callers what some order of undivided calls shows them. -/

namespace Hotarubi.Memory.Physmm
open Base

namespace Stepwise
variable (m : State)

private theorem run_memoryMapBase : memoryMapBase.run m = (m.memoryMapBase, m) := rfl

private theorem run_memoryMapSize : memoryMapSize.run m = (m.memoryMapSize, m) := rfl

private theorem run_mapBits : mapBits.run m = (m.mapBits, m) := rfl

private theorem run_word (i : Nat) : (word i).run m = (m.memoryMapData i, m) := rfl

private theorem run_peekUsed (bit : Nat) : (peekUsed bit).run m = (Physmm.peekUsed m bit, m) := by
  rw [peekUsed, Code.run_bind, run_mapBits, Physmm.peekUsed, Code.run_ite]
  split
  next beyond => rfl
  next inside => rfl

private theorem run_mark (used : Bool) (value : Nat → BitVec 32 → BitVec 32) (count : UInt32 → UInt32) (bit : Nat) :
    (mark used value count bit).run m = ((), if bit < m.mapBits ∧ Physmm.peekUsed m bit = used then
      { m with
        memoryMapData := Function.update m.memoryMapData (bit / 32) (value bit (m.memoryMapData (bit / 32)))
        memoryMapUsed := count m.memoryMapUsed } else m) := by
  rw [mark, Code.run_bind, run_mapBits, Code.run_ite]
  by_cases inside : bit < m.mapBits
  · rw [if_pos inside, Code.run_bind, run_peekUsed, Code.run_ite]
    by_cases seen : Physmm.peekUsed m bit = used
    · rw [if_pos (beq_iff_eq.mpr seen), if_pos ⟨inside, seen⟩]
      rfl
    · rw [if_neg (mt beq_iff_eq.mp seen), if_neg fun both => seen both.2]
      rfl
  · rw [if_neg inside, if_neg fun both => inside both.1]
    rfl

private theorem run_markUsed (bit : Nat) : (markUsed bit).run m = ((), Physmm.markUsed m bit) := by
  rw [markUsed, run_mark, Physmm.markUsed]
  simp only [Bool.and_eq_true, decide_eq_true_eq, beq_iff_eq]

private theorem run_markFree (bit : Nat) : (markFree bit).run m = ((), Physmm.markFree m bit) := by
  rw [markFree, run_mark, Physmm.markFree]
  simp only [Bool.and_eq_true, decide_eq_true_eq, beq_iff_eq]

private theorem run_markUsedFrom (bit len : Nat) : (markFrom markUsed bit len).run m = ((), markUsedFrom m bit len) := by
  induction len generalizing m bit with
  | zero => rfl
  | succ len ih => rw [markFrom, Code.run_bind, run_markUsed, ih, markUsedFrom]

private theorem run_markFreeFrom (bit len : Nat) : (markFrom markFree bit len).run m = ((), markFreeFrom m bit len) := by
  induction len generalizing m bit with
  | zero => rfl
  | succ len ih => rw [markFrom, Code.run_bind, run_markFree, ih, markFreeFrom]

private theorem run_markUsedRange (addr : PhysAddr) (len : UInt64) :
    (markUsedRange addr len).run m = ((), Physmm.markUsedRange m addr len) :=
  run_markUsedFrom m ..

private theorem run_markFreeRange (addr : PhysAddr) (len : UInt64) :
    (markFreeRange addr len).run m = ((), Physmm.markFreeRange m addr len) :=
  run_markFreeFrom m ..

section Search
variable {m} {test : Nat → Access Bool} {test' : Nat → Bool × List Nat}

private theorem run_scanWord (same : ∀ bit, (test bit).run m = ((test' bit).1, m)) (i : Nat) :
    (scanWord test i).run m = ((Physmm.scanWord m test' i).1, m) := by
  have probe (bit : Nat) : (do
      let hit ← test (i * 32 + bit)
      pure (if hit then some (i * 32 + bit) else none) : Access (Option Nat)).run m =
        (if (test' (i * 32 + bit)).1 then some (i * 32 + bit) else none, m) := by
    rw [Code.run_bind, same]
    rfl
  rw [scanWord, Code.run_bind, run_word, Code.run_ite, Physmm.scanWord, Code.run_firstHit _ probe]
  split
  next partly => rw [scan_fst]
  next full => rfl

private theorem run_searchWords (same : ∀ bit, (test bit).run m = ((test' bit).1, m)) :
    (searchWords test).run m = ((Physmm.searchWords m test').1, m) := by
  rw [searchWords, Code.run_bind, Code.run_read, Code.run_bind, Code.run_firstHit _ (run_scanWord same), Physmm.searchWords,
    scan_fst]
  cases (List.range m.mapWords).findSome? fun i => (Physmm.scanWord m test' i).1 with
  | none => rfl
  | some bit => rfl

private theorem run_searchFirstFree : searchFirstFree.run m = ((Physmm.searchFirstFree m).1, m) := by
  apply run_searchWords
  intro bit
  rw [Code.run_bind, run_peekUsed]
  rfl

private theorem run_followingFree (bit num : Nat) : (followingFree bit num).run m =
    ((Physmm.followingFree m bit num).1, m) := by
  rw [followingFree, Code.run_bind, Code.run_firstHit fun n => if Physmm.peekUsed m (bit + n) == true then some
    () else none,
    Physmm.followingFree, scan_fst]
  · rfl
  · intro n
    rw [Code.run_bind, run_peekUsed]
    rfl

private theorem run_searchFirstFreeRange (num : UInt32) :
    (searchFirstFreeRange num).run m = ((Physmm.searchFirstFreeRange m num).1, m) := by
  rw [searchFirstFreeRange, Physmm.searchFirstFreeRange]
  split
  next few =>
    split
    next zero => rfl
    next one => exact run_searchFirstFree
  next many =>
    apply run_searchWords
    intro bit
    rw [Code.run_bind, run_peekUsed]
    split
    next free => exact run_followingFree bit num.toNat
    next taken => rfl

end Search

private theorem run_pageIndex (addr : PhysAddr) : (pageIndex addr).run m = ((xpa m addr >>> pageShift).toNat, m) := rfl

private theorem run_setPages {store : Nat → Access Unit} {entry : Nat → PageMap} (keeps : State → Prop)
    (stored : ∀ m, keeps m → ∀ i, (store i).run m = ((), { m with pageMaps := Function.update m.pageMaps i (entry i) }))
    (kept : ∀ m addr, keeps m → keeps (m.setPage addr entry)) {m : State} (holds : keeps m) (addr : PhysAddr) (len : Nat) :
    (setPages store addr len).run m = ((), Physmm.setPages m addr entry len) := by
  induction len generalizing m addr with
  | zero =>
    rw [setPages, Code.run_bind, run_pageIndex]
    exact stored m holds _
  | succ len ih =>
    rw [setPages, Code.run_bind, run_pageIndex, Code.run_bind, stored m holds]
    exact ih (kept m addr holds) (addr + pageSize)

private theorem run_flagPageRange (addr : PhysAddr) (flags : Flags) (len : UInt64) :
    (flagPageRange addr flags len).run m = ((), Physmm.flagPageRange m addr flags len) := by
  refine run_setPages (fun after => after.memoryMapPages = m.memoryMapPages) ?_ (fun _ _ same => same) rfl addr _
  intro after same i
  simp only [setEntry, Code.run_bind, Code.run_read, Code.run_write, Function.update_self, Function.update_idem,
    State.flagged, State.linkAddr, same]

private theorem run_resetPageRange (addr : PhysAddr) (len : UInt64) :
    (resetPageRange addr len).run m = ((), Physmm.resetPageRange m addr len) := by
  refine run_setPages (fun _ => True) ?_ (fun _ _ _ => trivial) trivial addr _
  intro after _ i
  simp only [setEntry, Code.run_bind, Code.run_write, Function.update_self, Function.update_idem, unusedPage]

private theorem run_freePageCount : freePageCount.run m = (Physmm.freePageCount m, m) := rfl

private theorem run_scopedLock {β : Type} (body : Access β) : (scopedLock body).run m = body.run m := by
  rw [scopedLock, Code.run_bind, Code.run_acquire, Code.run_bind, Code.run_bind, Code.run_release]
  rfl

private theorem grant_base (addr : PhysAddr) (flags : Flags) (len : UInt64) :
    (Physmm.flagPageRange (Physmm.markUsedRange m addr len) addr flags len).memoryMapBase = m.memoryMapBase :=
  ((markUsedFrom_layout m _ _).1.trans (setPages_layout ..)).base

private theorem run_allocPage (flags : Flags) : (allocPage flags).run m = Physmm.allocPage m flags := by
  rw [allocPage, run_scopedLock, Code.run_bind, run_freePageCount, Code.run_ite, Physmm.allocPage]
  split
  next full => rfl
  next free =>
    rw [Code.run_bind, run_searchFirstFree, Code.run_ite]
    dsimp only
    split
    next missing => rfl
    next found =>
      rw [Code.run_bind, run_markUsedRange, Code.run_bind, run_flagPageRange, Code.run_bind, run_memoryMapBase, grant_base]
      rfl

private theorem run_allocPageRange (count : UInt32) (flags : Flags) :
    (allocPageRange count flags).run m = Physmm.allocPageRange m count flags := by
  rw [allocPageRange, Physmm.allocPageRange]
  split
  next few => exact run_allocPage m flags
  next many =>
    rw [Code.run_bind, run_scopedLock, Code.run_bind, run_freePageCount, Code.run_ite]
    by_cases full : Physmm.freePageCount m < count
    · rw [if_pos full, if_pos full]
      rfl
    · rw [if_neg full, if_neg full, Code.run_bind, run_searchFirstFreeRange, Code.run_ite]
      dsimp only
      by_cases missing : (Physmm.searchFirstFreeRange m count).1 = 0
      · rw [if_pos missing, if_pos missing]
        rfl
      · rw [if_neg missing, if_neg missing, Code.run_bind, run_markUsedRange, Code.run_bind, run_flagPageRange]
        rw [Code.run_pure]
        dsimp only
        rw [Code.run_bind, run_memoryMapBase, grant_base]
        rfl

private theorem run_dropOffset (page : UInt64) : (dropOffset page).run m = (Physmm.dropOffset m page, m) := by
  rw [dropOffset, Code.run_bind, run_memoryMapBase, Code.run_ite, Physmm.dropOffset]
  split
  next above => rfl
  next below => rfl

theorem run_release (addr : PhysAddr) (len : UInt64) :
    (release addr len).run m = (none, Physmm.resetPageRange (Physmm.markFreeRange m addr len) addr len) := by
  rw [release, Code.run_bind, run_scopedLock, Code.run_bind, run_markFreeRange, run_resetPageRange]
  rfl

private theorem run_freePage (page : UInt64) : (freePage page).run m = (none, Physmm.freePage m page) := by
  rw [freePage, Code.run_bind, run_dropOffset, Code.run_ite, Physmm.freePage]
  dsimp only
  split
  next low => rfl
  next high =>
    rw [Code.run_bind, run_memoryMapSize, Code.run_ite]
    dsimp only
    by_cases beyond : boundWeight (Physmm.dropOffset m page) > (m.memoryMapSize * 8).toUInt64
    · rw [if_pos beyond, if_pos beyond]
      rfl
    · rw [if_neg beyond, if_neg beyond]
      exact run_release m ..

private theorem run_clampCount (addr : PhysAddr) (count : Nat) :
    (clampCount addr count).run m = (Physmm.clampCount m addr count, m) := by
  induction count with
  | zero => rfl
  | succ count ih =>
    rw [clampCount, Code.run_bind, run_memoryMapSize, Code.run_ite, Physmm.clampCount, ih]
    dsimp only
    split
    next fits => rfl
    next beyond => rfl

private theorem run_freePageRange (page : UInt64) (count : UInt32) :
    (freePageRange page count).run m = (none, Physmm.freePageRange m page count) := by
  rw [freePageRange, Code.run_bind, run_dropOffset, Code.run_ite, Physmm.freePageRange]
  dsimp only
  split
  next low => rfl
  next high =>
    rw [Code.run_bind, run_clampCount, Code.run_ite]
    by_cases some' : Physmm.clampCount m (Physmm.dropOffset m page) (if count < 1 then 1 else count).toNat ≠ 0
    · rw [if_pos some', if_pos some']
      exact run_release m ..
    · rw [if_neg some', if_neg some']
      rfl

section Discipline
variable {stage : Stage} {final : Stage → Prop}

/-- Inside the section a part of a call leaves the base offset and the size alone. -/
abbrev Within {β : Type} (code : Access β) : Prop := code.Follows State.view .inside (· = .inside)

private theorem within_pure {β : Type} (answer : β) : Within (pure answer) := Code.follows_pure.mpr rfl

private theorem follows_memoryMapBase : memoryMapBase.Follows State.view stage (· = stage) := Code.follows_look Prod.fst

private theorem follows_memoryMapSize : memoryMapSize.Follows State.view stage (· = stage) := Code.follows_look Prod.snd

private theorem within_mapBits : Within mapBits := Code.follows_then follows_memoryMapSize fun _ => within_pure _

private theorem within_word (i : Nat) : Within (word i) := Code.follows_read

private theorem within_setWord (i : Nat) (value : BitVec 32) : Within (setWord i value) := Code.follows_write fun _ => rfl

private theorem within_peekUsed (bit : Nat) : Within (peekUsed bit) := by
  apply Code.follows_then within_mapBits
  intro size
  apply Code.follows_ite
  · exact fun _ => within_pure true
  · exact fun _ => Code.follows_then (within_word _) fun _ => within_pure _

private theorem within_mark (used : Bool) (value : Nat → BitVec 32 → BitVec 32) (count : UInt32 → UInt32) (bit : Nat) :
    Within (mark used value count bit) := by
  apply Code.follows_then within_mapBits
  intro size
  apply Code.follows_ite
  · intro inside
    apply Code.follows_then (within_peekUsed bit)
    intro seen
    apply Code.follows_ite
    · intro same
      apply Code.follows_then (within_word _)
      intro old
      apply Code.follows_then (within_setWord ..)
      intro _
      apply Code.follows_then Code.follows_read
      intro total
      exact Code.follows_write fun _ => rfl
    · exact fun _ => within_pure ()
  · exact fun _ => within_pure ()

private theorem within_markFrom {mark : Nat → Access Unit} (each : ∀ bit, Within (mark bit)) (bit len : Nat) :
    Within (markFrom mark bit len) := by
  induction len generalizing bit with
  | zero => exact within_pure ()
  | succ len ih => exact Code.follows_then (each bit) fun _ => ih (bit + 1)

private theorem within_markUsedRange (addr : PhysAddr) (len : UInt64) : Within (markUsedRange addr len) :=
  within_markFrom (fun _ => within_mark ..) ..

private theorem within_markFreeRange (addr : PhysAddr) (len : UInt64) : Within (markFreeRange addr len) :=
  within_markFrom (fun _ => within_mark ..) ..

private theorem within_scanWord {test : Nat → Access Bool} (each : ∀ bit, Within (test bit)) (i : Nat) :
    Within (scanWord test i) := by
  apply Code.follows_then (within_word i)
  intro value
  apply Code.follows_ite
  · intro partly
    apply Code.follows_firstHit
    exact fun bit => Code.follows_then (each _) fun _ => within_pure _
  · exact fun _ => within_pure none

private theorem within_searchWords {test : Nat → Access Bool} (each : ∀ bit, Within (test bit)) : Within
    (searchWords test) := by
  apply Code.follows_then Code.follows_read
  intro words
  apply Code.follows_then (Code.follows_firstHit (within_scanWord each) _)
  intro found
  cases found with
  | none => exact within_pure 0
  | some bit => exact within_pure _

private theorem within_searchFirstFree : Within searchFirstFree :=
  within_searchWords fun bit => Code.follows_then (within_peekUsed bit) fun _ => within_pure _

private theorem within_followingFree (bit num : Nat) : Within (followingFree bit num) := by
  apply Code.follows_then
  · apply Code.follows_firstHit
    exact fun n => Code.follows_then (within_peekUsed _) fun _ => within_pure _
  · exact fun broken => within_pure _

private theorem within_searchFirstFreeRange (num : UInt32) : Within (searchFirstFreeRange num) := by
  apply Code.follows_ite
  · intro few
    apply Code.follows_ite
    · exact fun _ => within_pure 0
    · exact fun _ => within_searchFirstFree
  · intro many
    apply within_searchWords
    intro bit
    apply Code.follows_then (within_peekUsed bit)
    intro used
    apply Code.follows_ite
    · exact fun _ => within_followingFree bit num.toNat
    · exact fun _ => within_pure false

private theorem within_setPages {store : Nat → Access Unit} (each : ∀ i, Within (store i)) (addr : PhysAddr) (len : Nat) :
    Within (setPages store addr len) := by
  have index (addr : PhysAddr) : Within (pageIndex addr) :=
    Code.follows_then follows_memoryMapBase fun _ => within_pure _
  induction len generalizing addr with
  | zero => exact Code.follows_then (index addr) each
  | succ len ih =>
    apply Code.follows_then (index addr)
    intro i
    exact Code.follows_then (each i) fun _ => ih (addr + pageSize)

private theorem within_setEntry (i : Nat) (entry : PageMap → PageMap) : Within (setEntry i entry) :=
  Code.follows_write fun _ => rfl

private theorem within_flagPageRange (addr : PhysAddr) (flags : Flags) (len : UInt64) : Within
    (flagPageRange addr flags len) := by
  apply within_setPages
  intro i
  apply Code.follows_then Code.follows_read
  intro link
  exact Code.follows_then (within_setEntry ..) fun _ => within_setEntry ..

private theorem within_resetPageRange (addr : PhysAddr) (len : UInt64) : Within (resetPageRange addr len) :=
  within_setPages (fun _ => Code.follows_then (within_setEntry ..) fun _ => within_setEntry ..) ..

private theorem within_freePageCount : Within freePageCount := by
  apply Code.follows_then follows_memoryMapSize
  intro size
  exact Code.follows_then Code.follows_read fun _ => within_pure _

private theorem follows_scopedLock {β : Type} {body : Access β} (inner : Within body) :
    (scopedLock body).Follows State.view .before (· = .after) :=
  Code.follows_section inner fun _ => Code.follows_pure.mpr rfl

private theorem follows_allocPage (flags : Flags) : (allocPage flags).Follows State.view .before (· = .after) := by
  apply follows_scopedLock
  apply Code.follows_then within_freePageCount
  intro free
  apply Code.follows_ite
  · exact fun _ => within_pure none
  · intro enough
    apply Code.follows_then within_searchFirstFree
    intro addr
    apply Code.follows_ite
    · exact fun _ => within_pure none
    · intro found
      apply Code.follows_then (within_markUsedRange ..)
      intro _
      apply Code.follows_then (within_flagPageRange ..)
      intro _
      exact Code.follows_then follows_memoryMapBase fun _ => within_pure _

private theorem follows_allocPageRange (count : UInt32) (flags : Flags) :
    (allocPageRange count flags).Follows State.view .before (· = .after) := by
  apply Code.follows_ite
  · exact fun _ => follows_allocPage flags
  · intro many
    refine Code.follows_bind (follows_scopedLock ?_) ?_
    · apply Code.follows_then within_freePageCount
      intro free
      apply Code.follows_ite
      · exact fun _ => within_pure none
      · intro enough
        apply Code.follows_then (within_searchFirstFreeRange count)
        intro addr
        apply Code.follows_ite
        · exact fun _ => within_pure none
        · intro found
          apply Code.follows_then (within_markUsedRange ..)
          intro _
          exact Code.follows_then (within_flagPageRange ..) fun _ => within_pure _
    · rintro found _ rfl
      cases found with
      | none => exact Code.follows_pure.mpr rfl
      | some addr => exact Code.follows_then follows_memoryMapBase fun _ => Code.follows_pure.mpr rfl

private theorem follows_dropOffset (page : UInt64) : (dropOffset page).Follows State.view stage (· = stage) := by
  apply Code.follows_then follows_memoryMapBase
  intro base
  apply Code.follows_ite
  · exact fun _ => Code.follows_then follows_memoryMapBase fun _ => Code.follows_pure.mpr rfl
  · exact fun _ => Code.follows_pure.mpr rfl

theorem follows_release (addr : PhysAddr) (len : UInt64) :
    (release addr len).Follows State.view .before (· ≠ .inside) := by
  refine Code.follows_bind (follows_scopedLock ?_) ?_
  · exact Code.follows_then (within_markFreeRange ..) fun _ => within_resetPageRange ..
  · rintro _ _ rfl
    exact Code.follows_pure.mpr (by decide)

private theorem follows_return : (pure none : Access (Option UInt64)).Follows State.view .before (· ≠ .inside) :=
  Code.follows_pure.mpr (by decide)

private theorem follows_freePage (page : UInt64) : (freePage page).Follows State.view .before (· ≠ .inside) := by
  apply Code.follows_then (follows_dropOffset page)
  intro addr
  apply Code.follows_ite
  · exact fun _ => follows_return
  · intro high
    apply Code.follows_then follows_memoryMapSize
    intro size
    apply Code.follows_ite
    · exact fun _ => follows_return
    · exact fun _ => follows_release addr pageSize

private theorem follows_clampCount (addr : PhysAddr) (count : Nat) :
    (clampCount addr count).Follows State.view stage (· = stage) := by
  induction count with
  | zero => exact Code.follows_pure.mpr rfl
  | succ count ih =>
    apply Code.follows_then follows_memoryMapSize
    intro size
    apply Code.follows_ite
    · exact fun _ => Code.follows_pure.mpr rfl
    · exact fun _ => ih

private theorem follows_freePageRange (page : UInt64) (count : UInt32) :
    (freePageRange page count).Follows State.view .before (· ≠ .inside) := by
  apply Code.follows_then (follows_dropOffset page)
  intro addr
  apply Code.follows_ite
  · exact fun _ => follows_return
  · intro high
    apply Code.follows_then (follows_clampCount ..)
    intro count
    apply Code.follows_ite
    · exact fun _ => follows_release ..
    · exact fun _ => follows_return

end Discipline

end Stepwise

private theorem Call.code_run (call : Call) (m : State) : call.code.run m = call.exec m := by
  cases call with
  | allocPage flags => exact Stepwise.run_allocPage m flags
  | allocPageRange count flags => exact Stepwise.run_allocPageRange m count flags
  | freePage page => exact Stepwise.run_freePage m page
  | freePageRange page count => exact Stepwise.run_freePageRange m page count

private theorem Call.code_follows (call : Call) : call.code.Follows State.view .before (· ≠ .inside) := by
  have settled (stage : Stage) (last : stage = .after) : stage ≠ .inside := by
    rw [last]
    decide
  cases call with
  | allocPage flags => exact (Stepwise.follows_allocPage flags).mono settled
  | allocPageRange count flags => exact (Stepwise.follows_allocPageRange count flags).mono settled
  | freePage page => exact Stepwise.follows_freePage page
  | freePageRange page count => exact Stepwise.follows_freePageRange page count

section Interleaving
variable {τ : Type} [DecidableEq τ] {m : State} {moves : List (Move τ Call)} {trace : List (Shown τ Call (Option UInt64))}
  {w : Threads τ State (Option UInt64)}

theorem interleaving_refines (ran : runTrace (Threads.step Call.code) (Threads.start m) moves = some (trace, w)) :
    ∃ turns o stage, runTrace (Object.step Call.exec) (Object.start m) turns = some (trace, o) ∧
      Refines Call.exec State.view w o stage :=
  Refines.run Call.code_follows Call.code_run ran

/-- Whatever the schedule, the calls answer as if each took effect at once, somewhere
between its entry and its return; and so does the map once the lock is free. -/
theorem calls_take_effect_at_once (ran : runTrace (Threads.step Call.code) (Threads.start m) moves = some (trace, w)) :
    ∃ turns o, runTrace (Object.step Call.exec) (Object.start m) turns = some (trace, o) ∧
      (w.taken = false → w.data = o.data) := by
  obtain ⟨turns, o, stage, shown, refines⟩ := interleaving_refines ran
  exact ⟨turns, o, shown, fun free => (refines.free free).symm⟩

/-- Two processors allocate a page each, and the first one frees its page meanwhile. -/
def twoProcessors : List (Move Bool Call) :=
  [.call true (.allocPage kActive), .call false (.allocPage kLocked)] ++ List.replicate 10 (.go true) ++
    List.replicate 5 (.go false) ++ List.replicate 17 (.go true) ++ List.replicate 20 (.go false) ++
    [.call true (.freePage 0x1000)] ++ List.replicate 10 (.go true) ++ List.replicate 9 (.go false)

def twoPages : State := setMemoryMap [0xfffffff1, 0xffffffff] 61

theorem calls_take_effect_at_once_witness :
    ∃ trace w, runTrace (Threads.step Call.code) (Threads.start twoPages) twoProcessors = some (trace, w) ∧
      ∃ turns o, runTrace (Object.step Call.exec) (Object.start twoPages) turns = some (trace, o) ∧
        (w.taken = false → w.data = o.data) := by
  have possible : (runTrace (Threads.step Call.code) (Threads.start twoPages) twoProcessors).isSome := by decide +kernel
  obtain ⟨⟨trace, w⟩, ran⟩ := Option.isSome_iff_exists.mp possible
  exact ⟨trace, w, ran, calls_take_effect_at_once ran⟩

/-- No schedule blocks a call for good, and no two processors collide on the map: while
one is about to change it, every other one reads at most what no call writes. -/
theorem calls_return_without_races (ran : runTrace (Threads.step Call.code) (Threads.start m) moves = some (trace, w)) :
    (∀ thread rest, w.running thread = some rest →
      ∃ later shown w', runTrace (Threads.step Call.code) w later = some (shown, w') ∧ w'.running thread = none) ∧
    ∀ thread other effect next effect' next', other ≠ thread →
      w.running thread = some (.act effect next) → w.running other = some (.act effect' next') →
      (∃ m, effect m ≠ m) →
      (∀ m, (effect m).view = m.view) ∧ (∀ m, effect' m = m) ∧ ∀ m m', m.view = m'.view → next' m = next' m' := by
  obtain ⟨turns, o, stage, shown, refines⟩ := interleaving_refines ran
  refine ⟨fun thread rest here => refines.returns Call.code here, ?_⟩
  intro thread other effect next effect' next' different here there writes
  exact refines.no_race here there different writes

theorem calls_return_without_races_witness :
    ∃ trace w, runTrace (Threads.step Call.code) (Threads.start twoPages) twoProcessors = some (trace, w) ∧
      (∀ thread rest, w.running thread = some rest →
        ∃ later shown w', runTrace (Threads.step Call.code) w later = some (shown, w') ∧ w'.running thread = none) ∧
      ∀ thread other effect next effect' next', other ≠ thread →
        w.running thread = some (.act effect next) → w.running other = some (.act effect' next') →
        (∃ m, effect m ≠ m) →
        (∀ m, (effect m).view = m.view) ∧ (∀ m, effect' m = m) ∧ ∀ m m', m.view = m'.view → next' m = next' m' := by
  have possible : (runTrace (Threads.step Call.code) (Threads.start twoPages) twoProcessors).isSome := by decide +kernel
  obtain ⟨⟨trace, w⟩, ran⟩ := Option.isSome_iff_exists.mp possible
  exact ⟨trace, w, ran, calls_return_without_races ran⟩

end Interleaving

end Hotarubi.Memory.Physmm
