import Hotarubi.Proofs.CacheSystem

/-! A new slab that cannot be made. Whatever is missing, the call either writes
through the null pointer or comes back with the lock of the cache taken. -/

namespace Hotarubi.Memory.Cache
open Base Ring Chain Include

section Failure

variable {σ : Type} {limit : Nat} {c : Config} {supply : Supply σ} {s s' : State} {m m' : σ}
  {backing slab left i : Nat}

/-- The descriptor of one of the next buffers cannot be had. -/
inductive Lacks (c : Config) (supply : Supply σ) (backing : Nat) : Nat → Nat → σ → Prop
  | here {left i : Nat} {m m1 : σ}
    (refused : bufctlFor c supply (backing + c.bufferSize * i) m = some (none, m1)) :
    Lacks c supply backing (left + 1) i m
  | later {left i bufctl : Nat} {m m1 : σ}
    (given : bufctlFor c supply (backing + c.bufferSize * i) m = some (some bufctl, m1))
    (lacks : Lacks c supply backing left (i + 1) m1) : Lacks c supply backing (left + 1) i m

/-- The backend, the slab cache or, at any buffer, the descriptor cache cannot
supply what a new slab needs. -/
inductive Starved (c : Config) (supply : Supply σ) (m : σ) : Prop
  | backing {m1 : σ} (refused : supply.slabAlloc c.allocSize m = some (none, m1))
  | slab {backing : Nat} {m1 m2 m3 : σ} (backed : supply.slabAlloc c.allocSize m = some (some backing, m1))
    (associated : supply.associate (some backing) m1 = some m2) (refused : slabFor c supply backing m2 = some (none, m3))
  | bufctl {backing slab : Nat} {m1 m2 m3 : σ} (backed : supply.slabAlloc c.allocSize m = some (some backing, m1))
    (associated : supply.associate (some backing) m1 = some m2)
    (own : slabFor c supply backing m2 = some (some slab, m3)) (lacks : Lacks c supply backing c.buffers 0 m3)

/-- The call ends without a write through a null pointer, returns null, and leaves
no trace: the locks are free, and the lists, the object map and the statistics are
as they were. `idle` says that the locks of the internal caches are free. -/
def FailsCleanly (idle : σ → Prop) (limit : Nat) (c : Config) (supply : Supply σ) (s : State) (m : σ) : Prop :=
  ∃ s' m', getObject limit c supply s m = some (none, s', m') ∧ s'.locked = false ∧ idle m' ∧
    (∀ list ∈ .objMap :: shelves, ∀ xs, IsRing s.links list xs → IsRing s'.links list xs) ∧ s'.stats = s.stats

theorem dropBacking_locked {answer : Option Nat} (ran : dropBacking c supply backing s m = some (answer, s', m')) :
    answer = none ∧ s'.locked = s.locked := by
  obtain ⟨m1, _, result⟩ := Option.bind_eq_some_iff.mp ran
  cases result
  exact ⟨rfl, rfl⟩

theorem dropBufctls_locked {answer : Option Nat}
    (ran : dropBufctls limit c supply backing slab s m = some (answer, s', m')) :
    answer = none ∧ s'.locked = s.locked := by
  unfold dropBufctls at ran
  split at ran
  next => cases ran
  next =>
    obtain ⟨⟨s1, m1⟩, visited, ran⟩ := Option.bind_eq_some_iff.mp ran
    obtain ⟨m2, _, ran⟩ := Option.bind_eq_some_iff.mp ran
    have kept : s1.locked = s.locked := by
      refine visitMutable_kept (fun state : State × σ => state.1.locked = s.locked) ?_ rfl visited
      rintro ⟨s2, m3⟩ bufctl ⟨s3, m4⟩ before step
      obtain ⟨word, _, step⟩ := Option.bind_eq_some_iff.mp step
      obtain ⟨links, _, step⟩ := Option.bind_eq_some_iff.mp step
      obtain ⟨m5, _, step⟩ := Option.bind_eq_some_iff.mp step
      cases step
      exact before
    obtain ⟨none', locked⟩ := dropBacking_locked ran
    exact ⟨none', locked.trans kept⟩

private theorem fillSlab_lacks (lacks : Lacks c supply backing left i m) {filled : Bool}
    (ran : fillSlab c supply backing slab left i s m = some (filled, s', m')) :
    filled = false ∧ s'.locked = s.locked := by
  induction lacks generalizing s with
  | here refused =>
    rw [fillSlab] at ran
    simp only [refused, Option.bind_eq_bind, Option.bind_some] at ran
    cases ran
    exact ⟨rfl, rfl⟩
  | later given _ ih =>
    rw [fillSlab] at ran
    simp only [given, Option.bind_eq_bind, Option.bind_some] at ran
    obtain ⟨s1, added, ran⟩ := Option.bind_eq_some_iff.mp ran
    obtain ⟨missed, locked⟩ := ih ran
    exact ⟨missed, locked.trans (addBuffer_effect added).1.locked⟩

private theorem slabAlloc_starved (starved : Starved c supply m) {answer : Option Nat}
    (ran : slabAlloc limit c supply s m = some (answer, s', m')) : answer = none ∧ s'.locked = s.locked := by
  unfold slabAlloc at ran
  cases starved with
  | @backing m1 refused =>
    simp only [refused, Option.bind_eq_bind, Option.bind_some] at ran
    obtain ⟨_, _, ran⟩ := Option.bind_eq_some_iff.mp ran
    cases ran
  | slab backed associated refused =>
    simp only [backed, associated, refused, Option.bind_eq_bind, Option.bind_some] at ran
    obtain ⟨none', locked⟩ := dropBacking_locked ran
    exact ⟨none', locked⟩
  | bufctl backed associated own lacks =>
    simp only [backed, associated, own, Option.bind_eq_bind, Option.bind_some] at ran
    split at ran
    next => cases ran
    next =>
      split at ran
      next =>
        obtain ⟨none', locked⟩ := dropBufctls_locked ran
        exact ⟨none', locked⟩
      next =>
        obtain ⟨⟨filled, s1, m4⟩, looped, ran⟩ := Option.bind_eq_some_iff.mp ran
        obtain ⟨rfl, locked⟩ := fillSlab_lacks lacks looped
        obtain ⟨none', locked'⟩ := dropBufctls_locked ran
        exact ⟨none', locked'.trans locked⟩

/-- A call that cannot get a new slab never fails cleanly: if it comes back at all,
the cache stays locked. -/
theorem growth_never_clean (idle : σ → Prop) (limit : Nat) (noUsed : listEmpty s.links .used = true)
    (noFree : listEmpty s.links .free = true) (starved : Starved c supply m) :
    ¬ FailsCleanly idle limit c supply s m := by
  rintro ⟨s', m', ran, unlocked, _⟩
  unfold getObject at ran
  split at ran
  next => cases ran
  next =>
    obtain ⟨⟨list, s1, m1⟩, chosen, ran⟩ := Option.bind_eq_some_iff.mp ran
    have stuck : list = none ∧ s1.locked = true := by
      unfold slabList at chosen
      simp only [noUsed, noFree, if_true] at chosen
      obtain ⟨⟨answer, s2, m2⟩, allocated, chosen⟩ := Option.bind_eq_some_iff.mp chosen
      obtain ⟨rfl, locked⟩ := slabAlloc_starved starved allocated
      cases chosen
      exact ⟨rfl, locked⟩
    obtain ⟨rfl, locked⟩ := stuck
    cases ran
    rw [locked] at unlocked
    cases unlocked

end Failure

/-- A supply of descriptors over a backend that has run out of memory. -/
def noBacking : Supply Nat := { bump with slabAlloc := fun _ m => some (none, m) }

private theorem noBacking_starved (c : Config) (m : Nat) : Starved c noBacking m := .backing rfl

theorem growth_never_clean_witness :
    ¬ FailsCleanly (fun _ => True) 11 (cacheInit 2000 0 false) noBacking .initial 4096 :=
  growth_never_clean (fun _ => True) 11 (by decide) (by decide) (noBacking_starved _ _)

/-- A new cache is asked for an object when no page is left: the new slab is cleared
through the null pointer, and the call does not come back. -/
theorem growth_writes_null : ¬ ∀ (limit size align : Nat) (checkOverflow : Bool) (supply : Supply Nat) (m : Nat)
    (events : List Event) (w : World Nat),
    EachStep (Event.exec limit (cacheInit size align checkOverflow) supply)
      (Event.Promised (cacheInit size align checkOverflow) supply) (.initial m) events →
    runCalls (Event.exec limit (cacheInit size align checkOverflow) supply) (.initial m) events = some w →
    listEmpty w.state.links .used = true → listEmpty w.state.links .free = true →
    Starved (cacheInit size align checkOverflow) supply w.supply →
    FailsCleanly (fun _ => True) limit (cacheInit size align checkOverflow) supply w.state w.supply := by
  intro claim
  obtain ⟨s', m', ran, _⟩ := claim 11 2000 0 false noBacking 4096 [] (.initial 4096) trivial rfl
    (by decide) (by decide) (noBacking_starved _ _)
  have stuck : (getObject 11 (cacheInit 2000 0 false) noBacking .initial 4096).isSome = false := by decide +kernel
  rw [show getObject 11 (cacheInit 2000 0 false) noBacking .initial 4096 = some (none, s', m') from ran] at stuck
  cases stuck

end Hotarubi.Memory.Cache
