import Hotarubi.Proofs.CacheSystem

/-! A call that needed a slab and came back was granted what a slab needs, if the
supply refuses no descriptors. -/

namespace Hotarubi.Memory.Cache
open Base Ring Chain Include

section Granted

variable {σ : Type} {limit : Nat} {c : Config} {supply : Supply σ} {s s' : State} {m m' : σ} {g : Ledger}
  {handed : List Nat} {answer : Option Nat} {backing slab left i object bufctl : Nat}

/-- The loop that fills a slab got its descriptors, and a property of the supply
that each of them keeps holds at the end. -/
private theorem fillSlab_gets {given : List Nat → σ → Prop}
    (next : ∀ done buffer m answer m1, given done m → bufctlFor c supply buffer m = some (answer, m1) →
      ∃ bufctl, answer = some bufctl ∧ given (bufctl :: done) m1)
    {done : List Nat} (start : given done m) {filled : Bool}
    (ran : fillSlab c supply backing slab left i s m = some (filled, s', m')) :
    ∃ bufctls, Gets c supply backing left i m bufctls m' ∧ given (bufctls.reverse ++ done) m' := by
  induction left generalizing s m i done with
  | zero =>
    cases ran
    exact ⟨[], .none, start⟩
  | succ left ih =>
    rw [fillSlab] at ran
    obtain ⟨⟨answer, m1⟩, found, ran⟩ := Option.bind_eq_some_iff.mp ran
    obtain ⟨bufctl, rfl, more⟩ := next done _ m answer m1 start found
    obtain ⟨s1, _, ran⟩ := Option.bind_eq_some_iff.mp ran
    obtain ⟨bufctls, gets, all⟩ := ih more ran
    exact ⟨bufctl :: bufctls, .next found gets, by simpa using all⟩

/-- What a new slab needs was granted: the block, its entry in the page map, the
slab's own descriptor and those of its buffers. -/
theorem getObject_granted (given : Nat → Nat → List Nat → σ → Prop) (regular : c.Regular)
    (slabs : ∀ backing m1 m2 answer m3, supply.slabAlloc c.allocSize m = some (some backing, m1) →
      supply.associate (some backing) m1 = some m2 → slabFor c supply backing m2 = some (answer, m3) →
      ∃ slab, answer = some slab ∧ given backing slab [] m3)
    (next : ∀ backing slab done buffer m answer m1, given backing slab done m →
      bufctlFor c supply buffer m = some (answer, m1) →
      ∃ bufctl, answer = some bufctl ∧ given backing slab (bufctl :: done) m1)
    (noUsed : listEmpty s.links .used = true) (noFree : listEmpty s.links .free = true)
    (got : getObject limit c supply s m = some (answer, s', m')) :
    ∃ backing slab bufctls m1, Grows c supply m backing slab bufctls m1 ∧ given backing slab bufctls.reverse m1 := by
  unfold getObject at got
  split at got
  · cases got
  obtain ⟨⟨list, s1, m1⟩, chosen, _⟩ := Option.bind_eq_some_iff.mp got
  unfold slabList at chosen
  simp only [noUsed, noFree, if_true] at chosen
  obtain ⟨⟨made, s2, m2⟩, allocated, _⟩ := Option.bind_eq_some_iff.mp chosen
  unfold slabAlloc at allocated
  obtain ⟨⟨block, m3⟩, backed, allocated⟩ := Option.bind_eq_some_iff.mp allocated
  obtain ⟨m4, associated, allocated⟩ := Option.bind_eq_some_iff.mp allocated
  obtain ⟨backing, rfl⟩ : ∃ backing, block = some backing := by
    cases block with
    | none => cases allocated
    | some backing => exact ⟨backing, rfl⟩
  simp only [Option.bind_eq_bind, Option.bind_some] at allocated
  obtain ⟨⟨own, m5⟩, described, allocated⟩ := Option.bind_eq_some_iff.mp allocated
  obtain ⟨slab, rfl, start⟩ := slabs backing m3 m4 own m5 backed associated described
  rcases Nat.eq_zero_or_pos c.buffers with barren | served
  · refine ⟨backing, slab, [], m5, ⟨m3, m4, m5, backed, associated, described, ?_⟩, start⟩
    rw [barren]
    exact .none
  · have size := bufferSize_pos served
    have bound : ¬ (c.buffers = 0 ∨ c.bufferSize > c.allocSize) := by
      have := buffer_lt regular served
      omega
    simp only [if_neg (Nat.ne_of_gt size), if_neg bound] at allocated
    obtain ⟨⟨filled, s3, m6⟩, looped, _⟩ := Option.bind_eq_some_iff.mp allocated
    obtain ⟨bufctls, gets, all⟩ := fillSlab_gets (next backing slab) start looped
    exact ⟨backing, slab, bufctls, m6, ⟨m3, m4, m5, backed, associated, described, gets⟩, by simpa using all⟩

theorem Gets.unique {rest rest' : List Nat} {m1 m2 : σ} (gets : Gets c supply backing left i m rest m1)
    (gets' : Gets c supply backing left i m rest' m2) : rest = rest' ∧ m1 = m2 := by
  induction gets generalizing rest' m2 with
  | none =>
    cases gets'
    exact ⟨rfl, rfl⟩
  | next here _ ih =>
    cases gets' with
    | next here' later' =>
      cases here.symm.trans here'
      obtain ⟨rfl, rfl⟩ := ih later'
      exact ⟨rfl, rfl⟩

theorem Grows.unique {backing' slab' : Nat} {bufctls bufctls' : List Nat} {m1 m2 : σ}
    (grows : Grows c supply m backing slab bufctls m1) (grows' : Grows c supply m backing' slab' bufctls' m2) :
    backing = backing' ∧ slab = slab' ∧ bufctls = bufctls' ∧ m1 = m2 := by
  obtain ⟨a1, a2, a3, backed, associated, own, gets⟩ := grows
  obtain ⟨b1, b2, b3, backed', associated', own', gets'⟩ := grows'
  cases backed.symm.trans backed'
  cases associated.symm.trans associated'
  cases own.symm.trans own'
  obtain ⟨rfl, rfl⟩ := gets.unique gets'
  exact ⟨rfl, rfl, rfl, rfl⟩

theorem Kept.place (kept : Kept c s g handed) (taken : object ∈ handed) (origin : s.origin object = some (slab, bufctl)) :
    slab ∈ s.made ∧ ∃ i < c.buffers, object = s.backing slab + c.bufferSize * i := by
  obtain ⟨other, member, b, cell, out, rfl⟩ := (kept.holds.account object).mp taken
  have named := (kept.holds.balanced other member).origin b cell out
  obtain ⟨rfl, rfl⟩ := Prod.mk.inj (Option.some.inj (named.symm.trans origin))
  exact ⟨member, (kept.holds.carved other member).object b cell⟩

theorem Kept.origin (kept : Kept c s g handed) (taken : object ∈ handed) :
    ∃ slab bufctl, s.origin object = some (slab, bufctl) := by
  obtain ⟨slab, member, b, cell, out, rfl⟩ := (kept.holds.account object).mp taken
  exact ⟨slab, b, (kept.holds.balanced slab member).origin b cell out⟩

/-- An object lies in the block of a slab. -/
theorem Kept.inside (kept : Kept c s g handed) (regular : c.Regular) (taken : object ∈ handed) :
    ∃ slab ∈ s.made, s.backing slab ≤ object ∧ object + c.bufferSize ≤ s.backing slab + c.allocSize := by
  obtain ⟨slab, bufctl, origin⟩ := kept.origin taken
  obtain ⟨made, i, bound, rfl⟩ := kept.place taken origin
  have whole := buffer_lt regular bound
  rw [Nat.mul_add_one] at whole
  exact ⟨slab, made, by omega, by omega⟩

/-- Objects share no address where slabs share none. -/
theorem Kept.apart (kept : Kept c s g handed) (regular : c.Regular)
    (blocks : ∀ slab ∈ s.made, ∀ other ∈ s.made, slab ≠ other →
      Block.Apart ⟨s.backing slab, c.allocSize⟩ ⟨s.backing other, c.allocSize⟩) {x y : Nat} (left : x ∈ handed)
    (right : y ∈ handed) (different : x ≠ y) : Block.Apart ⟨x, c.bufferSize⟩ ⟨y, c.bufferSize⟩ := by
  obtain ⟨slab, b, origin⟩ := kept.origin left
  obtain ⟨made, i, bound, rfl⟩ := kept.place left origin
  obtain ⟨other, b', origin'⟩ := kept.origin right
  obtain ⟨made', j, bound', rfl⟩ := kept.place right origin'
  have whole := buffer_lt regular bound
  have whole' := buffer_lt regular bound'
  rw [Nat.mul_add_one] at whole whole'
  unfold Block.Apart
  by_cases same : slab = other
  · subst same
    have order : i ≠ j := fun equal => different (by rw [equal])
    rcases Nat.lt_or_gt_of_ne order with before | behind
    · have step := Nat.mul_le_mul_left c.bufferSize (show i + 1 ≤ j from before)
      rw [Nat.mul_add_one] at step
      simp only
      omega
    · have step := Nat.mul_le_mul_left c.bufferSize (show j + 1 ≤ i from behind)
      rw [Nat.mul_add_one] at step
      simp only
      omega
  · have clear := blocks slab made other made' same
    unfold Block.Apart at clear
    simp only at clear ⊢
    omega

end Granted

end Hotarubi.Memory.Cache
