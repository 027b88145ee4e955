import Hotarubi.Proofs.CacheFailure
import Hotarubi.Proofs.CacheGranted

/-! Where `_slab_alloc` puts what it writes: the objects of a slab, their markers and
links and the slab's own descriptor lie inside the block and off each other, and
`put_object` finds its way back from an object. -/

namespace Hotarubi.Memory.Cache
open Base Ring Chain Include

/-- The object of a buffer, its marker and its inline link. -/
def Config.parts (c : Config) (object bufctl : Nat) : List Block :=
  ⟨object, c.objSize⟩ :: (if c.markers then [⟨object + c.objSize, bufferMagicSize⟩] else []) ++
    if c.compact then [⟨bufctl, sizeofBufctlInline⟩] else []

/-- All that a slab keeps in its block, given its buffer descriptors. -/
def State.areas (s : State) (c : Config) (slab : Nat) (cells : List Nat) : List Block :=
  (if c.compact then [⟨slab, sizeofSlab⟩] else []) ++ cells.flatMap fun b => c.parts (s.objectOf c b) b

/-- How a slab is cut up. -/
structure Geometry (c : Config) (s : State) (slab : Nat) (cells : List Nat) : Prop where
  number : cells.length = c.buffers
  apart : (s.areas c slab cells).Pairwise Block.Apart
  inside : ∀ area ∈ s.areas c slab cells,
    s.backing slab ≤ area.addr ∧ area.addr + area.size ≤ s.backing slab + c.allocSize
  aligned : ∀ b ∈ cells, c.objAlign ∣ s.objectOf c b

section Parts

variable {c : Config} {s : State} {object bufctl slab : Nat} {cells : List Nat}

private theorem mem_parts {area : Block} (inline : c.compact = true → bufctl = c.bufctlInline object)
    (member : area ∈ c.parts object bufctl) :
    object ≤ area.addr ∧ area.addr + area.size ≤ object + c.packedSize := by
  unfold Config.parts at member
  unfold Config.packedSize Config.markedSize
  rcases List.mem_append.mp member with front | link
  · rcases List.mem_cons.mp front with rfl | marker
    · exact ⟨Nat.le_refl _, by simp only; omega⟩
    · split at marker
      next marked =>
        rw [List.mem_singleton.mp marker, if_pos marked]
        exact ⟨Nat.le_add_right _ _, by simp only; omega⟩
      next => cases marker
  · split at link
    next compact =>
      rw [List.mem_singleton.mp link, inline compact, if_pos compact, Config.bufctlInline, Config.markedSize]
      exact ⟨Nat.le_add_right _ _, by simp only; omega⟩
    next => cases link

private theorem parts_apart (inline : c.compact = true → bufctl = c.bufctlInline object) :
    (c.parts object bufctl).Pairwise Block.Apart := by
  unfold Config.parts
  cases compact : c.compact with
  | false =>
    cases marked : c.markers with
    | false => simp
    | true => simp [Block.Apart]
  | true =>
    rw [inline compact, Config.bufctlInline, Config.markedSize]
    cases marked : c.markers with
    | false => simp [Block.Apart]
    | true => simp [Block.Apart, Nat.add_assoc]

private theorem bufferSize_aligned (served : 0 < c.buffers) : c.objAlign ∣ c.bufferSize := by
  have positive := bufferSize_pos served
  unfold Config.bufferSize at positive ⊢
  simp only at positive ⊢
  split
  next => exact Nat.dvd_mul_left _ _
  next wrapped =>
    rw [if_neg wrapped] at positive
    cases positive

private theorem Carved.stretch (carved : Carved c s cells slab) (regular : c.Regular) {b : Nat} (member : b ∈ cells) :
    ∃ i < c.buffers, s.objectOf c b = s.backing slab + c.bufferSize * i ∧ ∀ area ∈ c.parts (s.objectOf c b) b,
      s.backing slab + c.bufferSize * i ≤ area.addr ∧
        area.addr + area.size ≤ s.backing slab + c.bufferSize * (i + 1) := by
  obtain ⟨i, bound, here⟩ := carved.object b member
  refine ⟨i, bound, here, fun area part => ?_⟩
  have covered := mem_parts (fun compact => carved.inline compact b member) part
  have packed := regular.fits (Nat.ne_of_gt (bufferSize_pos (Nat.zero_lt_of_lt bound)))
  rw [here] at covered
  rw [Nat.mul_add_one]
  omega

private theorem Carved.cells_apart (carved : Carved c s cells slab) (regular : c.Regular) :
    (cells.flatMap fun b => c.parts (s.objectOf c b) b).Pairwise Block.Apart := by
  refine List.pairwise_flatMap.mpr ⟨fun b member => parts_apart fun compact => carved.inline compact b member, ?_⟩
  refine (List.nodup_cons.mp carved.nodup).2.pairwise_of_forall_ne fun b member b' member' different => ?_
  intro area part area' part'
  obtain ⟨i, _, here, covered⟩ := carved.stretch regular member
  obtain ⟨i', _, here', covered'⟩ := carved.stretch regular member'
  have low := covered area part
  have high := covered' area' part'
  have distinct : i ≠ i' := by
    rintro rfl
    exact different (carved.single b member b' member' (here.trans here'.symm))
  unfold Block.Apart
  rcases Nat.lt_or_gt_of_ne distinct with before | behind
  · have step := Nat.mul_le_mul_left c.bufferSize (show i + 1 ≤ i' from before)
    omega
  · have step := Nat.mul_le_mul_left c.bufferSize (show i' + 1 ≤ i from behind)
    omega

private theorem Carved.cells_inside (carved : Carved c s cells slab) (regular : c.Regular) {area : Block}
    (member : area ∈ cells.flatMap fun b => c.parts (s.objectOf c b) b) : s.backing slab ≤ area.addr ∧
      area.addr + area.size + (if c.compact then sizeofSlab else 0) ≤ s.backing slab + c.allocSize := by
  obtain ⟨b, cell, part⟩ := List.mem_flatMap.mp member
  obtain ⟨i, bound, _, covered⟩ := carved.stretch regular cell
  have within := covered area part
  have room := buffer_lt regular bound
  omega

/-- A slab cut up from an aligned block with its descriptor at the end is in good shape. -/
theorem Carved.geometry (carved : Carved c s cells slab) (regular : c.Regular)
    (inline : c.compact = true → slab = c.slabInline (s.backing slab)) (aligned : c.objAlign ∣ s.backing slab) :
    Geometry c s slab cells := by
  have descriptor (compact : c.compact = true) : slab + sizeofSlab = s.backing slab + c.allocSize := by
    have own := inline compact
    have room := regular.room
    unfold Config.slabInline at own
    omega
  refine ⟨carved.number, ?_, fun area member => ?_, fun b member => ?_⟩
  · rw [State.areas, List.pairwise_append]
    refine ⟨?_, carved.cells_apart regular, fun area first other rest => ?_⟩
    · split
      next => exact List.pairwise_singleton _ _
      next => exact .nil
    · split at first
      next compact =>
        rw [List.mem_singleton.mp first]
        have within := carved.cells_inside regular rest
        have ends := descriptor compact
        rw [if_pos compact] at within
        right
        simp only
        omega
      next => cases first
  · rcases List.mem_append.mp member with first | rest
    · split at first
      next compact =>
        rw [List.mem_singleton.mp first]
        have ends := descriptor compact
        have room := regular.room
        simp only
        omega
      next => cases first
    · have within := carved.cells_inside regular rest
      omega
  · obtain ⟨i, bound, here, _⟩ := carved.stretch regular member
    rw [here]
    exact Nat.dvd_add aligned (Nat.dvd_mul_right_of_dvd (bufferSize_aligned (Nat.zero_lt_of_lt bound)) i)

end Parts

section Returned

variable {σ : Type} {limit : Nat} {c : Config} {supply : Supply σ} {s s' : State} {m m' : σ} {backing slab left i : Nat}

private theorem fillSlab_filled (ran : fillSlab c supply backing slab left i s m = some (true, s', m')) :
    ∃ bufctls, Gets c supply backing left i m bufctls m' := by
  induction left generalizing s m i with
  | zero =>
    cases ran
    exact ⟨[], .none⟩
  | succ left ih =>
    rw [fillSlab] at ran
    obtain ⟨⟨answer, m1⟩, found, ran⟩ := Option.bind_eq_some_iff.mp ran
    cases answer with
    | none => cases ran
    | some bufctl =>
      obtain ⟨s1, _, ran⟩ := Option.bind_eq_some_iff.mp ran
      obtain ⟨bufctls, gets⟩ := ih ran
      exact ⟨bufctl :: bufctls, .next found gets⟩

/-- A slab is returned only where all its allocations succeeded and it was filled. -/
theorem slabAlloc_returned (ran : slabAlloc limit c supply s m = some (some slab, s', m')) :
    0 < c.buffers ∧ ∃ backing bufctls m1 s1, Grows c supply m backing slab bufctls m' ∧
      Gets c supply backing c.buffers 0 m1 bufctls m' ∧
      fillSlab c supply backing slab c.buffers 0 (s.opened c backing slab) m1 = some (true, s1, m') ∧
      s'.backing = s1.backing ∧ s'.word = s1.word ∧ s'.data = s1.data := by
  unfold slabAlloc at ran
  obtain ⟨⟨block, m1⟩, backed, ran⟩ := Option.bind_eq_some_iff.mp ran
  obtain ⟨m2, associated, ran⟩ := Option.bind_eq_some_iff.mp ran
  obtain ⟨backing, rfl⟩ : ∃ backing, block = some backing := by
    cases block with
    | none => cases ran
    | some backing => exact ⟨backing, rfl⟩
  simp only [Option.bind_eq_bind, Option.bind_some] at ran
  obtain ⟨⟨own, m3⟩, described, ran⟩ := Option.bind_eq_some_iff.mp ran
  cases own with
  | none => cases (dropBacking_locked ran).1
  | some own =>
    simp only at ran
    split at ran
    next => cases ran
    next =>
      split at ran
      next => cases (dropBufctls_locked ran).1
      next fits =>
        obtain ⟨⟨filled, s1, m4⟩, looped, ran⟩ := Option.bind_eq_some_iff.mp ran
        cases filled with
        | false => cases (dropBufctls_locked ran).1
        | true =>
          obtain ⟨links, _, ran⟩ := Option.bind_eq_some_iff.mp ran
          cases ran
          obtain ⟨bufctls, gets⟩ := fillSlab_filled looped
          exact ⟨by omega, backing, bufctls, m3, s1, ⟨m1, m2, m3, backed, associated, described, gets⟩, gets, looped,
            rfl, rfl, rfl⟩

private theorem slabAlloc_carved (regular : c.Regular) (ran : slabAlloc limit c supply s m = some (some slab, s', m'))
    (apart : ∀ backing bufctls, Grows c supply m backing slab bufctls m' →
      (c.blocks backing slab bufctls).Pairwise Block.Apart) :
    ∃ backing bufctls, Grows c supply m backing slab bufctls m' ∧ s'.backing slab = backing ∧
      s'.FreeList slab bufctls.reverse ∧ Carved c s' bufctls.reverse slab := by
  obtain ⟨served, backing, bufctls, m1, s1, grows, gets, looped, block, word, data⟩ := slabAlloc_returned ran
  have nodup := grows.nodup regular (apart backing bufctls grows)
  obtain ⟨headOut, distinct⟩ := List.nodup_cons.mp nodup
  obtain ⟨alike, chain, _, _, object⟩ := fillSlab_cut gets looped (isChain_nil (Function.update_self ..)) distinct
    fun b member => by
      rw [List.mem_singleton]
      rintro rfl
      exact headOut member
  have here : s'.backing slab = backing := by
    rw [block, alike.backing]
    exact Function.update_self ..
  refine ⟨backing, bufctls, grows, here, ?_, grows.carved served nodup here fun j b found => ?_⟩
  · rw [State.FreeList, word]
    simpa using chain
  · have placed := object j b found
    rw [Nat.zero_add] at placed
    rw [← placed]
    simp only [State.objectOf, data]

end Returned

/-- Whenever `_slab_alloc` returns a slab, in whatever state of the cache, the slab is
in good shape; and in every run of the two calls `put_object` computes from the address
of an object in use the descriptor that was taken for it. -/
theorem slab_geometry {σ : Type} (supply : Supply σ) (m : σ) (size : Nat) {align : Nat} (divides : align ∣ slabSize)
    (checkOverflow : Bool) (paged : ∀ n m ptr m', supply.slabAlloc n m = some (some ptr, m') → slabSize ∣ ptr)
    {limit : Nat} {events : List Event}
    (enough : (events.length + 1) * (cacheInit size align checkOverflow).buffers < limit)
    (permitted : EachStep (Event.exec limit (cacheInit size align checkOverflow) supply)
      (Event.Promised (cacheInit size align checkOverflow) supply) (.initial m) events)
    {w : World σ}
    (reached : runCalls (Event.exec limit (cacheInit size align checkOverflow) supply) (.initial m) events = some w) :
    let c := cacheInit size align checkOverflow
    (∀ s m slab s' m', slabAlloc limit c supply s m = some (some slab, s', m') →
      (∀ backing bufctls, Grows c supply m backing slab bufctls m' →
        (c.blocks backing slab bufctls).Pairwise Block.Apart) →
      ∃ cells, s'.FreeList slab cells ∧ Geometry c s' slab cells) ∧
    ∀ ptr ∈ w.handed, ∃ slab bufctl, w.state.origin ptr = some (slab, bufctl) ∧
      lookupBufctl limit c w.state ptr = some (some bufctl) := by
  intro c
  have regular : c.Regular := cacheInit_regular size align checkOverflow
  have divisor : c.objAlign ∣ slabSize := by
    change (if align = 0 then 1 else align) ∣ slabSize
    split
    next => exact Nat.one_dvd _
    next => exact divides
  constructor
  · intro s m slab s' m' ran apart
    obtain ⟨backing, bufctls, grows, here, free, carved⟩ := slabAlloc_carved regular ran apart
    refine ⟨bufctls.reverse, free, carved.geometry regular (fun compact => ?_) ?_⟩
    · rw [here]
      exact (grows.inline compact).1
    · obtain ⟨_, _, _, backed, _⟩ := grows
      rw [here]
      exact Nat.dvd_trans divisor (paged _ _ _ _ backed)
  · intro ptr taken
    rcases Nat.eq_zero_or_pos c.buffers with none | served
    · rw [(run_barren none permitted reached).none] at taken
      cases taken
    · obtain ⟨other, reached', ⟨g, kept⟩, few⟩ := run_served regular served enough permitted
      cases reached.symm.trans reached'
      obtain ⟨slab, member, b, cell, out, rfl⟩ := (kept.holds.account ptr).mp taken
      refine ⟨slab, b, (kept.holds.balanced slab member).origin b cell out, lookupBufctl_spec kept.holds member cell ?_⟩
      exact Nat.lt_of_le_of_lt (Nat.mul_le_mul_right _ (by omega)) enough

/-- A backend that hands out page after page. -/
def paging : Supply Nat := { bump with slabAlloc := fun n m => some (some (slabSize * m), m + n / slabSize) }

private theorem gets_inline {σ : Type} {c : Config} (supply : Supply σ) (compact : c.compact = true) (backing left i : Nat)
    (m : σ) : ∃ bufctls, Gets c supply backing left i m bufctls m := by
  induction left generalizing i with
  | zero => exact ⟨[], .none⟩
  | succ left ih =>
    obtain ⟨rest, later⟩ := ih (i + 1)
    exact ⟨_ :: rest, .next (by rw [bufctlFor, if_pos compact]) later⟩

/-- Objects of 500 bytes at multiples of 4: a new slab, and one object taken from another. -/
theorem slab_geometry_witness :
    let c := cacheInit 500 4 true
    (∃ slab s' m' cells, slabAlloc 20 c paging .initial 1 = some (some slab, s', m') ∧ s'.FreeList slab cells ∧
      Geometry c s' slab cells) ∧
    ∃ w, runCalls (Event.exec 20 c paging) (.initial 1) [.get] = some w ∧ w.handed.length = 1 ∧
      ∀ ptr ∈ w.handed, ∃ slab bufctl, w.state.origin ptr = some (slab, bufctl) ∧
        lookupBufctl 20 c w.state ptr = some (some bufctl) := by
  intro c
  have compact : c.compact = true := by decide
  have alone (backing slab : Nat) (bufctls : List Nat) : c.blocks backing slab bufctls = [⟨backing, c.allocSize⟩] := by
    rw [Config.blocks, if_pos compact]
  have permitted : EachStep (Event.exec 20 c paging) (Event.Promised c paging) (.initial 1) [.get] := by
    refine ⟨fun _ _ => ?_, ?_⟩
    · obtain ⟨bufctls, gets⟩ := gets_inline paging compact 4096 c.buffers 0 2
      refine ⟨4096, c.slabInline 4096, bufctls, 2, ⟨2, 2, 2, by decide, rfl, by rw [slabFor, if_pos compact], gets⟩, ?_, ?_⟩
      · rw [alone]
        exact List.pairwise_singleton _ _
      · rintro block _ used (⟨slab, member, _⟩ | ⟨external, _⟩)
        · cases member
        · rw [compact] at external
          cases external
    · split
      next => trivial
      next => trivial
  have paged : ∀ n m ptr m', paging.slabAlloc n m = some (some ptr, m') → slabSize ∣ ptr := by
    intro n m ptr m' given
    cases given
    exact Nat.dvd_mul_right _ _
  have returns : (runCalls (Event.exec 20 c paging) (.initial 1) [.get]).isSome = true := by decide +kernel
  have allocates : ((slabAlloc 20 c paging .initial 1).bind (·.1)).isSome = true := by decide +kernel
  obtain ⟨w, reached⟩ := Option.isSome_iff_exists.mp returns
  obtain ⟨slab, found⟩ := Option.isSome_iff_exists.mp allocates
  obtain ⟨⟨answer, s', m'⟩, ran, same⟩ := Option.bind_eq_some_iff.mp found
  cases same
  obtain ⟨laid, recomputed⟩ := slab_geometry paging 1 500 (by decide) true paged (by decide +kernel) permitted reached
  obtain ⟨cells, free, geometry⟩ := laid .initial 1 slab s' m' ran fun backing bufctls _ => by
    rw [alone]
    exact List.pairwise_singleton _ _
  have one : (runCalls (Event.exec 20 c paging) (.initial 1) [.get]).map (·.handed.length) = some 1 := by decide +kernel
  rw [reached, Option.map_some, Option.some.injEq] at one
  exact ⟨⟨slab, s', m', cells, ran, free, geometry⟩, w, reached, one, recomputed⟩

end Hotarubi.Memory.Cache
