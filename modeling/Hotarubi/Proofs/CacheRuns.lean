import Hotarubi.Base.Runs
import Hotarubi.Proofs.CacheNewSlab

/-! Runs of `get_object` and `put_object` on one cache: between two calls every
slab is on the list it belongs on and accounts for all its buffers. -/

namespace Hotarubi.Memory.Cache
open Base Ring Chain Include

section Calls

variable {σ : Type} {c : Config} {supply : Supply σ} {limit : Nat} {s : State} {m : σ} {g : Ledger} {handed : List Nat}

/-- A new slab is possible if there is need for one. -/
def Supplied (c : Config) (supply : Supply σ) (s : State) (m : σ) : Prop :=
  listEmpty s.links .used = true → listEmpty s.links .free = true →
    ∃ backing slab bufctls m', Grows c supply m backing slab bufctls m' ∧ Fresh c s backing slab bufctls

/-- The invariant between two calls. -/
structure Kept (c : Config) (s : State) (g : Ledger) (handed : List Nat) : Prop where
  holds : Holds c s g handed
  sorted : Sorted s g
  unlocked : s.locked = false

/-- What choosing a slab leaves as it was: the free buffers of all slabs there
are, and, as long as one of them has a free buffer, the supply. -/
structure Picked (s s1 : State) (m m1 : σ) (g g1 : Ledger) (slab : Nat) : Prop where
  member : slab ∈ s1.made
  made : s1.made = s.made ∨ s1.made = slab :: s.made ∧ slab ∉ s.made
  avail : ∀ old ∈ s.made, g1.avail old = g.avail old
  idle : (∃ old ∈ s.made, g.avail old ≠ []) → m1 = m ∧ s1.made = s.made
  origin : s1.origin = s.origin

/-- Where the slab of an object comes from: it was there, or the supply has just
given its blocks. -/
inductive Source (c : Config) (supply : Supply σ) (s s1 : State) (m m1 : σ) (g g1 : Ledger) (slab : Nat) : Prop
  | old (supply : m1 = m) (made : s1.made = s.made) (backing : s1.backing = s.backing) (mapped : g1.mapped = g.mapped)
  | new {backing : Nat} {bufctls : List Nat} (noUsed : listEmpty s.links .used = true)
    (noFree : listEmpty s.links .free = true) (grows : Grows c supply m backing slab bufctls m1)
    (fresh : Fresh c s backing slab bufctls) (unmade : slab ∉ s.made) (made : s1.made = slab :: s.made)
    (backed : s1.backing = Function.update s.backing slab backing) (mapped : g1.mapped = (g.grown c slab bufctls).mapped)

theorem listEmpty_shelf {l : Links Link} {lists : Link → List Nat} {mapped : List Nat} (shelved : Shelved l lists mapped)
    {list : Link} (member : list ∈ shelves) : listEmpty l list = true ↔ lists list = [] := by
  rw [listEmpty_ring (shelved.ring list member)]
  exact List.map_eq_nil_iff

private theorem first_slab (holds : Holds c s g handed) {list : Link}
    (shelf : list ∈ shelves) {slab : Nat} {rest : List Nat}
    (here : g.lists list = slab :: rest) (sorted : list = place s slab) (other : list ≠ .full) :
    s.links.next list = some (.slabs slab) ∧ slab ∈ s.made ∧ ∃ bufctl left, g.avail slab = bufctl :: left := by
  have next := path_next (holds.shelved.ring list shelf).path
  rw [here] at next
  have member : slab ∈ s.made := (holds.made slab).mpr ⟨list, shelf, here ▸ List.mem_cons_self⟩
  have notFull : ¬ slabFull s slab = true := by
    intro full
    rw [place, if_pos full] at sorted
    exact other sorted
  rw [holds.full_iff member] at notFull
  exact ⟨next, member, List.exists_cons_of_ne_nil notFull⟩

private theorem all_full (kept : Holds c s g handed) (sorted : Sorted s g) (noUsed : listEmpty s.links .used = true)
    (noFree : listEmpty s.links .free = true) {old : Nat} (member : old ∈ s.made) : g.avail old = [] := by
  have emptyUsed := (listEmpty_shelf kept.shelved (by simp)).mp noUsed
  have emptyFree := (listEmpty_shelf kept.shelved (by simp)).mp noFree
  obtain ⟨list, shelf, inside⟩ := (kept.made old).mp member
  have full : list = .full := by
    simp only [List.mem_cons, List.not_mem_nil, or_false] at shelf
    rcases shelf with rfl | rfl | rfl
    · rw [emptyFree] at inside
      exact absurd inside List.not_mem_nil
    · rw [emptyUsed] at inside
      exact absurd inside List.not_mem_nil
    · rfl
  have here := place_eq_iff.mp (sorted list shelf old inside)
  rw [full] at here
  exact (kept.full_iff member).mp here

private theorem slabList_spec (limit : Nat) (kept : Holds c s g handed) (sorted : Sorted s g) (regular : c.Regular)
    (served : 0 < c.buffers)
    (supplied : Supplied c supply s m) :
    ∃ list s1 m1 g1 slab bufctl rest, slabList limit c supply s m = some (some list, s1, m1) ∧
      Holds c s1 g1 handed ∧ s1.links.next list = some (.slabs slab) ∧ g1.avail slab = bufctl :: rest ∧
      Picked s s1 m m1 g g1 slab ∧ Source c supply s s1 m m1 g g1 slab := by
  unfold slabList
  by_cases noUsed : listEmpty s.links .used = true
  · rw [if_pos noUsed]
    by_cases noFree : listEmpty s.links .free = true
    · rw [if_pos noFree]
      obtain ⟨backing, slab, bufctls, m', grows, fresh⟩ := supplied noUsed noFree
      obtain ⟨s', ran, holds, origin, made, unmade, backed⟩ := kept.grow regular served grows fresh limit
      have length := grows.length
      obtain ⟨bufctl, rest, free⟩ : ∃ bufctl rest, bufctls.reverse = bufctl :: rest := by
        apply List.exists_cons_of_ne_nil
        intro nothing
        rw [List.reverse_eq_nil_iff.mp nothing] at length
        exact Nat.ne_of_lt served length
      have next := path_next (holds.shelved.ring .free (by simp)).path
      have avail : ∀ old ∈ s.made, (g.grown c slab bufctls).avail old = g.avail old := by
        intro old member
        refine Function.update_of_ne ?_ _ _
        rintro rfl
        exact unmade member
      refine ⟨.free, { s' with stats := { s'.stats with
          cacheMisses := s'.stats.cacheMisses + 1
          cacheHits := s'.stats.cacheHits - 1 } }, m', g.grown c slab bufctls, slab, bufctl, rest, ?_,
            holds.aside _ _ _, ?_,
        (Function.update_self ..).trans free, ⟨made ▸ List.mem_cons_self, .inr ⟨made, unmade⟩, avail, ?_, origin⟩,
        .new noUsed noFree grows fresh unmade made backed rfl⟩
      · simp only [ran, Option.bind_eq_bind, Option.bind_some]
      · simpa [Ledger.grown] using next
      · rintro ⟨old, member, left⟩
        exact absurd (all_full kept sorted noUsed noFree member) left
    · rw [if_neg noFree]
      obtain ⟨slab, rest, here⟩ := List.exists_cons_of_ne_nil (mt (listEmpty_shelf kept.shelved (by simp)).mpr noFree)
      obtain ⟨next, member, bufctl, left, free⟩ := first_slab kept (show Link.free ∈ shelves by simp) here
        (sorted _ (by simp) slab (here ▸ List.mem_cons_self)) (by simp)
      exact ⟨.free, s, m, g, slab, bufctl, left, rfl, kept, next, free, ⟨member, .inl rfl, fun _ _ => rfl,
        fun _ => ⟨rfl, rfl⟩, rfl⟩, .old rfl rfl rfl rfl⟩
  · rw [if_neg noUsed]
    obtain ⟨slab, rest, here⟩ := List.exists_cons_of_ne_nil (mt (listEmpty_shelf kept.shelved (by simp)).mpr noUsed)
    obtain ⟨next, member, bufctl, left, free⟩ := first_slab kept (show Link.used ∈ shelves by simp) here
      (sorted _ (by simp) slab (here ▸ List.mem_cons_self)) (by simp)
    exact ⟨.used, s, m, g, slab, bufctl, left, rfl, kept, next, free, ⟨member, .inl rfl, fun _ _ => rfl,
        fun _ => ⟨rfl, rfl⟩, rfl⟩, .old rfl rfl rfl rfl⟩

/-- What `get_object` does: one slab, old or new, loses its first free buffer. -/
structure Got (s s' : State) (m m' : σ) (g g' : Ledger) (object slab bufctl : Nat) : Prop where
  origin : s'.origin object = some (slab, bufctl)
  kept : ∀ ptr, ptr ≠ object → s'.origin ptr = s.origin ptr
  member : slab ∈ s'.made
  made : s'.made = s.made ∨ s'.made = slab :: s.made ∧ slab ∉ s.made
  own : slab ∈ s.made → g.avail slab = bufctl :: g'.avail slab
  out : bufctl ∉ g'.avail slab
  others : ∀ old ∈ s.made, old ≠ slab → g'.avail old = g.avail old
  idle : (∃ old ∈ s.made, g.avail old ≠ []) → m' = m ∧ s'.made = s.made

theorem getObject_spec (kept : Kept c s g handed) (regular : c.Regular) (served : 0 < c.buffers)
    (supplied : Supplied c supply s m) (enough : s.made.length + 1 < limit) :
    ∃ object s' m' g' slab bufctl, getObject limit c supply s m = some (some object, s', m') ∧
      Kept c s' g' (object :: handed) ∧ object ∉ handed ∧ Got s s' m m' g g' object slab bufctl ∧
      Source c supply s s' m m' g g' slab := by
  have locked := kept.holds.aside s.magic s.stats true
  have supplied : Supplied c supply { s with locked := true } m := by
    intro noUsed noFree
    obtain ⟨backing, slab, bufctls, m', grows, fresh⟩ := supplied noUsed noFree
    exact ⟨backing, slab, bufctls, m', grows, fresh.apart, fresh.unused⟩
  obtain ⟨list, s1, m1, g1, slab, bufctl, rest, chosen, holds1, next, free, picked, source⟩ :=
    slabList_spec limit locked kept.sorted regular served supplied
  have bound : s1.made.length ≤ s.made.length + 1 := by
    rcases picked.made with same | ⟨same, _⟩ <;> simp [same]
  have taken := (holds1.take regular.few picked.member free).aside s1.magic
    { s1.stats with cacheHits := s1.stats.cacheHits + 1 } s1.locked
  obtain ⟨l', lists', sorted, holds2, placed⟩ := taken.sort served (Nat.lt_of_le_of_lt bound enough)
  have distinct := (holds1.balanced slab picked.member).chain.nodup
  rw [free] at distinct
  let g' : Ledger := { g1 with avail := Function.update g1.avail slab rest, lists := lists' }
  let s' : State := { s1.took c slab bufctl with
    links := l', stats := { s1.stats with cacheHits := s1.stats.cacheHits + 1 }, locked := false }
  have ran : getObject limit c supply s m = some (some (s1.objectOf c bufctl), s', m1) := by
    rw [getObject, if_neg (by simp [kept.unlocked])]
    simp only [chosen, Option.bind_eq_bind, Option.bind_some, next, slabEntry, slabGetObject_eq holds1 picked.member free,
      Option.isSome_some, if_true]
    change (cacheSort limit { s1.took c slab bufctl with
      stats := { s1.stats with cacheHits := s1.stats.cacheHits + 1 } }).bind _ = _
    exact congrArg (Option.bind · _) sorted
  have left : g'.avail slab = rest := Function.update_self ..
  refine ⟨s1.objectOf c bufctl, s', m1, g', slab, bufctl, ran, ⟨holds2.aside s1.magic _ false, placed, rfl⟩,
    holds1.not_handed picked.member (free ▸ List.mem_cons_self), ⟨Function.update_self ..,
    fun ptr other => (Function.update_of_ne other _ _).trans (congrFun picked.origin ptr), picked.member, picked.made,
    fun old => ?_, ?_, fun old member other => ?_, picked.idle⟩, ?_⟩
  · rw [← picked.avail slab old, free, left]
  · rw [left]
    exact (List.nodup_cons.mp (List.nodup_cons.mp distinct).2).1
  · exact (Function.update_of_ne other _ _).trans (picked.avail old member)
  · cases source with
    | old supply made backing mapped => exact .old supply made backing mapped
    | new noUsed noFree grows fresh unmade made backed mapped =>
      exact .new noUsed noFree grows ⟨fresh.apart, fresh.unused⟩ unmade made backed mapped

/-- Every slab has as many descriptors as buffers. -/
theorem Holds.cells_total (holds : Holds c s g handed) {slabs : List Nat} (covered : ∀ slab ∈ slabs, slab ∈ s.made) :
    (slabs.flatMap g.cells).length = slabs.length * c.buffers := by
  induction slabs with
  | nil => simp
  | cons slab slabs ih =>
    rw [List.flatMap_cons, List.length_append, (holds.carved slab (covered slab List.mem_cons_self)).number,
      ih fun x member => covered x (List.mem_cons_of_mem _ member), List.length_cons, Nat.succ_mul, Nat.add_comm]

private theorem Holds.mapped_le (holds : Holds c s g handed) : g.mapped.length ≤ s.made.length * c.buffers := by
  have distinct : g.mapped.Nodup := List.Nodup.of_map _ (List.nodup_cons.mp holds.shelved.map.nodup).2
  have inside : g.mapped ⊆ s.made.flatMap g.cells := by
    intro b member
    obtain ⟨_, slab, made, cell⟩ := (holds.mapped b).mp member
    exact List.mem_flatMap.mpr ⟨slab, made, cell⟩
  rw [← holds.cells_total fun _ member => member]
  exact (List.subperm_of_subset distinct inside).length_le

/-- `put_object` finds the descriptor of an object. -/
theorem lookupBufctl_spec (holds : Holds c s g handed) {slab bufctl : Nat} (member : slab ∈ s.made)
    (cell : bufctl ∈ g.cells slab) (enough : s.made.length * c.buffers < limit) :
    lookupBufctl limit c s (s.objectOf c bufctl) = some (some bufctl) := by
  unfold lookupBufctl
  cases compact : c.compact with
  | true => rw [if_pos rfl, ← (holds.carved slab member).inline compact bufctl cell]
  | false =>
    have object : ∀ b, s.objectOf c b = s.data b := by
      intro b
      simp [State.objectOf, compact]
    have mapped := (holds.mapped bufctl).mpr ⟨compact, slab, member, cell⟩
    rw [if_neg Bool.false_ne_true, search_ring holds.shelved.map _ (by
      rw [List.length_map]
      exact Nat.lt_of_le_of_lt holds.mapped_le enough)]
    have total : ∀ item ∈ g.mapped.map Link.bufctls, ∃ result, (do
        let b ← bufctlEntry item
        some (if s.data b = s.objectOf c bufctl then some b else none)) = some result := by
      intro item inside
      obtain ⟨b, _, rfl⟩ := List.mem_map.mp inside
      exact ⟨_, rfl⟩
    rcases firstSome_cases total with ⟨_, all⟩ | ⟨item, inside, b, hit, found⟩
    · have missed := all (.bufctls bufctl) (List.mem_map.mpr ⟨bufctl, mapped, rfl⟩)
      simp [bufctlEntry, object] at missed
    · obtain ⟨b', mapped', rfl⟩ := List.mem_map.mp inside
      obtain ⟨_, other, member', cell'⟩ := (holds.mapped b').mp mapped'
      have same : s.objectOf c b' = s.objectOf c bufctl ∧ b' = b := by
        simpa [bufctlEntry, object] using hit
      rw [found, ← same.2, (holds.object_inj member' member cell' cell same.1).2]

/-- What `put_object` does: the slab of the object gets its descriptor back. -/
structure Returned (s s' : State) (g g' : Ledger) (ptr slab bufctl : Nat) : Prop where
  origin : s.origin ptr = some (slab, bufctl)
  kept : s'.origin = s.origin
  member : slab ∈ s.made
  made : s'.made = s.made
  own : g'.avail slab = bufctl :: g.avail slab
  others : ∀ old, old ≠ slab → g'.avail old = g.avail old

theorem putObject_spec (kept : Kept c s g handed) (served : 0 < c.buffers) {ptr : Nat} (taken : ptr ∈ handed)
    (enough : s.made.length * c.buffers < limit) :
    ∃ s' g' slab bufctl, putObject limit c s ptr = some s' ∧ Kept c s' g' (handed.erase ptr) ∧
      Returned s s' g g' ptr slab bufctl ∧ s'.backing = s.backing ∧ g'.mapped = g.mapped := by
  obtain ⟨slab, member, bufctl, cell, out, rfl⟩ := (kept.holds.account ptr).mp taken
  have balanced := kept.holds.balanced slab member
  let magic := if c.markers && s.magic (s.objectOf c bufctl + c.objSize) != bufferMagicWord then
      Function.update s.magic (s.objectOf c bufctl + c.objSize) bufferMagicWord
    else s.magic
  have locked : Holds c { s with magic, locked := true } g handed := kept.holds.aside magic s.stats true
  have short : s.made.length < limit := Nat.lt_of_le_of_lt (Nat.le_mul_of_pos_right _ served) enough
  obtain ⟨l', lists', sorted, holds, placed⟩ := (locked.give member cell out).sort served short
  let s' : State := { s.gave slab bufctl with links := l', magic, locked := false }
  refine ⟨s', _, slab, bufctl, ?_, ⟨holds.aside magic s.stats false, placed, rfl⟩, ⟨balanced.origin bufctl cell out, rfl,
    member, rfl, Function.update_self .., fun old other => Function.update_of_ne other _ _⟩, rfl, rfl⟩
  have found : lookupBufctl limit c { s with locked := true } (s.objectOf c bufctl) = some (some bufctl) :=
    lookupBufctl_spec (kept.holds.aside s.magic s.stats true) member cell enough
  rw [putObject, if_neg (by simp [kept.unlocked])]
  simp only [found, Option.bind_eq_bind, Option.bind_some, balanced.owner bufctl cell out]
  change (cacheSort limit (slabPutObject { s with magic, locked := true } slab bufctl)).bind _ = _
  rw [slabPutObject_eq locked member cell out]
  exact congrArg (Option.bind · _) sorted

private theorem lookupBufctl_object {ptr bufctl : Nat} (found : lookupBufctl limit c s ptr = some (some bufctl)) :
    s.objectOf c bufctl = ptr := by
  unfold lookupBufctl at found
  unfold State.objectOf
  split at found
  next compact =>
    cases found
    rw [if_pos compact, Config.bufctlInline, Nat.add_sub_cancel]
  next external =>
    obtain ⟨item, found⟩ := search_found found
    obtain ⟨b, _, found⟩ := Option.bind_eq_some_iff.mp found
    rw [if_neg external]
    split at found
    next here =>
      cases found
      exact here
    next => cases found

/-- What `put_object` may do to the words and the counters: nothing, or what
giving a descriptor back to its slab does. -/
private theorem putObject_words {ptr : Nat} {s' : State} (put : putObject limit c s ptr = some s') :
    s'.refs = s.refs ∨ ∃ slab bufctl, s.objectOf c bufctl = ptr ∧
      s'.word = slistAdd s.word (bufctlsHead slab) bufctl ∧ s'.refs = Function.update s.refs slab (s.refs slab - 1) := by
  unfold putObject at put
  split at put
  next => cases put
  next =>
    obtain ⟨found, looked, put⟩ := Option.bind_eq_some_iff.mp put
    cases found with
    | none =>
      cases put
      exact .inl rfl
    | some bufctl =>
      obtain ⟨slab, _, put⟩ := Option.bind_eq_some_iff.mp put
      obtain ⟨s1, sorted, put⟩ := Option.bind_eq_some_iff.mp put
      cases put
      obtain ⟨links, rfl⟩ := cacheSort_links sorted
      have given (s : State) : slabPutObject s slab bufctl = s.gave slab bufctl ∨ slabPutObject s slab bufctl = s := by
        unfold slabPutObject
        split
        next => exact .inl rfl
        next => exact .inr rfl
      rcases given { s with
        magic := if c.markers && s.magic (ptr + c.objSize) != bufferMagicWord then
            Function.update s.magic (ptr + c.objSize) bufferMagicWord
          else s.magic
        locked := true } with gave | kept
      · rw [gave]
        exact .inr ⟨slab, bufctl, lookupBufctl_object looked, rfl, rfl⟩
      · rw [kept]
        exact .inl rfl

/-- Nothing but the object itself gives it back. -/
theorem putObject_inj (kept : Kept c s g handed) (served : 0 < c.buffers) (enough : s.made.length * c.buffers < limit)
    {ptr other : Nat} {s' : State} (taken : ptr ∈ handed) (put : putObject limit c s ptr = some s')
    (same : putObject limit c s other = some s') : other = ptr := by
  obtain ⟨s1, g', slab, bufctl, ran, kept', back, _⟩ := putObject_spec kept served taken enough
  cases put.symm.trans ran
  have changed : s'.refs ≠ s.refs := by
    intro equal
    have before := (kept.holds.balanced slab back.member).count
    have after := (kept'.holds.balanced slab (back.made ▸ back.member)).count
    rw [back.own, equal, List.length_cons] at after
    omega
  have fewer (n : UInt32) : n - 1 ≠ n := by
    intro equal
    have value := congrArg UInt32.toNat equal
    have bound := n.toNat_lt
    rw [UInt32.toNat_sub, UInt32.toNat_one] at value
    omega
  obtain ⟨one, b, rfl, word, refs⟩ := (putObject_words put).resolve_left changed
  obtain ⟨two, b', rfl, word', refs'⟩ := (putObject_words same).resolve_left changed
  obtain rfl : one = two := by
    by_contra different
    have here := congrFun (refs.symm.trans refs') one
    rw [Function.update_self, Function.update_of_ne different] at here
    exact fewer _ here
  have first := congrFun (word.symm.trans word') (bufctlsHead one)
  simp only [slistAdd, Function.update_self, Option.some.injEq] at first
  rw [first]

end Calls

end Hotarubi.Memory.Cache
