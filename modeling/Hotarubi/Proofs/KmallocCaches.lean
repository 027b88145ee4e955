import Hotarubi.Proofs.KmallocSlabs

/-! The caches on the page allocator and on the two pools for descriptors. What a
cache is given is apart from all it has, and the others keep what they have. -/

namespace Hotarubi.Memory.Kmalloc
open Base Ring Cache Include

private theorem slabPool_sized : Sized slabPool := cacheInit_sized _ _ _ (by decide)

private theorem bufctlPool_sized : Sized bufctlPool := cacheInit_sized _ _ _ (by decide)

/-- The pools, with the descriptors they have handed out. -/
structure Stocked (caches : Caches) (boot : Physmm.State) (m : Pools) (lent : Nat → Prop) (slots : Nat → Option Slot)
    (slabs bufctls : List Nat) : Prop where
  booked : Booked boot m.pages lent slots
  slabs : Serving slots caches.slabCache slabPool m.slabs slabs
  bufctls : Serving slots caches.bufctlCache bufctlPool m.bufctls bufctls

section Pools

variable {limit : Nat} {caches : Caches} {boot : Physmm.State} {m m' : Pools} {lent : Nat → Prop}
  {slots slots' : Nat → Option Slot}
  {slabs bufctls : List Nat} {cache : UInt64} {answer : Option Nat} {c : Config} {s s' : Cache.State} {g g' : Ledger}
  {handed : List Nat} {object slab bufctl page : Nat}

private theorem supply_slabAlloc (n : Nat) : (caches.supply limit cache).slabAlloc n m =
    some ((backingPageAlloc n m.pages).1.map UInt64.toNat, { m with pages := (backingPageAlloc n m.pages).2 }) := rfl

private theorem supply_associate : (caches.supply limit cache).associate answer m =
    some { m with pages := associate cache (UInt64.ofNat (answer.getD 0)) m.pages } := rfl

theorem Serving.mono (serving : Serving slots cache c s handed) (more : Extends slots slots') :
    Serving slots' cache c s handed := ⟨serving.kept, serving.backed.mono more⟩

theorem Stocked.getSlab (stocked : Stocked caches boot m lent slots slabs bufctls) (enough : 2 ^ 65 ≤ limit)
    (got : (caches.supply limit cache).getSlab m = some (answer, m')) :
    ∃ slab slots', answer = some slab ∧ slab ∉ slabs ∧ Extends slots slots' ∧
      Stocked caches boot m' lent slots' (slab :: slabs) bufctls := by
  obtain ⟨⟨answer', s', pages⟩, ran, same⟩ := Option.bind_eq_some_iff.mp got
  cases same
  obtain ⟨slab, slots', rfl, fresh, booked, more, serving⟩ :=
    stocked.slabs.get stocked.booked slabPool_sized (by decide) (by decide) enough ran
  exact ⟨slab, slots', rfl, fresh, more, booked, serving, stocked.bufctls.mono more⟩

theorem Stocked.getBufctl (stocked : Stocked caches boot m lent slots slabs bufctls) (enough : 2 ^ 65 ≤ limit)
    (got : (caches.supply limit cache).getBufctl m = some (answer, m')) :
    ∃ bufctl slots', answer = some bufctl ∧ bufctl ∉ bufctls ∧ Extends slots slots' ∧
      Stocked caches boot m' lent slots' slabs (bufctl :: bufctls) := by
  obtain ⟨⟨answer', s', pages⟩, ran, same⟩ := Option.bind_eq_some_iff.mp got
  cases same
  obtain ⟨bufctl, slots', rfl, fresh, booked, more, serving⟩ :=
    stocked.bufctls.get stocked.booked bufctlPool_sized (by decide) (by decide) enough ran
  exact ⟨bufctl, slots', rfl, fresh, more, booked, stocked.slabs.mono more, serving⟩

theorem Stocked.putSlab (stocked : Stocked caches boot m lent slots slabs bufctls) (enough : 2 ^ 65 ≤ limit)
    (taken : slab ∈ slabs) (put : (caches.supply limit cache).putSlab slab m = some m') :
    Stocked caches boot m' lent slots (slabs.erase slab) bufctls := by
  obtain ⟨s', ran, same⟩ := Option.bind_eq_some_iff.mp put
  cases same
  exact ⟨stocked.booked, (stocked.slabs.put stocked.booked (by decide) (by decide) enough taken ran).1, stocked.bufctls⟩

theorem Stocked.granted (stocked : Stocked caches boot m lent slots slabs bufctls) (sized : Sized c)
    {backing : Nat} {m1 m2 : Pools}
    (backed : (caches.supply limit cache).slabAlloc c.allocSize m = some (some backing, m1))
    (associated : (caches.supply limit cache).associate (some backing) m1 = some m2) :
    ∃ page, backing = directAddr page ∧ slots page = none ∧
      Stocked caches boot m2 lent (Function.update slots page (some (slotOf cache c))) slabs bufctls := by
  obtain ⟨address, rfl⟩ := Prod.mk.inj (Option.some.inj ((supply_slabAlloc ..).symm.trans backed))
  cases (supply_associate ..).symm.trans associated
  obtain ⟨page, located, vacant, booked⟩ := stocked.booked.granted sized
    (show (pageSupply cache).slabAlloc c.allocSize m.pages = some (some backing, _) from
      congrArg (fun block => some (block, (backingPageAlloc c.allocSize m.pages).2)) address) rfl
  have more := Extends.update vacant (slotOf cache c)
  exact ⟨page, located, vacant, booked, stocked.slabs.mono more, stocked.bufctls.mono more⟩

theorem Serving.forget (serving : Serving slots cache c s handed) {slot : Slot} (here : slots page = some slot)
    (foreign : slot.cache ≠ cache) : Serving (Function.update slots page none) cache c s handed := by
  refine ⟨serving.kept, serving.backed.nodup, fun slab member => ?_, serving.backed.single, serving.backed.origin⟩
  obtain ⟨own, address, there⟩ := serving.backed.page slab member
  refine ⟨own, address, ?_⟩
  rw [Function.update_of_ne ?_]
  · exact there
  · rintro rfl
    rw [here] at there
    cases there
    exact foreign rfl

theorem Stocked.release (stocked : Stocked caches boot m lent slots slabs bufctls) (sized : Sized c)
    (here : slots page = some (slotOf cache c)) (notSlabs : cache ≠ caches.slabCache)
    (notBufctls : cache ≠ caches.bufctlCache)
    (freed : (caches.supply limit cache).slabFree (directAddr page) c.allocSize m = some m') :
    Stocked caches boot m' lent (Function.update slots page none) slabs bufctls := by
  cases freed
  exact ⟨stocked.booked.release sized.whole sized.modest here, stocked.slabs.forget here notSlabs,
    stocked.bufctls.forget here notBufctls⟩

theorem Serving.apart {other : UInt64} {d : Config} {s' : Cache.State} {handed' : List Nat} {pages : Pages}
    (booked : Booked boot pages lent slots) (left : Serving slots cache c s handed)
    (right : Serving slots other d s' handed') (sized : Sized c) (sized' : Sized d) (different : cache ≠ other)
    {x y : Nat} (taken : x ∈ handed) (taken' : y ∈ handed') :
    Block.Apart ⟨x, c.bufferSize⟩ ⟨y, d.bufferSize⟩ := by
  obtain ⟨g, kept⟩ := left.kept
  obtain ⟨g', kept'⟩ := right.kept
  obtain ⟨slab, i, page, _, _, here, _, rfl, fits⟩ := handed_inside kept left.backed sized taken
  have apart := handed_apart_page kept' right.backed booked sized' taken' here different
  rw [sized.pages] at apart
  unfold Block.Apart at apart ⊢
  simp only at apart ⊢
  omega

/-- What the slabs of a cache are made of: pages of their own and descriptors of
the pools. -/
inductive Piece where
  | page (page : Nat)
  | slab (slab : Nat)
  | bufctl (bufctl : Nat)
  deriving DecidableEq

def Piece.block (c : Config) : Piece → Block
  | .page page => ⟨directAddr page, c.allocSize⟩
  | .slab slab => ⟨slab, sizeofSlab⟩
  | .bufctl bufctl => ⟨bufctl, sizeofBufctl⟩

def Piece.InUse (slots : Nat → Option Slot) (slabs bufctls : List Nat) (cache : UInt64) (c : Config) : Piece → Prop
  | .page page => slots page = some (slotOf cache c)
  | .slab slab => slab ∈ slabs
  | .bufctl bufctl => bufctl ∈ bufctls

/-- Different pieces share no address. -/
theorem Piece.apart (stocked : Stocked caches boot m lent slots slabs bufctls) (sized : Sized c)
    (notSlabs : cache ≠ caches.slabCache) (notBufctls : cache ≠ caches.bufctlCache) {one two : Piece}
    (left : one.InUse slots slabs bufctls cache c) (right : two.InUse slots slabs bufctls cache c) (different : one ≠ two) :
    Block.Apart (one.block c) (two.block c) := by
  have slabSize : sizeofSlab ≤ slabPool.bufferSize := by decide
  have bufctlSize : sizeofBufctl ≤ bufctlPool.bufferSize := by decide
  obtain ⟨gs, keptSlabs⟩ := stocked.slabs.kept
  obtain ⟨gb, keptBufctls⟩ := stocked.bufctls.kept
  have pageSlab {page slab : Nat} (here : slots page = some (slotOf cache c)) (taken : slab ∈ slabs) :
      Block.Apart ⟨directAddr page, c.allocSize⟩ ⟨slab, sizeofSlab⟩ := by
    have apart := handed_apart_page keptSlabs stocked.slabs.backed stocked.booked slabPool_sized taken here notSlabs
    rw [sized.pages] at apart
    exact Block.Apart.shrink apart (Nat.le_refl _) slabSize
  have pageBufctl {page bufctl : Nat} (here : slots page = some (slotOf cache c)) (taken : bufctl ∈ bufctls) :
      Block.Apart ⟨directAddr page, c.allocSize⟩ ⟨bufctl, sizeofBufctl⟩ := by
    have apart := handed_apart_page keptBufctls stocked.bufctls.backed stocked.booked bufctlPool_sized taken here notBufctls
    rw [sized.pages] at apart
    exact Block.Apart.shrink apart (Nat.le_refl _) bufctlSize
  have slabBufctl {slab bufctl : Nat} (taken : slab ∈ slabs) (taken' : bufctl ∈ bufctls) :
      Block.Apart ⟨slab, sizeofSlab⟩ ⟨bufctl, sizeofBufctl⟩ :=
    Block.Apart.shrink (Serving.apart stocked.booked stocked.slabs stocked.bufctls slabPool_sized bufctlPool_sized caches.apart
      taken taken') slabSize bufctlSize
  cases one with
  | page page =>
    cases two with
    | page behind =>
      have apart := stocked.booked.blocks_apart left right (fun same => different (congrArg Piece.page same))
      rw [sized.pages] at apart
      exact apart
    | slab slab => exact pageSlab left right
    | bufctl bufctl => exact pageBufctl left right
  | slab slab =>
    cases two with
    | page page => exact Block.Apart.symm (pageSlab right left)
    | slab other =>
      exact Block.Apart.shrink (handed_apart keptSlabs stocked.slabs.backed stocked.booked slabPool_sized left right
        fun same => different (congrArg Piece.slab same)) slabSize slabSize
    | bufctl bufctl => exact slabBufctl left right
  | bufctl bufctl =>
    cases two with
    | page page => exact Block.Apart.symm (pageBufctl right left)
    | slab slab => exact Block.Apart.symm (slabBufctl right left)
    | bufctl other =>
      exact Block.Apart.shrink (handed_apart keptBufctls stocked.bufctls.backed stocked.booked bufctlPool_sized left right
        fun same => different (congrArg Piece.bufctl same)) bufctlSize bufctlSize

/-- Any cache but the pools: its slabs have pages and descriptors of their own. -/
structure Client (slots : Nat → Option Slot) (slabs bufctls : List Nat) (cache : UInt64) (c : Config) (s : Cache.State)
    (handed : List Nat) : Prop where
  backed : Backed slots cache c s
  kept : 0 < c.buffers → ∃ g, Kept c s g handed
  barren : c.buffers = 0 → s.made = [] ∧ (∀ list ∈ shelves, IsRing s.links list []) ∧ handed = []
  slabs : c.compact = false → s.made ⊆ slabs
  bufctls : c.compact = false → 0 < c.buffers → ∀ xs b, IsRing s.links .objMap xs → .bufctls b ∈ xs → b ∈ bufctls

/-- What the supply has given so far for a new slab. -/
structure Given (caches : Caches) (boot : Physmm.State) (lent : Nat → Prop) (slots : Nat → Option Slot)
    (slabs bufctls : List Nat) (cache : UInt64)
    (c : Config) (backing slab : Nat) (done : List Nat) (m : Pools) (page : Nat) (slots' : Nat → Option Slot)
    (slabs' bufctls' : List Nat) : Prop where
  stocked : Stocked caches boot m lent slots' slabs' bufctls'
  more : Extends slots slots'
  address : backing = directAddr page
  vacant : slots page = none
  here : slots' page = some (slotOf cache c)
  inner : c.compact = true → slabs' = slabs ∧ bufctls' = bufctls
  outer : c.compact = false → slabs' = slab :: slabs ∧ slab ∉ slabs ∧ bufctls' = done ++ bufctls ∧ done.Nodup ∧
    ∀ b ∈ done, b ∉ bufctls

theorem Stocked.start (stocked : Stocked caches boot m lent slots slabs bufctls) (sized : Sized c) (enough : 2 ^ 65 ≤ limit)
    {backing : Nat} {m1 m2 m3 : Pools}
    (backed : (caches.supply limit cache).slabAlloc c.allocSize m = some (some backing, m1))
    (associated : (caches.supply limit cache).associate (some backing) m1 = some m2)
    (described : slabFor c (caches.supply limit cache) backing m2 = some (answer, m3)) :
    ∃ slab, answer = some slab ∧ ∃ page slots' slabs' bufctls',
      Given caches boot lent slots slabs bufctls cache c backing slab [] m3 page slots' slabs' bufctls' := by
  obtain ⟨page, address, vacant, stocked'⟩ := stocked.granted sized backed associated
  have more := Extends.update vacant (slotOf cache c)
  cases compact : c.compact with
  | true =>
    rw [slabFor, if_pos compact] at described
    cases described
    exact ⟨_, rfl, page, _, slabs, bufctls, stocked', more, address, vacant, Function.update_self .., fun _ => ⟨rfl, rfl⟩,
      fun external => absurd (external.symm.trans compact) Bool.false_ne_true⟩
  | false =>
    rw [slabFor, if_neg (by rw [compact]; exact Bool.false_ne_true)] at described
    obtain ⟨slab, slots', rfl, fresh, more', stocked''⟩ := stocked'.getSlab enough described
    exact ⟨slab, rfl, page, slots', _, bufctls, stocked'', more.trans more', address, vacant,
      more' page _ (Function.update_self ..), fun inline => absurd (compact.symm.trans inline) Bool.false_ne_true,
      fun _ => ⟨rfl, fresh, rfl, List.nodup_nil, fun _ member => absurd member List.not_mem_nil⟩⟩

/-- The descriptor of one more buffer. -/
theorem Given.next {backing : Nat} {done slabs' bufctls' : List Nat} {buffer : Nat}
    (given : Given caches boot lent slots slabs bufctls cache c backing slab done m page slots' slabs' bufctls')
    (enough : 2 ^ 65 ≤ limit) (found : bufctlFor c (caches.supply limit cache) buffer m = some (answer, m')) :
    ∃ bufctl, answer = some bufctl ∧ ∃ slots'' bufctls'',
      Given caches boot lent slots slabs bufctls cache c backing slab
        (bufctl :: done) m' page slots'' slabs' bufctls'' := by
  cases compact : c.compact with
  | true =>
    rw [bufctlFor, if_pos compact] at found
    cases found
    exact ⟨_, rfl, slots', bufctls', given.stocked, given.more, given.address, given.vacant, given.here, given.inner,
      fun external => absurd (external.symm.trans compact) Bool.false_ne_true⟩
  | false =>
    obtain ⟨sameSlabs, freshSlab, rfl, distinct, freshBufctls⟩ := given.outer compact
    rw [bufctlFor, if_neg (by rw [compact]; exact Bool.false_ne_true)] at found
    obtain ⟨bufctl, slots'', rfl, fresh, more', stocked'⟩ := given.stocked.getBufctl enough found
    rw [List.mem_append, not_or] at fresh
    refine ⟨bufctl, rfl, slots'', _, stocked', given.more.trans more', given.address, given.vacant, more' page _ given.here,
      fun inline => absurd (compact.symm.trans inline) Bool.false_ne_true,
      fun _ => ⟨sameSlabs, freshSlab, rfl, List.nodup_cons.mpr ⟨fresh.1, distinct⟩, fun b member => ?_⟩⟩
    rcases List.mem_cons.mp member with rfl | member
    · exact fresh.2
    · exact freshBufctls b member

theorem Stocked.gives (stocked : Stocked caches boot m lent slots slabs bufctls) (sized : Sized c) (enough : 2 ^ 65 ≤ limit)
    (noUsed : listEmpty s.links .used = true) (noFree : listEmpty s.links .free = true)
    (got : Cache.getObject limit c (caches.supply limit cache) s m = some (answer, s', m')) :
    ∃ backing slab new m1 page slots' slabs' bufctls', Grows c (caches.supply limit cache) m backing slab new m1 ∧
      Given caches boot lent slots slabs bufctls cache c backing slab new.reverse m1 page slots' slabs' bufctls' := by
  obtain ⟨backing, slab, new, m1, grows, page, slots', slabs', bufctls', given⟩ := getObject_granted
    (fun backing slab done m1 => ∃ page slots' slabs' bufctls',
      Given caches boot lent slots slabs bufctls cache c backing slab done m1 page slots' slabs' bufctls') sized.regular
    (fun backing m1 m2 answer m3 backed associated described => stocked.start sized enough backed associated described)
    (fun backing slab done buffer m1 answer m2 ⟨page, slots', slabs', bufctls', given⟩ found => by
      obtain ⟨bufctl, same, slots'', bufctls'', given'⟩ := given.next enough found
      exact ⟨bufctl, same, page, slots'', slabs', bufctls'', given'⟩) noUsed noFree got
  exact ⟨backing, slab, new, m1, page, slots', slabs', bufctls', grows, given⟩

/-- The pieces a new slab is made of. -/
def pieces (c : Config) (page slab : Nat) (new : List Nat) : List Piece :=
  .page page :: if c.compact then [] else .slab slab :: new.map .bufctl

private theorem blocks_eq {new : List Nat} :
    c.blocks (directAddr page) slab new = (pieces c page slab new).map (Piece.block c) := by
  unfold Config.blocks pieces
  split
  · rfl
  · simp [Piece.block, Function.comp_def]

section Fresh

variable {backing : Nat} {new slabs' bufctls' : List Nat}

private theorem Given.in_use
    (given : Given caches boot lent slots slabs bufctls cache c backing slab new.reverse m page slots' slabs' bufctls')
    {piece : Piece} (member : piece ∈ pieces c page slab new) : piece.InUse slots' slabs' bufctls' cache c := by
  rcases List.mem_cons.mp member with rfl | member
  · exact given.here
  · split at member
    next => cases member
    next external =>
      obtain ⟨rfl, _, rfl, _⟩ := given.outer (by simpa using external)
      rcases List.mem_cons.mp member with rfl | member
      · exact List.mem_cons_self
      · obtain ⟨b, inside, rfl⟩ := List.mem_map.mp member
        exact List.mem_append_left _ (List.mem_reverse.mpr inside)

theorem Given.nodup
    (given : Given caches boot lent slots slabs bufctls cache c backing slab new.reverse m page slots' slabs' bufctls') :
    (pieces c page slab new).Nodup := by
  unfold pieces
  split
  next => exact List.nodup_singleton _
  next external =>
    have separate := (given.outer (by simpa using external)).2.2.2.1
    have map : (new.map Piece.bufctl).Nodup :=
      (List.nodup_reverse.mp separate).map fun _ _ same => Piece.bufctl.inj same
    simp [map]

/-- What the cache has in use is made of other pieces. -/
theorem Given.old
    (given : Given caches boot lent slots slabs bufctls cache c backing slab new.reverse m page slots' slabs' bufctls')
    (client : Client slots slabs bufctls cache c s handed) (served : 0 < c.buffers) {block : Block}
    (used : s.Uses c block) :
    ∃ piece, block = Piece.block c piece ∧ piece.InUse slots' slabs' bufctls' cache c ∧ piece ∉ pieces c page slab new := by
  rcases used with ⟨x, made, same | ⟨external, same⟩⟩ | ⟨external, xs, b, ring, mapped, same⟩
  · obtain ⟨own, located, there⟩ := client.backed.page x made
    have different : own ≠ page := by
      rintro rfl
      rw [given.vacant] at there
      cases there
    refine ⟨.page own, by rw [same, located]; rfl, given.more own _ there, ?_⟩
    unfold pieces
    split <;> simp [different]
  · obtain ⟨rfl, fresh, _⟩ := given.outer external
    have kept := client.slabs external made
    have different : x ≠ slab := fun equal => fresh (equal ▸ kept)
    refine ⟨.slab x, same, List.mem_cons_of_mem _ kept, ?_⟩
    simp [pieces, external, different]
  · obtain ⟨_, _, rfl, _, fresh⟩ := given.outer external
    have kept := client.bufctls external served xs b ring mapped
    have outside : b ∉ new := fun inside => fresh b (List.mem_reverse.mpr inside) kept
    refine ⟨.bufctl b, same, List.mem_append_right _ kept, ?_⟩
    simp [pieces, external, outside]

theorem Given.fresh
    (given : Given caches boot lent slots slabs bufctls cache c backing slab new.reverse m page slots' slabs' bufctls')
    (client : Client slots slabs bufctls cache c s handed) (sized : Sized c)
    (notSlabs : cache ≠ caches.slabCache) (notBufctls : cache ≠ caches.bufctlCache) (served : 0 < c.buffers) :
    Fresh c s backing slab new := by
  have address := given.address
  subst address
  refine ⟨?_, fun block member used uses => ?_⟩
  · rw [blocks_eq, List.pairwise_map]
    exact given.nodup.imp_of_mem fun inside inside' other =>
      Piece.apart given.stocked sized notSlabs notBufctls (given.in_use inside) (given.in_use inside') other
  · rw [blocks_eq] at member
    obtain ⟨piece, inside, rfl⟩ := List.mem_map.mp member
    obtain ⟨other, rfl, inUse, outside⟩ := given.old client served uses
    exact Piece.apart given.stocked sized notSlabs notBufctls (given.in_use inside) inUse
      (ne_of_mem_of_not_mem inside outside)

theorem Given.wider {done : List Nat}
    (given : Given caches boot lent slots slabs bufctls cache c backing slab done m page slots' slabs' bufctls') :
    slabs ⊆ slabs' ∧ bufctls ⊆ bufctls' := by
  cases compact : c.compact with
  | true =>
    obtain ⟨rfl, rfl⟩ := given.inner compact
    exact ⟨fun _ member => member, fun _ member => member⟩
  | false =>
    obtain ⟨rfl, _, rfl, _⟩ := given.outer compact
    exact ⟨fun _ member => List.mem_cons_of_mem _ member, fun _ member => List.mem_append_right _ member⟩

end Fresh

private theorem mapped_of_ring (kept : Kept c s g handed) {xs : List Link} {b : Nat} (ring : IsRing s.links .objMap xs)
    (member : .bufctls b ∈ xs) : b ∈ g.mapped := by
  rw [ring.unique kept.holds.shelved.map] at member
  obtain ⟨b', inside, same⟩ := List.mem_map.mp member
  cases same
  exact inside

theorem Client.get_served (client : Client slots slabs bufctls cache c s handed)
    (stocked : Stocked caches boot m lent slots slabs bufctls) (sized : Sized c) (notSlabs : cache ≠ caches.slabCache)
    (notBufctls : cache ≠ caches.bufctlCache) (served : 0 < c.buffers) (enough : 2 ^ 65 ≤ limit)
    (got : Cache.getObject limit c (caches.supply limit cache) s m = some (answer, s', m')) :
    answer.isSome = true ∧ ∃ slots' slabs' bufctls', Stocked caches boot m' lent slots' slabs' bufctls' ∧
      Extends slots slots' ∧ slabs ⊆ slabs' ∧ bufctls ⊆ bufctls' ∧
      Client slots' slabs' bufctls' cache c s' (answer.toList ++ handed) := by
  obtain ⟨g, kept⟩ := client.kept served
  have few := client.backed.few stocked.booked
  have supplied : Supplied c (caches.supply limit cache) s m := by
    intro noUsed noFree
    obtain ⟨backing, slab, new, m1, page, slots', slabs', bufctls', grows, given⟩ :=
      stocked.gives sized enough noUsed noFree got
    exact ⟨backing, slab, new, m1, grows, given.fresh client sized notSlabs notBufctls served⟩
  obtain ⟨object, s1, m1, g', slab, bufctl, ran, kept', _, taken, source⟩ :=
    getObject_spec kept sized.regular served supplied (show s.made.length + 1 < limit by omega)
  cases got.symm.trans ran
  have barren : c.buffers ≠ 0 := Nat.ne_of_gt served
  refine ⟨rfl, ?_⟩
  by_cases old : slab ∈ s.made
  · have stays : m' = m ∧ s'.made = s.made ∧ g'.mapped = g.mapped := by
      cases source with
      | old same made _ mapped => exact ⟨same, made, mapped⟩
      | new _ _ _ _ unmade => exact absurd old unmade
    obtain ⟨rfl, made, mapped⟩ := stays
    refine ⟨slots, slabs, bufctls, stocked, .refl slots, fun _ member => member, fun _ member => member,
      client.backed.source kept' taken source (.refl slots) fun unmade => absurd old unmade, fun _ => ⟨g', kept'⟩,
      fun none => absurd none barren, fun external => made ▸ client.slabs external, fun external _ xs b ring member => ?_⟩
    have inside := mapped_of_ring kept' ring member
    rw [mapped] at inside
    exact client.bufctls external served _ b kept.holds.shelved.map (List.mem_map.mpr ⟨b, inside, rfl⟩)
  · cases source with
    | old _ made => exact absurd (made ▸ taken.member) old
    | new noUsed noFree grows fresh unmade made backing mapped =>
      obtain ⟨_, _, new, m1, page, slots', slabs', bufctls', grows', given⟩ :=
        stocked.gives sized enough noUsed noFree got
      obtain ⟨rfl, rfl, rfl, rfl⟩ := grows.unique grows'
      have wider := given.wider
      refine ⟨slots', slabs', bufctls', given.stocked, given.more, wider.1, wider.2, ?_, fun _ => ⟨g', kept'⟩,
        fun none => absurd none barren, fun external => ?_, fun external _ xs b ring member => ?_⟩
      · apply client.backed.source kept' taken (.new noUsed noFree grows fresh unmade made backing mapped) given.more
        intro _ block bufctls grows''
        obtain ⟨rfl, _⟩ := grows''.unique grows
        exact ⟨page, given.address, given.vacant, given.here⟩
      · obtain ⟨rfl, _⟩ := given.outer external
        rw [made]
        exact List.cons_subset_cons _ (client.slabs external)
      · obtain ⟨_, _, rfl, _⟩ := given.outer external
        have inside := mapped_of_ring kept' ring member
        rw [mapped, Ledger.grown, if_neg (by rw [external]; exact Bool.false_ne_true), List.mem_append] at inside
        rcases inside with inside | inside
        · exact List.mem_append_left _ inside
        · exact List.mem_append_right _
            (client.bufctls external served _ b kept.holds.shelved.map (List.mem_map.mpr ⟨b, inside, rfl⟩))

/-- `get_object` of a cache whose slabs have no buffers: everything is given back. -/
theorem Client.get_barren (client : Client slots slabs bufctls cache c s handed)
    (stocked : Stocked caches boot m lent slots slabs bufctls) (sized : Sized c) (notSlabs : cache ≠ caches.slabCache)
    (notBufctls : cache ≠ caches.bufctlCache) (none : c.buffers = 0) (enough : 2 ^ 65 ≤ limit)
    (got : Cache.getObject limit c (caches.supply limit cache) s m = some (answer, s', m')) :
    answer = Option.none ∧ ∃ slots', Stocked caches boot m' lent slots' slabs bufctls ∧ Extends slots slots' ∧
      Client slots' slabs bufctls cache c s' handed := by
  obtain ⟨unmade, empty, nothing⟩ := client.barren none
  have noUsed := (listEmpty_ring (empty .used (by simp))).mpr rfl
  have noFree := (listEmpty_ring (empty .free (by simp))).mpr rfl
  obtain ⟨backing, slab, new, m1, page, slots', slabs', bufctls', grows, given⟩ :=
    stocked.gives sized enough noUsed noFree got
  obtain ⟨rfl, made, _, empty', origin, external, m2, returned, freed⟩ := getObject_barren none empty grows got
  have address := given.address
  subst address
  obtain rfl : new = [] := List.eq_nil_of_length_eq_zero (grows.length.trans none)
  obtain ⟨rfl, fresh, rfl, _⟩ := given.outer external
  have stocked2 := given.stocked.putSlab enough List.mem_cons_self returned
  rw [List.erase_cons_head] at stocked2
  have more : Extends slots (Function.update slots' page Option.none) := by
    intro other slot here
    rw [Function.update_of_ne ?_]
    · exact given.more other slot here
    · rintro rfl
      rw [given.vacant] at here
      cases here
  refine ⟨rfl, _, stocked2.release sized given.here notSlabs notBufctls freed, more, ⟨?_, ?_, ?_, ?_⟩, ?_, ?_, ?_, ?_⟩
  · rw [made, unmade]
    exact List.nodup_nil
  · rw [made, unmade]
    nofun
  · rw [made, unmade]
    nofun
  · rw [origin]
    intro object slab bufctl named
    have member := (client.backed.origin object slab bufctl named).1
    rw [unmade] at member
    cases member
  · exact fun served => absurd none (Nat.ne_of_gt served)
  · exact fun _ => ⟨made.trans unmade, empty', nothing⟩
  · intro _
    rw [made, unmade]
    exact List.nil_subset _
  · exact fun _ served => absurd none (Nat.ne_of_gt served)

theorem Client.put (client : Client slots slabs bufctls cache c s handed) {pages : Pages}
    (booked : Booked boot pages lent slots)
    (sized : Sized c) (enough : 2 ^ 65 ≤ limit) (taken : object ∈ handed)
    (put : Cache.putObject limit c s object = some s') : Client slots slabs bufctls cache c s' (handed.erase object) := by
  have served : 0 < c.buffers := by
    rw [Nat.pos_iff_ne_zero]
    intro none
    rw [(client.barren none).2.2] at taken
    cases taken
  obtain ⟨⟨kept, backed⟩, made, rings⟩ := Serving.put ⟨client.kept served, client.backed⟩ booked served sized.regular.few
    enough taken put
  exact ⟨backed, fun _ => kept, fun none => absurd none (Nat.ne_of_gt served), fun external => made ▸ client.slabs external,
    fun external served xs b ring => client.bufctls external served xs b (rings xs ring)⟩

end Pools

end Hotarubi.Memory.Kmalloc
