import Hotarubi.Proofs.KmallocCaches

/-! Runs of the whole heap: any caches, `kmalloc` and `kfree`, and the other
clients of the page allocator. `get_cache` looks a page up by its number and finds
what the metadata of that page has come to hold. -/

namespace Hotarubi.Memory.Kmalloc
open Base Ring Cache Include

/-- The heap, the objects that are handed out of each cache, and the pages that
other parts of the kernel hold. -/
structure World where
  heap : Heap
  handed : UInt64 → List Nat
  lent : Nat → Prop

inductive Event where
  | get (cache : UInt64)
  | put (cache : UInt64) (ptr : Nat)
  | kmalloc (n : Nat)
  | kfree (ptr : Nat)
  | call (request : Physmm.Call)

inductive Answer where
  | object (ptr : Option Nat)
  | pages (ptr : Option UInt64)
  | done
  | panic
  deriving DecidableEq, Repr

/-- Once the direct map is in use, with the caches as `_cache_init` leaves them. -/
def World.initial (m : Physmm.State) (lent : Nat → Prop) : World :=
  ⟨⟨⟨m, []⟩, fun _ => .initial⟩, fun _ => [], lent⟩

def World.take (w : World) (cache : UInt64) (heap : Heap) (answer : Option Nat) : World :=
  ⟨heap, Function.update w.handed cache (answer.toList ++ w.handed cache), w.lent⟩

def World.give (w : World) (cache : UInt64) (heap : Heap) (ptr : Nat) : World :=
  ⟨heap, Function.update w.handed cache ((w.handed cache).erase ptr), w.lent⟩

def Event.exec (limit : Nat) (caches : Caches) (w : World) : Event → Option (Answer × World)
  | .get cache => do
    let (answer, heap) ← w.heap.getObject limit caches cache
    some (.object answer, w.take cache heap answer)
  | .put cache ptr => do
    let heap ← w.heap.putObject limit caches cache ptr
    some (.done, w.give cache heap ptr)
  | .kmalloc n => do
    let (answer, heap) ← w.heap.kmalloc limit caches n
    some (.object answer, w.take (((lookupCacheForSize n).map caches.kmallocCache).getD 0) heap answer)
  | .kfree ptr => do
    match ← w.heap.kfree limit caches ptr with
    | .panic => some (.panic, w)
    | .done heap => some (.done, w.give (getCache w.heap.pages.physmm (UInt64.ofNat ptr)) heap ptr)
  | .call request =>
    let (answer, pages) := w.heap.pages.exec request
    some (.pages answer, ⟨{ w.heap with pages }, w.handed, lentAfter w.heap.pages.physmm request w.lent⟩)

/-- The pools are private to the caches. Objects go back to where they came from,
and others give back pages that are lent to them. -/
def Event.Permitted (caches : Caches) (w : World) : Event → Prop
  | .get cache => cache ≠ caches.slabCache ∧ cache ≠ caches.bufctlCache
  | .put cache ptr => (cache ≠ caches.slabCache ∧ cache ≠ caches.bufctlCache) ∧ ptr ∈ w.handed cache
  | .kmalloc _ => True
  | .kfree ptr => ∃ size ∈ kmallocSizes, ptr ∈ w.handed (caches.kmallocCache size)
  | .call request => Entitled w.heap.pages.physmm w.lent request

/-- `get_cache` finds the cache of every object that was handed out of a slab. -/
def Found (caches : Caches) (w : World) : Prop :=
  ∀ cache c, caches.config cache = some c → ∀ object slab bufctl,
    (w.heap.cache cache).origin object = some (slab, bufctl) →
    getCache w.heap.pages.physmm (UInt64.ofNat object) = cache

/-- The call does not panic. -/
def Event.Survives (limit : Nat) (caches : Caches) (w : World) (event : Event) : Prop :=
  ∀ answer w', event.exec limit caches w = some (answer, w') → answer ≠ .panic

/-- The page that an address of the direct map lies in. -/
def directPage (address : Nat) : Nat := (address - kVMRangePhysMemBase.toNat) / 4096

/-- Every slab from which an object was handed out starts at a page whose number is
below the bytes of the bitmap and whose address is below 8 TiB, and no call has
handled the pages directly in front of it since. -/
def Undisturbed (caches : Caches) (w : World) : Prop :=
  ∀ cache c, caches.config cache = some c → ∀ object slab bufctl,
    (w.heap.cache cache).origin object = some (slab, bufctl) →
    let page := directPage ((w.heap.cache cache).backing slab)
    page < w.heap.pages.physmm.memoryMapSize.toNat ∧ page < 2 ^ 31 ∧ rewritten page w.heap.pages.calls = false

/-- The invariant: the pools, and each of the other caches on top of them. -/
structure Valid (caches : Caches) (boot : Physmm.State) (w : World) (slots : Nat → Option Slot)
    (slabs bufctls : List Nat) : Prop where
  stocked : Stocked caches boot (w.heap.pools caches) w.lent slots slabs bufctls
  clients : ∀ cache c, caches.config cache = some c → cache ≠ caches.slabCache → cache ≠ caches.bufctlCache →
    Client slots slabs bufctls cache c (w.heap.cache cache) (w.handed cache)
  strangers : ∀ cache, caches.config cache = none → w.handed cache = []

section System

variable {limit : Nat} {caches : Caches} {boot : Physmm.State} {w w' : World} {slots : Nat → Option Slot}
  {slabs bufctls : List Nat}
  {cache : UInt64} {c : Config} {ptr : Nat} {answer : Option Nat} {heap : Heap} {event : Event}

private theorem put_pools (notSlabs : cache ≠ caches.slabCache) (notBufctls : cache ≠ caches.bufctlCache)
    (s : Cache.State) (m : Pools) :
    (heap.put caches cache s m).pools caches = m := by
  simp only [Heap.put, Heap.pools, Function.update_of_ne notSlabs.symm, Function.update_of_ne notBufctls.symm,
    Function.update_of_ne caches.apart, Function.update_self]

private theorem put_cache (s : Cache.State) (m : Pools) : (heap.put caches cache s m).cache cache = s :=
    Function.update_self ..

private theorem put_other {other : UInt64} (different : other ≠ cache) (notSlabs : other ≠ caches.slabCache)
    (notBufctls : other ≠ caches.bufctlCache) (s : Cache.State) (m : Pools) :
    (heap.put caches cache s m).cache other = heap.cache other := by
  simp only [Heap.put, Function.update_of_ne different, Function.update_of_ne notSlabs, Function.update_of_ne notBufctls]

theorem Client.mono {slots' : Nat → Option Slot} {slabs' bufctls' handed : List Nat} {s : Cache.State}
    (client : Client slots slabs bufctls cache c s handed) (more : Extends slots slots') (moreSlabs : slabs ⊆ slabs')
    (moreBufctls : bufctls ⊆ bufctls') : Client slots' slabs' bufctls' cache c s handed :=
  ⟨client.backed.mono more, client.kept, client.barren, fun external _ member => moreSlabs (client.slabs external member),
    fun external served xs b ring member => moreBufctls (client.bufctls external served xs b ring member)⟩

theorem Caches.sized (caches : Caches) (modest : ∀ cache c, caches.config cache = some c → c.allocSize < 2 ^ 32)
    (known : caches.config cache = some c) : Sized c := by
  obtain ⟨size, align, checkOverflow, rfl⟩ := caches.created cache c known
  exact cacheInit_sized size align checkOverflow (modest cache _ known)

private theorem Valid.strangers_update (valid : Valid caches boot w slots slabs bufctls)
    (known : caches.config cache = some c)
    (objects : List Nat) (other : UInt64) (strange : caches.config other = none) :
    Function.update w.handed cache objects other = [] := by
  rw [Function.update_of_ne ?_]
  · exact valid.strangers other strange
  · rintro rfl
    rw [known] at strange
    cases strange

/-- A call of `get_object` on any cache but the pools. -/
theorem Valid.get (valid : Valid caches boot w slots slabs bufctls)
    (modest : ∀ cache c, caches.config cache = some c → c.allocSize < 2 ^ 32) (enough : 2 ^ 65 ≤ limit)
    (notSlabs : cache ≠ caches.slabCache) (notBufctls : cache ≠ caches.bufctlCache)
    (got : w.heap.getObject limit caches cache = some (answer, heap)) :
    ∃ slots' slabs' bufctls', Valid caches boot (w.take cache heap answer) slots' slabs' bufctls' := by
  obtain ⟨c, known, got⟩ := Option.bind_eq_some_iff.mp got
  obtain ⟨⟨answer', s, m⟩, ran, same⟩ := Option.bind_eq_some_iff.mp got
  cases same
  have sized := caches.sized modest known
  have client := valid.clients cache c known notSlabs notBufctls
  have step : ∃ slots' slabs' bufctls', Stocked caches boot m w.lent slots' slabs' bufctls' ∧ Extends slots slots' ∧
      slabs ⊆ slabs' ∧ bufctls ⊆ bufctls' ∧ Client slots' slabs' bufctls' cache c s (answer.toList ++ w.handed cache) := by
    rcases Nat.eq_zero_or_pos c.buffers with none | served
    · obtain ⟨rfl, slots', stocked, more, client'⟩ :=
        client.get_barren valid.stocked sized notSlabs notBufctls none enough ran
      exact ⟨slots', slabs, bufctls, stocked, more, fun _ member => member, fun _ member => member, client'⟩
    · exact (client.get_served valid.stocked sized notSlabs notBufctls served enough ran).2
  obtain ⟨slots', slabs', bufctls', stocked, more, moreSlabs, moreBufctls, client'⟩ := step
  refine ⟨slots', slabs', bufctls', ?_, fun other d known' otherSlabs otherBufctls => ?_,
    valid.strangers_update known _⟩
  · change Stocked caches boot ((w.heap.put caches cache s m).pools caches) w.lent slots' slabs' bufctls'
    rw [put_pools notSlabs notBufctls]
    exact stocked
  · change Client _ _ _ other d ((w.heap.put caches cache s m).cache other)
      (Function.update w.handed cache (answer.toList ++ w.handed cache) other)
    by_cases same : other = cache
    · subst same
      cases known.symm.trans known'
      rw [put_cache, Function.update_self]
      exact client'
    · rw [put_other same otherSlabs otherBufctls, Function.update_of_ne same]
      exact (valid.clients other d known' otherSlabs otherBufctls).mono more moreSlabs moreBufctls

/-- A call of `put_object` on any cache but the pools. -/
theorem Valid.put (valid : Valid caches boot w slots slabs bufctls)
    (modest : ∀ cache c, caches.config cache = some c → c.allocSize < 2 ^ 32) (enough : 2 ^ 65 ≤ limit)
    (notSlabs : cache ≠ caches.slabCache) (notBufctls : cache ≠ caches.bufctlCache) (taken : ptr ∈ w.handed cache)
    (put : w.heap.putObject limit caches cache ptr = some heap) :
    Valid caches boot (w.give cache heap ptr) slots slabs bufctls := by
  obtain ⟨c, known, put⟩ := Option.bind_eq_some_iff.mp put
  obtain ⟨s, ran, same⟩ := Option.bind_eq_some_iff.mp put
  cases same
  have client := (valid.clients cache c known notSlabs notBufctls).put valid.stocked.booked
    (caches.sized modest known) enough
    taken ran
  refine ⟨?_, fun other d known' otherSlabs otherBufctls => ?_, valid.strangers_update known _⟩
  · have pools : Heap.pools caches { w.heap with cache := Function.update w.heap.cache cache s } = w.heap.pools caches := by
      simp only [Heap.pools, Function.update_of_ne notSlabs.symm, Function.update_of_ne notBufctls.symm]
    change Stocked caches boot (Heap.pools caches { w.heap with cache := Function.update w.heap.cache cache s }) _ _ _ _
    rw [pools]
    exact valid.stocked
  · change Client _ _ _ other d (Function.update w.heap.cache cache s other)
      (Function.update w.handed cache ((w.handed cache).erase ptr) other)
    by_cases same : other = cache
    · subst same
      cases known.symm.trans known'
      rw [Function.update_self, Function.update_self]
      exact client
    · rw [Function.update_of_ne same, Function.update_of_ne same]
      exact valid.clients other d known' otherSlabs otherBufctls

theorem kmalloc_separate {size : Nat} (member : size ∈ kmallocSizes)
    (known : caches.config (caches.kmallocCache size) = some c) :
    caches.kmallocCache size ≠ caches.slabCache ∧ caches.kmallocCache size ≠ caches.bufctlCache := by
  have config : c = kmallocConfig size := by
    rcases caches.rows size member with null | row
    · rw [null, caches.null] at known
      cases known
    · exact Option.some.inj (known.symm.trans row)
  have others : ∀ size ∈ kmallocSizes, kmallocConfig size ≠ slabPool ∧ kmallocConfig size ≠ bufctlPool := by decide
  refine ⟨fun same => ?_, fun same => ?_⟩
  · rw [same, caches.slabs] at known
    exact (others size member).1 (config.symm.trans (Option.some.inj known).symm)
  · rw [same, caches.bufctls] at known
    exact (others size member).2 (config.symm.trans (Option.some.inj known).symm)

theorem lookupCacheForSize_mem {n size : Nat} (found : lookupCacheForSize n = some size) : size ∈ kmallocSizes :=
  List.mem_of_find?_eq_some found

theorem Valid.initial {m : Physmm.State} {lent : Nat → Prop} (direct : m.Direct) (sound : m.Sound) (first : m.used 0 = true)
    (lends : ∀ i, lent i → i < m.mapBits ∧ m.used i = true) : Valid caches m (.initial m lent) (fun _ => none) [] [] := by
  have backed (cache : UInt64) (c : Config) : Backed (fun _ => none) cache c .initial :=
    ⟨List.nodup_nil, nofun, nofun, nofun⟩
  refine ⟨⟨⟨direct, .refl m, sound, first, lends, nofun, nofun, nofun, nofun⟩, ⟨⟨_, initial_kept⟩, backed _ _⟩,
    ⟨⟨_, initial_kept⟩, backed _ _⟩⟩, fun cache c _ _ _ => ⟨backed _ _, fun _ => ⟨_, initial_kept⟩,
    fun _ => ⟨rfl, initial_rings.1, rfl⟩, fun _ => List.nil_subset _, fun _ _ xs b ring member => ?_⟩, fun _ _ => rfl⟩
  rw [ring.unique initial_rings.2] at member
  cases member

theorem Valid.backed (valid : Valid caches boot w slots slabs bufctls) (known : caches.config cache = some c) :
    Backed slots cache c (w.heap.cache cache) := by
  by_cases first : cache = caches.slabCache
  · subst first
    cases known.symm.trans caches.slabs
    exact valid.stocked.slabs.backed
  · by_cases second : cache = caches.bufctlCache
    · subst second
      cases known.symm.trans caches.bufctls
      exact valid.stocked.bufctls.backed
    · exact (valid.clients cache c known first second).backed

private theorem directPage_directAddr (page : Nat) : directPage (directAddr page) = page := by
  unfold directPage directAddr
  omega

theorem Sized.offset (sized : Sized c) {i : Nat} (bound : i < c.buffers) : c.bufferSize * i < 4096 := by
  have whole := buffer_lt sized.regular bound
  rw [Nat.mul_add_one] at whole
  rcases sized.regular.first with single | few
  · have positive : c.bufferSize ≠ 0 := by
      intro zero
      rw [Config.buffers, zero, Nat.div_zero] at bound
      cases bound
    rw [single, slabSize] at whole
    omega
  · obtain rfl : i = 0 := by omega
    rw [Nat.mul_zero]
    decide

/-- An object lies on a page of the map that is lent to its cache. -/
theorem Valid.located (valid : Valid caches boot w slots slabs bufctls)
    (modest : ∀ cache c, caches.config cache = some c → c.allocSize < 2 ^ 32) (known : caches.config cache = some c)
    {object slab bufctl : Nat} (origin : (w.heap.cache cache).origin object = some (slab, bufctl)) :
    ∃ page offset, (w.heap.cache cache).backing slab = directAddr page ∧ slots page = some (slotOf cache c) ∧
      page < boot.mapBits ∧ object = directAddr page + offset ∧ offset < 4096 := by
  have backed := valid.backed known
  have booked := valid.stocked.booked
  obtain ⟨member, i, bound, rfl⟩ := backed.origin object slab bufctl origin
  obtain ⟨page, address, here⟩ := backed.page slab member
  have inside : page < boot.mapBits := booked.layout.mapBits ▸ (booked.inside page _ here).2.1
  exact ⟨page, c.bufferSize * i, address, here, inside, by rw [address], (caches.sized modest known).offset bound⟩

private theorem Valid.owner_iff (valid : Valid caches boot w slots slabs bufctls)
    (modest : ∀ cache c, caches.config cache = some c → c.allocSize < 2 ^ 32)
    (apart : ∀ i < boot.mapBits, caches.config (boot.linkAddr i) = none) (known : caches.config cache = some c)
    {object slab bufctl : Nat} (origin : (w.heap.cache cache).origin object = some (slab, bufctl)) :
    let page := directPage ((w.heap.cache cache).backing slab)
    getCache w.heap.pages.physmm (UInt64.ofNat object) = cache ↔
      page < w.heap.pages.physmm.memoryMapSize.toNat ∧ page < 2 ^ 31 ∧ rewritten page w.heap.pages.calls = false := by
  obtain ⟨page, offset, address, here, inside, rfl, within⟩ := valid.located modest known origin
  rw [address, directPage_directAddr]
  apply valid.stocked.booked.getCache_iff here within
  · rintro (null : cache = 0)
    rw [null, caches.null] at known
    cases known
  · rintro (entry : boot.linkAddr page = cache)
    rw [← entry, apart page inside] at known
    cases known

theorem Valid.found_iff (valid : Valid caches boot w slots slabs bufctls)
    (modest : ∀ cache c, caches.config cache = some c → c.allocSize < 2 ^ 32)
    (apart : ∀ i < boot.mapBits, caches.config (boot.linkAddr i) = none) : Found caches w ↔ Undisturbed caches w :=
  ⟨fun found cache c known object slab bufctl origin =>
      (valid.owner_iff modest apart known origin).mp (found cache c known object slab bufctl origin),
    fun undisturbed cache c known object slab bufctl origin =>
      (valid.owner_iff modest apart known origin).mpr (undisturbed cache c known object slab bufctl origin)⟩

/-- Where `get_cache` does not find the cache of an object, it finds no cache. -/
theorem Valid.owner_cases (valid : Valid caches boot w slots slabs bufctls)
    (modest : ∀ cache c, caches.config cache = some c → c.allocSize < 2 ^ 32)
    (apart : ∀ i < boot.mapBits, caches.config (boot.linkAddr i) = none) (known : caches.config cache = some c)
    {object slab bufctl : Nat} (origin : (w.heap.cache cache).origin object = some (slab, bufctl)) :
    getCache w.heap.pages.physmm (UInt64.ofNat object) = cache ∨
      caches.config (getCache w.heap.pages.physmm (UInt64.ofNat object)) = none := by
  obtain ⟨page, offset, address, here, inside, rfl, within⟩ := valid.located modest known origin
  rcases valid.stocked.booked.getCache_cases here within with own | null | entry
  · exact .inl own
  · exact .inr ((congrArg caches.config null).trans caches.null)
  · exact .inr ((congrArg caches.config entry).trans (apart page inside))

/-- What is handed out of a row comes from a slab of its cache. -/
theorem Valid.taken (valid : Valid caches boot w slots slabs bufctls) {size : Nat} (member : size ∈ kmallocSizes)
    (taken : ptr ∈ w.handed (caches.kmallocCache size)) :
    caches.config (caches.kmallocCache size) = some (kmallocConfig size) ∧ caches.kmallocCache size ≠ 0 ∧
      ∃ g slab bufctl, Kept (kmallocConfig size) (w.heap.cache (caches.kmallocCache size)) g
        (w.handed (caches.kmallocCache size)) ∧
        (w.heap.cache (caches.kmallocCache size)).origin ptr = some (slab, bufctl) := by
  rcases caches.rows size member with null | known
  · rw [null, valid.strangers 0 caches.null] at taken
    cases taken
  · obtain ⟨notSlabs, notBufctls⟩ := kmalloc_separate member known
    have client := valid.clients _ _ known notSlabs notBufctls
    have served : 0 < (kmallocConfig size).buffers := by
      rw [Nat.pos_iff_ne_zero]
      intro none
      rw [(client.barren none).2.2] at taken
      cases taken
    obtain ⟨g, kept⟩ := client.kept served
    obtain ⟨slab, bufctl, origin⟩ := kept.origin taken
    refine ⟨known, fun null => ?_, g, slab, bufctl, kept, origin⟩
    rw [null, caches.null] at known
    cases known

private theorem Valid.kfree_owner (valid : Valid caches boot w slots slabs bufctls) (found : Found caches w) {size : Nat}
    (member : size ∈ kmallocSizes) (taken : ptr ∈ w.handed (caches.kmallocCache size)) :
    ptr ≠ 0 ∧ getCache w.heap.pages.physmm (UInt64.ofNat ptr) ≠ 0 := by
  obtain ⟨known, real, g, slab, bufctl, _, origin⟩ := valid.taken member taken
  have owner := found _ _ known ptr slab bufctl origin
  refine ⟨?_, fun null => real (owner.symm.trans null)⟩
  rintro rfl
  exact real owner.symm

private theorem Valid.survives (valid : Valid caches boot w slots slabs bufctls) (permitted : event.Permitted caches w)
    (found : Found caches w) : event.Survives limit caches w := by
  intro answer w' ran
  cases event with
  | get cache =>
    obtain ⟨_, _, same⟩ := Option.bind_eq_some_iff.mp ran
    cases same
    exact nofun
  | put cache ptr =>
    obtain ⟨_, _, same⟩ := Option.bind_eq_some_iff.mp ran
    cases same
    exact nofun
  | kmalloc n =>
    obtain ⟨_, _, same⟩ := Option.bind_eq_some_iff.mp ran
    cases same
    exact nofun
  | kfree ptr =>
    obtain ⟨size, member, taken⟩ := permitted
    obtain ⟨nonzero, real⟩ := valid.kfree_owner found member taken
    obtain ⟨freed, frees, same⟩ := Option.bind_eq_some_iff.mp ran
    rw [Heap.kfree, if_neg nonzero, if_pos real] at frees
    obtain ⟨heap, _, done⟩ := Option.bind_eq_some_iff.mp frees
    cases done
    cases same
    exact nofun
  | call request =>
    cases ran
    exact nofun

theorem Valid.kmalloc (valid : Valid caches boot w slots slabs bufctls)
    (modest : ∀ cache c, caches.config cache = some c → c.allocSize < 2 ^ 32) (enough : 2 ^ 65 ≤ limit) {n : Nat}
    (got : w.heap.kmalloc limit caches n = some (answer, heap)) :
    ∃ slots' slabs' bufctls',
      Valid caches boot (w.take (((lookupCacheForSize n).map caches.kmallocCache).getD 0) heap answer)
        slots' slabs' bufctls' := by
  unfold Heap.kmalloc at got
  cases row : lookupCacheForSize n with
  | none =>
    rw [row] at got
    cases got
    refine ⟨slots, slabs, bufctls, valid.stocked, fun cache c known notSlabs notBufctls => ?_, fun cache strange => ?_⟩
    · simpa [World.take] using valid.clients cache c known notSlabs notBufctls
    · simpa [World.take] using valid.strangers cache strange
  | some size =>
    rw [row] at got
    obtain ⟨c, known, _⟩ := Option.bind_eq_some_iff.mp got
    obtain ⟨notSlabs, notBufctls⟩ := kmalloc_separate (lookupCacheForSize_mem row) known
    exact valid.get modest enough notSlabs notBufctls got

/-- One call keeps the invariant: a `kfree` that does not find the cache panics, or
does not come back. -/
theorem Valid.exec (valid : Valid caches boot w slots slabs bufctls)
    (modest : ∀ cache c, caches.config cache = some c → c.allocSize < 2 ^ 32)
    (apart : ∀ i < boot.mapBits, caches.config (boot.linkAddr i) = none) (enough : 2 ^ 65 ≤ limit)
    (permitted : event.Permitted caches w) {answer : Answer} (ran : event.exec limit caches w = some (answer, w')) :
    ∃ slots' slabs' bufctls', Valid caches boot w' slots' slabs' bufctls' := by
  cases event with
  | get cache =>
    obtain ⟨⟨object, heap⟩, got, same⟩ := Option.bind_eq_some_iff.mp ran
    cases same
    exact valid.get modest enough permitted.1 permitted.2 got
  | put cache ptr =>
    obtain ⟨heap, put, same⟩ := Option.bind_eq_some_iff.mp ran
    cases same
    exact ⟨slots, slabs, bufctls, valid.put modest enough permitted.1.1 permitted.1.2 permitted.2 put⟩
  | kmalloc n =>
    obtain ⟨⟨object, heap⟩, got, same⟩ := Option.bind_eq_some_iff.mp ran
    cases same
    exact valid.kmalloc modest enough got
  | kfree ptr =>
    obtain ⟨size, member, taken⟩ := permitted
    obtain ⟨known, _, g, slab, bufctl, _, origin⟩ := valid.taken member taken
    obtain ⟨notSlabs, notBufctls⟩ := kmalloc_separate member known
    obtain ⟨freed, frees, same⟩ := Option.bind_eq_some_iff.mp ran
    unfold Heap.kfree at frees
    split at frees
    next =>
      cases frees
      cases same
      exact ⟨slots, slabs, bufctls, valid⟩
    next =>
      simp only at frees
      split at frees
      next =>
        obtain ⟨heap, put, done⟩ := Option.bind_eq_some_iff.mp frees
        cases done
        cases same
        rcases valid.owner_cases modest apart known origin with owner | strange
        · rw [owner] at put ⊢
          exact ⟨slots, slabs, bufctls, valid.put modest enough notSlabs notBufctls taken put⟩
        · rw [Heap.putObject, strange] at put
          cases put
      next =>
        cases frees
        cases same
        exact ⟨slots, slabs, bufctls, valid⟩
  | call request =>
    cases ran
    exact ⟨slots, slabs, bufctls, ⟨valid.stocked.booked.others permitted, valid.stocked.slabs, valid.stocked.bufctls⟩,
      valid.clients, valid.strangers⟩

/-- What holds after any number of calls. -/
def World.Ready (caches : Caches) (boot : Physmm.State) (_ : Nat) (w : World) : Prop :=
  ∃ slots slabs bufctls, Valid caches boot w slots slabs bufctls

/-- In every run of any caches on the page allocator, from any map, `get_cache`
finds the cache of all objects and `kfree` does not panic exactly as long as every
slab starts at a page that the metadata lookup reaches and no call handles the
pages directly in front of it. -/
theorem slab_owner_iff (m : Physmm.State) (lent : Nat → Prop) (events : List Event) (direct : m.Direct) (sound : m.Sound)
    (first : m.used 0 = true) (lends : ∀ i, lent i → i < m.mapBits ∧ m.used i = true)
    (modest : ∀ cache c, caches.config cache = some c → c.allocSize < 2 ^ 32)
    (apart : ∀ i < m.mapBits, caches.config (m.linkAddr i) = none) (enough : 2 ^ 65 ≤ limit)
    (permitted : EachStep (Event.exec limit caches) (fun w event => event.Permitted caches w) (.initial m lent) events) :
    EachStep (Event.exec limit caches) (fun w event => Found caches w ∧ event.Survives limit caches w)
      (.initial m lent) events ↔
      EachStep (Event.exec limit caches) (fun w _ => Undisturbed caches w) (.initial m lent) events := by
  have valid : World.Ready caches m 0 (.initial m lent) := ⟨_, _, _, Valid.initial direct sound first lends⟩
  have same : ∀ n w (event : Event), n < events.length → World.Ready caches m n w → event.Permitted caches w →
      (Found caches w ∧ event.Survives limit caches w ↔ Undisturbed caches w) := by
    intro n w event _ ready allowed
    obtain ⟨slots, slabs, bufctls, valid⟩ := ready
    have iff := valid.found_iff modest apart
    exact ⟨fun behaves => iff.mp behaves.1, fun undisturbed =>
      ⟨iff.mpr undisturbed, valid.survives allowed (iff.mpr undisturbed)⟩⟩
  have kept : ∀ n w (event : Event) answer w', n < events.length → World.Ready caches m n w → event.Permitted caches w →
      Undisturbed caches w → event.exec limit caches w = some (answer, w') → World.Ready caches m (n + 1) w' := by
    intro n w event answer w' _ ready allowed _ ran
    obtain ⟨slots, slabs, bufctls, valid⟩ := ready
    exact valid.exec modest apart enough allowed ran
  exact eachStep_iff same kept valid (Nat.le_of_eq (Nat.zero_add _)) permitted

end System

/-- The pools and the row for 256 bytes. -/
def earlyCaches : Caches where
  slabCache := 0xffffffff80200000
  bufctlCache := 0xffffffff80200100
  config cache :=
    if cache = 0xffffffff80200000 then some slabPool
    else if cache = 0xffffffff80200100 then some bufctlPool
    else if cache = 0xffffffff80200200 then some (kmallocConfig 256)
    else none
  kmallocCache size := if size = 256 then 0xffffffff80200200 else 0
  null := by decide
  slabs := by decide
  bufctls := by decide
  apart := by decide
  created cache c known := by
    split at known
    next => exact ⟨_, _, _, (Option.some.inj known).symm⟩
    next =>
      split at known
      next => exact ⟨_, _, _, (Option.some.inj known).symm⟩
      next =>
        split at known
        next => exact ⟨_, _, _, (Option.some.inj known).symm⟩
        next => cases known
  rows := by decide

/-- The pools and one row have slabs of a modest size if the row has. -/
theorem row_modest {cache : UInt64} {c : Config} {size : Nat} (modest : (kmallocConfig size).allocSize < 2 ^ 32)
    (known : (if cache = 0xffffffff80200000 then some slabPool
      else if cache = 0xffffffff80200100 then some bufctlPool
      else if cache = 0xffffffff80200200 then some (kmallocConfig size)
      else none) = some c) : c.allocSize < 2 ^ 32 := by
  split at known
  next =>
    cases known
    decide
  next =>
    split at known
    next =>
      cases known
      decide
    next =>
      split at known
      next =>
        cases known
        exact modest
      next => cases known

theorem earlyCaches_modest (cache : UInt64) (c : Config) (known : earlyCaches.config cache = some c) :
    c.allocSize < 2 ^ 32 := by
  have modest : (kmallocConfig 256).allocSize < 2 ^ 32 := by decide
  exact row_modest modest known

/-- A map of 64 pages once the kernel runs on the direct map. -/
def earlyMap (word : BitVec 32) (used : UInt32) : Physmm.State :=
  { Physmm.setMemoryMap [word, 0] used with memoryMapBase := kVMRangePhysMemBase }

theorem slab_owner_iff_witness :
    let events := [Event.kmalloc 256, .call (.allocPage Physmm.kActive), .kfree 0xffff880000001dd0]
    EachStep (Event.exec (2 ^ 65) earlyCaches) (fun w event => Found earlyCaches w ∧ event.Survives (2 ^ 65) earlyCaches w)
        (.initial (earlyMap 1 1) fun _ => False) events ↔
      EachStep (Event.exec (2 ^ 65) earlyCaches) (fun w _ => Undisturbed earlyCaches w)
        (.initial (earlyMap 1 1) fun _ => False) events := by
  refine slab_owner_iff (earlyMap 1 1) _ _ rfl (.inl (by decide)) (by decide) (fun i lent => lent.elim) earlyCaches_modest
    (by decide +kernel) (Nat.le_refl _) ?_
  refine (eachStep_get (by decide +kernel)).mpr ⟨trivial, ?_⟩
  refine (eachStep_get (by decide +kernel)).mpr ⟨fun takes => absurd takes (by decide), ?_⟩
  exact (eachStep_get (by decide +kernel)).mpr ⟨⟨256, by decide, by decide +kernel⟩, trivial⟩

/-- Page 8 of 64 is beyond the 8 bytes of the bitmap: the cache of a slab there is
not found, and `kfree` panics. -/
theorem slab_owner_lost :
    ¬ ∀ (limit : Nat) (caches : Caches) (m : Physmm.State) (lent : Nat → Prop) (events : List Event), m.Direct → m.Sound →
      m.used 0 = true → (∀ i, lent i → i < m.mapBits ∧ m.used i = true) →
      (∀ cache c, caches.config cache = some c → c.allocSize < 2 ^ 32) →
      (∀ i < m.mapBits, caches.config (m.linkAddr i) = none) → 2 ^ 65 ≤ limit →
      EachStep (Event.exec limit caches) (fun w event => event.Permitted caches w) (.initial m lent) events →
      EachStep (Event.exec limit caches) (fun w event => Found caches w ∧ event.Survives limit caches w)
        (.initial m lent) events := by
  intro claim
  have each := claim (2 ^ 65) earlyCaches (earlyMap 0xff 8) (fun _ => False) [.kmalloc 256, .kfree 0xffff880000008dd0] rfl
    (.inl (by decide)) (by decide) (fun i lent => lent.elim) earlyCaches_modest (by decide +kernel) (Nat.le_refl _)
    ((eachStep_get (by decide +kernel)).mpr ⟨trivial, (eachStep_get (by decide +kernel)).mpr
      ⟨⟨256, by decide, by decide +kernel⟩, trivial⟩⟩)
  have survives := ((eachStep_get (by decide +kernel)).mp each).2.1.2
  have panics : ((Event.kfree 0xffff880000008dd0).exec (2 ^ 65) earlyCaches
      ((Event.exec (2 ^ 65) earlyCaches (.initial (earlyMap 0xff 8) fun _ => False) (.kmalloc 256)).get
        (by decide +kernel)).2).map Prod.fst = some .panic := by decide +kernel
  obtain ⟨⟨answer, w'⟩, exec, panic⟩ := Option.map_eq_some_iff.mp panics
  exact survives answer w' exec panic

end Hotarubi.Memory.Kmalloc
