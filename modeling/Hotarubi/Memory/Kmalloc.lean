import Hotarubi.Memory.Cache
import Hotarubi.Memory.Physmm

/-! The object caches on top of the page allocator, and `kmalloc` on top of them.
The metadata of a page names the cache whose slab starts there. Caches are known
by the address of their `mem_cache`, and the null pointer is 0. -/

namespace Hotarubi.Memory.Kmalloc
open Cache Physmm

/-- The page allocator, and the calls it has been given, the last one first, with
the state each of them came in. The calls are auxiliary. -/
structure Pages where
  physmm : Physmm.State
  calls : List (Physmm.State × Call)

def Pages.exec (m : Pages) (call : Call) : Option UInt64 × Pages :=
  let (answer, physmm) := call.exec m.physmm
  (answer, ⟨physmm, (m.physmm, call) :: m.calls⟩)

/-- The number of pages for `n` bytes, cut to the `unsigned` it is passed as. -/
def pageCount (n : Nat) : UInt32 :=
  let n := if n % 0x1000 ≠ 0 then n + (0x1000 - n % 0x1000) else n
  UInt32.ofNat (n / 0x1000)

def backingPageAlloc (n : Nat) (m : Pages) : Option UInt64 × Pages :=
  m.exec (.allocPageRange (pageCount n) (kLocked ||| kSlab))

def backingPageFree (ptr : UInt64) (n : Nat) (m : Pages) : Pages :=
  (m.exec (.freePageRange ptr (pageCount n))).2

/-- `page_map->link.next = cache`, where the backing has an entry. -/
def associate (cache backing : UInt64) (m : Pages) : Pages :=
  match getPageMap m.physmm (pa backing) with
  | none => m
  | some map =>
    let entry := m.physmm.pageMaps map
    { m with physmm := { m.physmm with
        pageMaps := Function.update m.physmm.pageMaps map { entry with link := { entry.link with next := cache } } } }

def getCache (m : Physmm.State) (ptr : UInt64) : UInt64 :=
  if ptr ≠ 0 then
    match getPageMap m (pa ptr) with
    | some map => if (m.pageMaps map).flags &&& kSlab ≠ 0 then (m.pageMaps map).link.next else 0
    | none => 0
  else 0

/-- What a cache that carries its descriptors inline calls. -/
def pageSupply (cache : UInt64) : Supply Pages where
  slabAlloc n m :=
    let (answer, m) := backingPageAlloc n m
    some (answer.map UInt64.toNat, m)
  associate answer m := some (associate cache (UInt64.ofNat (answer.getD 0)) m)
  slabFree backing n m := some (backingPageFree (UInt64.ofNat backing) n m)
  getSlab _ := none
  putSlab _ _ := none
  getBufctl _ := none
  putBufctl _ _ := none

/-- The page allocator with `_slab_cache` and `_bufctl_cache`. -/
structure Pools where
  pages : Pages
  slabs : Cache.State
  bufctls : Cache.State

/-- The rows of `_kmalloc_cache_table`. -/
def kmallocSizes : List Nat := [32, 64, 128, 256, 512, 1024, 2048, 3072, 4096, 8192, 12288, 16384]

/-- The cache that `kmalloc::init` creates for a row. -/
def kmallocConfig (size : Nat) : Config := cacheInit size 16 (size < 1024)

/-- The caches that have been created. Every one of them uses the default backing;
a row of the table without a cache holds the null pointer. -/
structure Caches where
  slabCache : UInt64
  bufctlCache : UInt64
  config : UInt64 → Option Config
  kmallocCache : Nat → UInt64
  null : config 0 = none
  slabs : config slabCache = some slabPool
  bufctls : config bufctlCache = some bufctlPool
  apart : slabCache ≠ bufctlCache
  created : ∀ cache c, config cache = some c → ∃ size align checkOverflow, c = cacheInit size align checkOverflow
  rows : ∀ size ∈ kmallocSizes, kmallocCache size = 0 ∨ config (kmallocCache size) = some (kmallocConfig size)

section Caches

variable (limit : Nat) (caches : Caches)

/-- What any cache calls. -/
def Caches.supply (cache : UInt64) : Supply Pools where
  slabAlloc n m := do
    let (answer, pages) ← (pageSupply cache).slabAlloc n m.pages
    some (answer, { m with pages })
  associate answer m := do
    let pages ← (pageSupply cache).associate answer m.pages
    some { m with pages }
  slabFree backing n m := do
    let pages ← (pageSupply cache).slabFree backing n m.pages
    some { m with pages }
  getSlab m := do
    let (answer, slabs, pages) ← getObject limit slabPool (pageSupply caches.slabCache) m.slabs m.pages
    some (answer, { m with pages, slabs })
  putSlab slab m := do
    let slabs ← putObject limit slabPool m.slabs slab
    some { m with slabs }
  getBufctl m := do
    let (answer, bufctls, pages) ← getObject limit bufctlPool (pageSupply caches.bufctlCache) m.bufctls m.pages
    some (answer, { m with pages, bufctls })
  putBufctl bufctl m := do
    let bufctls ← putObject limit bufctlPool m.bufctls bufctl
    some { m with bufctls }

/-- The page allocator and all caches. -/
structure Heap where
  pages : Pages
  cache : UInt64 → Cache.State

def Heap.pools (h : Heap) : Pools := ⟨h.pages, h.cache caches.slabCache, h.cache caches.bufctlCache⟩

/-- The heap after a call of a cache has changed the cache and what it calls. -/
def Heap.put (h : Heap) (cache : UInt64) (s : Cache.State) (m : Pools) : Heap where
  pages := m.pages
  cache := Function.update
    (Function.update (Function.update h.cache caches.slabCache m.slabs) caches.bufctlCache m.bufctls) cache s

/-- `get_object`. A pointer to no cache is a wild one. -/
def Heap.getObject (h : Heap) (cache : UInt64) : Option (Option Nat × Heap) := do
  let c ← caches.config cache
  let (answer, s, m) ← Cache.getObject limit c (caches.supply limit cache) (h.cache cache) (h.pools caches)
  some (answer, h.put caches cache s m)

def Heap.putObject (h : Heap) (cache : UInt64) (ptr : Nat) : Option Heap := do
  let c ← caches.config cache
  let s ← Cache.putObject limit c (h.cache cache) ptr
  some { h with cache := Function.update h.cache cache s }

/-- `_lookup_cache_for_size`: the row of the table. -/
def lookupCacheForSize (n : Nat) : Option Nat := kmallocSizes.find? fun size => n ≤ size

def Heap.kmalloc (h : Heap) (n : Nat) : Option (Option Nat × Heap) :=
  match lookupCacheForSize n with
  | some size => h.getObject limit caches (caches.kmallocCache size)
  | none => some (none, h)

/-- `_lookup_cache_for_ptr`: the row of the table. -/
def Heap.lookupCacheForPtr (h : Heap) (ptr : Nat) : Option Nat :=
  let cache := getCache h.pages.physmm (UInt64.ofNat ptr)
  if cache ≠ 0 then kmallocSizes.find? fun size => cache == caches.kmallocCache size else none

inductive Freed where
  | panic
  | done (h : Heap)

def Heap.kfree (h : Heap) (ptr : Nat) : Option Freed :=
  if ptr = 0 then some .panic
  else
    let cache := getCache h.pages.physmm (UInt64.ofNat ptr)
    if cache ≠ 0 then do
      let h ← h.putObject limit caches cache ptr
      some (.done h)
    else some .panic

/-- The loop of `memcpy`. -/
def copyBytes (memory : Nat → UInt8) (c1 c2 : Nat) : Nat → Nat → UInt8
  | 0 => memory
  | n + 1 => copyBytes (Function.update memory c1 (memory c2)) (c1 + 1) (c2 + 1) n

def memcpy (memory : Nat → UInt8) (s1 s2 n : Nat) : Nat → UInt8 :=
  if s1 ≠ 0 ∧ s2 ≠ 0 ∧ n > 0 then copyBytes memory s1 s2 n else memory

/-- The address of a row in `_kmalloc_cache_table`: each holds a size and a pointer. -/
def rowAddr (table size : Nat) : Nat := table + 16 * kmallocSizes.idxOf size

/-- `krealloc`, for the bytes of the blocks and the address of the table. What it
gives back is the row, not the block. -/
def Heap.krealloc (h : Heap) (table : Nat) (memory : Nat → UInt8) (ptr n : Nat) :
    Option (Option Nat × Heap × (Nat → UInt8)) :=
  if ptr = 0 then do
    let (res, h) ← h.kmalloc limit caches n
    some (res, h, memory)
  else
    match h.lookupCacheForPtr caches ptr with
    | some size => do
      let (res, h) ← h.kmalloc limit caches n
      match res with
      | some res => do
        let memory := memcpy memory res ptr (if n > size then size else n)
        let h ← h.putObject limit caches (caches.kmallocCache size) (rowAddr table size)
        some (some res, h, memory)
      | none => some (some ptr, h, memory)
    | none => some (some ptr, h, memory)

end Caches

end Hotarubi.Memory.Kmalloc
