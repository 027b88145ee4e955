import Hotarubi.Memory.Cache
import Mathlib.Algebra.GroupWithZero.Nat

/-! Caches over the two pools for descriptors. `_slab_cache` and `_bufctl_cache` are
caches themselves, whose own descriptors are inline; a cache that is not compact takes
from them one descriptor for each of its slabs and for each of their buffers. -/

namespace Hotarubi.Memory.Descriptors
open Cache

section Caches

variable {σ κ : Type}

/-- A `backend_alloc` and a `backend_free`, and the page map where these are the
default ones. -/
structure Backend (σ : Type) where
  slabAlloc : Nat → σ → Option (Option Nat × σ)
  associate : Option Nat → σ → Option σ
  slabFree : Nat → Nat → σ → Option σ

/-- What a cache with inline descriptors calls. -/
def Backend.supply (backend : Backend σ) : Supply σ where
  slabAlloc := backend.slabAlloc
  associate := backend.associate
  slabFree := backend.slabFree
  getSlab _ := none
  putSlab _ _ := none
  getBufctl _ := none
  putBufctl _ _ := none

/-- The backing memory, `_slab_cache` and `_bufctl_cache`. -/
structure Pools (σ : Type) where
  backing : σ
  slabs : State
  bufctls : State

/-- The pools and any caches over them, with the backends they were created with. -/
structure Caches (σ κ : Type) where
  slabCache : Backend σ
  bufctlCache : Backend σ
  backend : κ → Backend σ
  config : κ → Config
  created : ∀ cache, ∃ size align checkOverflow, config cache = cacheInit size align checkOverflow

variable (limit : Nat) (caches : Caches σ κ)

/-- What a cache calls. -/
def Caches.supply (cache : κ) : Supply (Pools σ) where
  slabAlloc n m := do
    let (answer, backing) ← (caches.backend cache).slabAlloc n m.backing
    some (answer, { m with backing })
  associate answer m := do
    let backing ← (caches.backend cache).associate answer m.backing
    some { m with backing }
  slabFree backing n m := do
    let backing ← (caches.backend cache).slabFree backing n m.backing
    some { m with backing }
  getSlab m := do
    let (answer, slabs, backing) ← getObject limit slabPool caches.slabCache.supply m.slabs m.backing
    some (answer, { m with backing, slabs })
  putSlab slab m := do
    let slabs ← putObject limit slabPool m.slabs slab
    some { m with slabs }
  getBufctl m := do
    let (answer, bufctls, backing) ← getObject limit bufctlPool caches.bufctlCache.supply m.bufctls m.backing
    some (answer, { m with backing, bufctls })
  putBufctl bufctl m := do
    let bufctls ← putObject limit bufctlPool m.bufctls bufctl
    some { m with bufctls }

/-- The pools, the caches over them, those that have not been released, and the
objects that are handed out of each. -/
structure World (σ κ : Type) where
  pools : Pools σ
  cache : κ → State
  alive : List κ
  handed : κ → List Nat

def World.initial (m : σ) (alive : List κ) : World σ κ := ⟨⟨m, .initial, .initial⟩, fun _ => .initial, alive, fun _ => []⟩

inductive Event (κ : Type) where
  | get (cache : κ)
  | put (cache : κ) (ptr : Nat)
  | release (cache : κ) (force : Bool)

inductive Answer where
  | object (ptr : Option Nat)
  | done
  | released (given : Bool)
  deriving DecidableEq, Repr

variable [DecidableEq κ]

/-- The world after a call of a cache. -/
def World.after (w : World σ κ) (cache : κ) (s : State) (m : Pools σ) (alive : List κ) (handed : List Nat) : World σ κ :=
  ⟨m, Function.update w.cache cache s, alive, Function.update w.handed cache handed⟩

def Event.exec (w : World σ κ) : Event κ → Option (Answer × World σ κ)
  | .get cache => do
    let (answer, s, m) ←
      getObject limit (caches.config cache) (caches.supply limit cache) (w.cache cache) w.pools
    some (.object answer, w.after cache s m w.alive (answer.toList ++ w.handed cache))
  | .put cache ptr => do
    let s ← putObject limit (caches.config cache) (w.cache cache) ptr
    some (.done, w.after cache s w.pools w.alive ((w.handed cache).erase ptr))
  | .release cache force => do
    let (given, s, m) ←
      Cache.release limit (caches.config cache) (caches.supply limit cache) force (w.cache cache) w.pools
    some (.released given, w.after cache s m (if given then w.alive.erase cache else w.alive) (w.handed cache))

/-- Calls name caches that are alive, and what goes back to one is in use. -/
def Event.Permitted (w : World σ κ) : Event κ → Prop
  | .get cache => cache ∈ w.alive
  | .put cache ptr => cache ∈ w.alive ∧ ptr ∈ w.handed cache
  | .release cache _ => cache ∈ w.alive

instance (w : World σ κ) (event : Event κ) : Decidable (event.Permitted w) :=
  match event with
  | .get _ => inferInstanceAs (Decidable (_ ∈ _))
  | .put _ _ => inferInstanceAs (Decidable (_ ∧ _))
  | .release _ _ => inferInstanceAs (Decidable (_ ∈ _))

/-- The number of objects in use in a cache. -/
def inUse (s : State) : Nat := (s.made.map fun slab => (s.refs slab).toNat).sum

/-- The number of slabs of the caches that are alive and not compact. -/
def World.slabs (w : World σ κ) : Nat :=
  (w.alive.map fun cache => if (caches.config cache).compact then 0 else (w.cache cache).made.length).sum

/-- The number of their buffers. -/
def World.buffers (w : World σ κ) : Nat :=
  (w.alive.map fun cache =>
    if (caches.config cache).compact then 0 else (w.cache cache).made.length * (caches.config cache).buffers).sum

/-- As many descriptors are in use as there are slabs and buffers to describe. -/
structure Conserved (w : World σ κ) : Prop where
  slabs : inUse w.pools.slabs = w.slabs caches
  bufctls : inUse w.pools.bufctls = w.buffers caches

/-- Descriptors are conserved before and after the call. -/
def Event.Conserves (w : World σ κ) (event : Event κ) : Prop :=
  Conserved caches w ∧ ∀ answer w', event.exec limit caches w = some (answer, w') → Conserved caches w'

/-- Whoever forces the release of a cache that is not compact has no object of it left. -/
def Event.Emptied (w : World σ κ) (event : Event κ) : Prop :=
  ∀ cache, event = .release cache true → (caches.config cache).compact = false → w.handed cache = []

end Caches

end Hotarubi.Memory.Descriptors
