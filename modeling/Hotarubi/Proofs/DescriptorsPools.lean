import Hotarubi.Memory.Descriptors
import Hotarubi.Proofs.CacheTenancy
import Mathlib.Data.List.Pairwise

/-! The two pools for descriptors as a supply. A descriptor is an object of a pool,
so it lies in a block of that pool and is apart from everything else that is given. -/

namespace Hotarubi.Memory.Descriptors
open Base Ring Cache Include

/-- An account of leased blocks: they lie apart in the address space, and not at its start. -/
structure Landlord {σ : Type} (leased : σ → List Block → Prop) : Prop where
  perm : ∀ {m xs ys}, leased m xs → xs.Perm ys → leased m ys
  apart : ∀ {m xs}, leased m xs → xs.Pairwise Block.Apart
  inside : ∀ {m xs}, leased m xs → ∀ x ∈ xs, 0 < x.addr ∧ x.addr + x.size ≤ 2 ^ 64

/-- What a backend allocates is leased until it is freed. -/
structure Backend.Leases {σ : Type} (backend : Backend σ) (leased : σ → List Block → Prop) : Prop where
  slabAlloc : ∀ {n backing m m' xs}, leased m xs → backend.slabAlloc n m = some (some backing, m') →
    leased m' (⟨backing, n⟩ :: xs)
  associate : ∀ {answer m m' xs}, leased m xs → backend.associate answer m = some m' → leased m' xs
  slabFree : ∀ {backing n m xs}, leased m (⟨backing, n⟩ :: xs) →
    ∃ m', backend.slabFree backing n m = some m' ∧ leased m' xs

/-- All caches lease their blocks from one landlord. -/
structure Caches.Lease {σ κ : Type} (caches : Caches σ κ) (leased : σ → List Block → Prop) : Prop where
  landlord : Landlord leased
  slabs : caches.slabCache.Leases leased
  bufctls : caches.bufctlCache.Leases leased
  others : ∀ cache, (caches.backend cache).Leases leased

/-- An account of blocks only. -/
def Plain {σ : Type} (leased : σ → List Block → Prop) (m : σ) (xs : List Asset) : Prop :=
  (∀ x ∈ xs, ∃ block, x = .backing block) ∧ leased m (xs.map Asset.block)

/-- The pools with the descriptors that are handed out, and the blocks of other caches. -/
structure Stocked {σ : Type} (leased : σ → List Block → Prop) (m : Pools σ) (gs gb : Ledger) (slabs bufctls : List Nat)
    (blocks : List Asset) : Prop where
  slabs : Kept slabPool m.slabs gs slabs
  bufctls : Kept bufctlPool m.bufctls gb bufctls
  plain : Plain leased m.backing
    (m.slabs.holdings slabPool gs.mapped ++ (m.bufctls.holdings bufctlPool gb.mapped ++ blocks))

/-- The account of the pools. -/
def Pooled {σ : Type} (leased : σ → List Block → Prop) (m : Pools σ) (xs : List Asset) : Prop :=
  ∃ gs gb slabs bufctls blocks, Stocked leased m gs gb slabs bufctls blocks ∧
    xs.Perm (blocks ++ (slabs.map .slab ++ bufctls.map .bufctl))

section Plain

variable {σ : Type} {leased : σ → List Block → Prop} {backend : Backend σ} {m m' : σ} {xs ys : List Asset}

theorem Plain.perm (landlord : Landlord leased) (plain : Plain leased m xs) (same : xs.Perm ys) : Plain leased m ys :=
  ⟨fun x member => plain.1 x (same.mem_iff.mpr member), landlord.perm plain.2 (same.map _)⟩

/-- A backend is a supply of blocks. -/
theorem Backend.Leases.tenancy (leases : backend.Leases leased) (landlord : Landlord leased) :
    Tenancy backend.supply (Plain leased) where
  perm := Plain.perm landlord
  apart held := landlord.apart held.2
  inside held x member := landlord.inside held.2 x.block (List.mem_map_of_mem member)
  slabAlloc held answered := ⟨List.forall_mem_cons.mpr ⟨⟨_, rfl⟩, held.1⟩, leases.slabAlloc held.2 answered⟩
  associate held associated := ⟨held.1, leases.associate held.2 associated⟩
  getSlab _ got := nomatch got
  getBufctl _ got := nomatch got
  slabFree held := by
    obtain ⟨m', freed, rest⟩ := leases.slabFree held.2
    exact ⟨m', freed, fun x member => held.1 x (List.mem_cons_of_mem _ member), rest⟩
  putSlab held := nomatch held.1 _ List.mem_cons_self
  putBufctl held := nomatch held.1 _ List.mem_cons_self

end Plain

section Pools

variable {σ κ : Type} {leased : σ → List Block → Prop} {caches : Caches σ κ} {limit : Nat} {cache : κ} {m m' : Pools σ}
  {gs gb : Ledger} {slabs bufctls : List Nat} {blocks xs rest : List Asset} {answer : Option Nat} {c : Config} {s : State}
  {g : Ledger} {handed : List Nat}

theorem slabPool_regular : slabPool.Regular := cacheInit_regular _ _ _

theorem bufctlPool_regular : bufctlPool.Regular := cacheInit_regular _ _ _

private theorem objects_clear (kept : Kept c s g handed) (regular : c.Regular) {n : Nat}
    (fits : n ≤ c.bufferSize) {other : Block}
    (clear : ∀ x ∈ s.holdings c g.mapped, Block.Apart x.block other) {object : Nat} (taken : object ∈ handed) :
    Block.Apart ⟨object, n⟩ other := by
  obtain ⟨slab, made, low, high⟩ := kept.inside regular taken
  have apart := clear (.backing ⟨s.backing slab, c.allocSize⟩) (List.mem_append_left _ (List.mem_map.mpr ⟨slab, made, rfl⟩))
  unfold Block.Apart Asset.block at apart
  unfold Block.Apart
  simp only at apart ⊢
  omega

private theorem objects_pairwise (kept : Kept c s g handed) (regular : c.Regular) {n : Nat} (fits : n ≤ c.bufferSize)
    (apart : ((s.holdings c g.mapped).map Asset.block).Pairwise Block.Apart) :
    handed.Pairwise fun x y => Block.Apart ⟨x, n⟩ ⟨y, n⟩ := by
  rw [State.holdings, List.map_append, List.pairwise_append, List.map_map, List.pairwise_map] at apart
  have blocks : s.made.Pairwise fun slab other =>
      Block.Apart ⟨s.backing slab, c.allocSize⟩ ⟨s.backing other, c.allocSize⟩ := apart.1
  have : Std.Symm fun slab other =>
      Block.Apart ⟨s.backing slab, c.allocSize⟩ ⟨s.backing other, c.allocSize⟩ := ⟨fun _ _ => Block.Apart.symm⟩
  apply kept.holds.once.pairwise_of_forall_ne
  intro x left y right different
  exact (kept.apart regular (fun _ made _ made' => blocks.forall made made') left right different).shrink fits fits

theorem Stocked.apart (stocked : Stocked leased m gs gb slabs bufctls blocks) (landlord : Landlord leased) :
    ((blocks ++ (slabs.map Asset.slab ++ bufctls.map Asset.bufctl)).map Asset.block).Pairwise Block.Apart := by
  have slabSize : sizeofSlab ≤ slabPool.bufferSize := by decide
  have bufctlSize : sizeofBufctl ≤ bufctlPool.bufferSize := by decide
  obtain ⟨keptSlabs, keptBufctls, plain⟩ := stocked
  have apart := landlord.apart plain.2
  rw [List.map_append, List.pairwise_append, List.map_append, List.pairwise_append] at apart
  obtain ⟨slabBlocks, ⟨bufctlBlocks, others, bufctlOthers⟩, slabOthers⟩ := apart
  have slabClear {object : Nat} (taken : object ∈ slabs) {other : Block}
      (member : other ∈ (m.bufctls.holdings bufctlPool gb.mapped).map Asset.block ++ blocks.map Asset.block) :
      Block.Apart ⟨object, sizeofSlab⟩ other :=
    objects_clear keptSlabs slabPool_regular slabSize
      (fun x inside => slabOthers x.block (List.mem_map_of_mem inside) other member) taken
  have bufctlClear {object : Nat} (taken : object ∈ bufctls) {other : Block} (member : other ∈ blocks.map Asset.block) :
      Block.Apart ⟨object, sizeofBufctl⟩ other :=
    objects_clear keptBufctls bufctlPool_regular bufctlSize
      (fun x inside => bufctlOthers x.block (List.mem_map_of_mem inside) other member) taken
  rw [List.map_append, List.pairwise_append, List.map_append, List.pairwise_append]
  refine ⟨others, ⟨?_, ?_, ?_⟩, ?_⟩
  · rw [List.map_map, List.pairwise_map]
    exact objects_pairwise keptSlabs slabPool_regular slabSize slabBlocks
  · rw [List.map_map, List.pairwise_map]
    exact objects_pairwise keptBufctls bufctlPool_regular bufctlSize bufctlBlocks
  · rintro _ left _ right
    obtain ⟨_, inside, rfl⟩ := List.mem_map.mp left
    obtain ⟨slab, taken, rfl⟩ := List.mem_map.mp inside
    obtain ⟨_, inside', rfl⟩ := List.mem_map.mp right
    obtain ⟨bufctl, taken', rfl⟩ := List.mem_map.mp inside'
    refine (objects_clear keptBufctls bufctlPool_regular bufctlSize (fun x inside => ?_) taken').symm
    exact (slabClear taken (List.mem_append_left _ (List.mem_map_of_mem inside))).symm
  · rintro other left _ right
    rcases List.mem_append.mp right with right | right
    · obtain ⟨_, inside, rfl⟩ := List.mem_map.mp right
      obtain ⟨slab, taken, rfl⟩ := List.mem_map.mp inside
      exact (slabClear taken (List.mem_append_right _ left)).symm
    · obtain ⟨_, inside, rfl⟩ := List.mem_map.mp right
      obtain ⟨bufctl, taken, rfl⟩ := List.mem_map.mp inside
      exact (bufctlClear taken left).symm

theorem Stocked.inside (stocked : Stocked leased m gs gb slabs bufctls blocks) (landlord : Landlord leased) {x : Asset}
    (member : x ∈ blocks ++ (slabs.map Asset.slab ++ bufctls.map Asset.bufctl)) :
    0 < x.block.addr ∧ x.block.addr + x.block.size ≤ 2 ^ 64 := by
  obtain ⟨keptSlabs, keptBufctls, plain⟩ := stocked
  have slabSize : sizeofSlab ≤ slabPool.bufferSize := by decide
  have bufctlSize : sizeofBufctl ≤ bufctlPool.bufferSize := by decide
  have inside {y : Asset} (held : y ∈ m.slabs.holdings slabPool gs.mapped ++
      (m.bufctls.holdings bufctlPool gb.mapped ++ blocks)) := landlord.inside plain.2 y.block (List.mem_map_of_mem held)
  rcases List.mem_append.mp member with block | object
  · exact inside (List.mem_append_right _ (List.mem_append_right _ block))
  · rcases List.mem_append.mp object with slab | bufctl
    · obtain ⟨slab, taken, rfl⟩ := List.mem_map.mp slab
      obtain ⟨owner, made, low, high⟩ := keptSlabs.inside slabPool_regular taken
      have bounds := inside (List.mem_append_left _ (List.mem_append_left _ (List.mem_map.mpr ⟨owner, made, rfl⟩)))
      simp only [Asset.block] at bounds ⊢
      omega
    · obtain ⟨bufctl, taken, rfl⟩ := List.mem_map.mp bufctl
      obtain ⟨owner, made, low, high⟩ := keptBufctls.inside bufctlPool_regular taken
      have bounds := inside (List.mem_append_right _ (List.mem_append_left _ (List.mem_append_left _
        (List.mem_map.mpr ⟨owner, made, rfl⟩))))
      simp only [Asset.block] at bounds ⊢
      omega

/-- Two shares of an account in the other order. -/
theorem perm_swap (xs ys zs : List Asset) : (xs ++ (ys ++ zs)).Perm (ys ++ (xs ++ zs)) := by
  rw [← List.append_assoc, ← List.append_assoc]
  exact List.perm_append_comm.append_right zs

theorem Stocked.foreign (stocked : Stocked leased m gs gb slabs bufctls blocks) (address : Nat) :
    Asset.slab address ∉ blocks ∧ Asset.bufctl address ∉ blocks := by
  have plain {x : Asset} (member : x ∈ blocks) :=
    stocked.plain.1 x (List.mem_append_right _ (List.mem_append_right _ member))
  refine ⟨fun member => ?_, fun member => ?_⟩
  all_goals
    obtain ⟨block, same⟩ := plain member
    cases same

theorem Stocked.slabAlloc {n backing : Nat} (stocked : Stocked leased m gs gb slabs bufctls blocks)
    (lease : caches.Lease leased) (got : (caches.supply limit cache).slabAlloc n m = some (some backing, m')) :
    Stocked leased m' gs gb slabs bufctls (.backing ⟨backing, n⟩ :: blocks) := by
  obtain ⟨⟨answer, m1⟩, ran, same⟩ := Option.bind_eq_some_iff.mp got
  cases same
  have held := ((lease.others cache).tenancy lease.landlord).slabAlloc stocked.plain ran
  refine ⟨stocked.slabs, stocked.bufctls, held.perm lease.landlord ?_⟩
  rw [← List.append_assoc, ← List.append_assoc]
  exact List.perm_middle.symm

theorem Stocked.slabFree {n backing : Nat} (stocked : Stocked leased m gs gb slabs bufctls blocks)
    (lease : caches.Lease leased) (member : Asset.backing ⟨backing, n⟩ ∈ blocks) :
    ∃ m', (caches.supply limit cache).slabFree backing n m = some m' ∧
      Stocked leased m' gs gb slabs bufctls (blocks.erase (.backing ⟨backing, n⟩)) := by
  have front : (m.slabs.holdings slabPool gs.mapped ++ (m.bufctls.holdings bufctlPool gb.mapped ++ blocks)).Perm
      (.backing ⟨backing, n⟩ :: (m.slabs.holdings slabPool gs.mapped ++
        (m.bufctls.holdings bufctlPool gb.mapped ++ blocks.erase (.backing ⟨backing, n⟩)))) := by
    rw [← List.append_assoc, ← List.append_assoc]
    exact ((List.perm_cons_erase member).append_left _).trans List.perm_middle
  obtain ⟨m1, freed, held⟩ :=
    ((lease.others cache).tenancy lease.landlord).slabFree (stocked.plain.perm lease.landlord front)
  exact ⟨{ m with backing := m1 }, congrArg (Option.bind · _) freed, stocked.slabs, stocked.bufctls, held⟩

theorem Stocked.getSlab (stocked : Stocked leased m gs gb slabs bufctls blocks) (lease : caches.Lease leased)
    (enough : 2 ^ 97 ≤ limit) (got : (caches.supply limit cache).getSlab m = some (answer, m')) :
    ∃ slab gs', answer = some slab ∧ Stocked leased m' gs' gb (slab :: slabs) bufctls blocks := by
  obtain ⟨⟨answer', s', backing⟩, ran, same⟩ := Option.bind_eq_some_iff.mp got
  cases same
  obtain ⟨slab, gs', rfl, kept, held⟩ := (lease.slabs.tenancy lease.landlord).get stocked.slabs slabPool_regular (by decide)
    enough stocked.plain ran
  exact ⟨slab, gs', rfl, kept, stocked.bufctls, held⟩

theorem Stocked.getBufctl (stocked : Stocked leased m gs gb slabs bufctls blocks) (lease : caches.Lease leased)
    (enough : 2 ^ 97 ≤ limit) (got : (caches.supply limit cache).getBufctl m = some (answer, m')) :
    ∃ bufctl gb', answer = some bufctl ∧ Stocked leased m' gs gb' slabs (bufctl :: bufctls) blocks := by
  obtain ⟨⟨answer', s', backing⟩, ran, same⟩ := Option.bind_eq_some_iff.mp got
  cases same
  have plain := stocked.plain.perm lease.landlord (perm_swap _ _ _)
  obtain ⟨bufctl, gb', rfl, kept, held⟩ := (lease.bufctls.tenancy lease.landlord).get stocked.bufctls bufctlPool_regular
    (by decide) enough plain ran
  exact ⟨bufctl, gb', rfl, stocked.slabs, kept, held.perm lease.landlord (perm_swap _ _ _)⟩

theorem Stocked.putSlab (stocked : Stocked leased m gs gb slabs bufctls blocks) (lease : caches.Lease leased)
    (enough : 2 ^ 97 ≤ limit) {slab : Nat} (taken : slab ∈ slabs) :
    ∃ m' gs', (caches.supply limit cache).putSlab slab m = some m' ∧
      Stocked leased m' gs' gb (slabs.erase slab) bufctls blocks := by
  have few := ((lease.slabs.tenancy lease.landlord).few slabPool_regular stocked.plain).2
  obtain ⟨s', gs', ran, kept, _, held⟩ := stocked.slabs.put slabPool_regular few enough taken
  refine ⟨{ m with slabs := s' }, gs', congrArg (Option.bind · _) ran, kept, stocked.bufctls, ?_⟩
  simp only [held]
  exact stocked.plain

theorem Stocked.putBufctl (stocked : Stocked leased m gs gb slabs bufctls blocks) (lease : caches.Lease leased)
    (enough : 2 ^ 97 ≤ limit) {bufctl : Nat} (taken : bufctl ∈ bufctls) :
    ∃ m' gb', (caches.supply limit cache).putBufctl bufctl m = some m' ∧
      Stocked leased m' gs gb' slabs (bufctls.erase bufctl) blocks := by
  have plain := stocked.plain.perm lease.landlord (perm_swap _ _ _)
  have few := ((lease.bufctls.tenancy lease.landlord).few bufctlPool_regular plain).2
  obtain ⟨s', gb', ran, kept, _, held⟩ := stocked.bufctls.put bufctlPool_regular few enough taken
  refine ⟨{ m with bufctls := s' }, gb', congrArg (Option.bind · _) ran, stocked.slabs, kept, ?_⟩
  simp only [held]
  exact stocked.plain

theorem Pooled.perm {ys : List Asset} (pooled : Pooled leased m xs) (same : xs.Perm ys) : Pooled leased m ys := by
  obtain ⟨gs, gb, slabs, bufctls, blocks, stocked, given⟩ := pooled
  exact ⟨gs, gb, slabs, bufctls, blocks, stocked, same.symm.trans given⟩

/-- The pools and the backends together are a supply that keeps account. -/
theorem pooled_tenancy (lease : caches.Lease leased) (enough : 2 ^ 97 ≤ limit) :
    Tenancy (caches.supply limit cache) (Pooled leased) where
  perm := Pooled.perm
  apart := by
    rintro m xs ⟨gs, gb, slabs, bufctls, blocks, stocked, given⟩
    exact ((given.map _).pairwise_iff Block.Apart.symm).mpr (stocked.apart lease.landlord)
  inside := by
    rintro m xs ⟨gs, gb, slabs, bufctls, blocks, stocked, given⟩ x member
    exact stocked.inside lease.landlord (given.mem_iff.mp member)
  slabAlloc := by
    rintro n backing m m' xs ⟨gs, gb, slabs, bufctls, blocks, stocked, given⟩ answered
    exact ⟨gs, gb, slabs, bufctls, .backing ⟨backing, n⟩ :: blocks, stocked.slabAlloc lease answered, given.cons _⟩
  associate := by
    rintro answer m m' xs ⟨gs, gb, slabs, bufctls, blocks, ⟨keptSlabs, keptBufctls, plain⟩, given⟩ associated
    obtain ⟨m1, ran, same⟩ := Option.bind_eq_some_iff.mp associated
    cases same
    exact ⟨gs, gb, slabs, bufctls, blocks, ⟨keptSlabs, keptBufctls,
      ((lease.others cache).tenancy lease.landlord).associate plain ran⟩, given⟩
  getSlab := by
    rintro answer m m' xs ⟨gs, gb, slabs, bufctls, blocks, stocked, given⟩ got
    obtain ⟨slab, gs', rfl, stocked'⟩ := stocked.getSlab lease enough got
    refine ⟨slab, rfl, gs', gb, slab :: slabs, bufctls, blocks, stocked', (given.cons _).trans ?_⟩
    exact List.perm_middle.symm
  getBufctl := by
    rintro answer m m' xs ⟨gs, gb, slabs, bufctls, blocks, stocked, given⟩ got
    obtain ⟨bufctl, gb', rfl, stocked'⟩ := stocked.getBufctl lease enough got
    refine ⟨bufctl, rfl, gs, gb', slabs, bufctl :: bufctls, blocks, stocked', (given.cons _).trans ?_⟩
    rw [← List.append_assoc, ← List.append_assoc]
    exact List.perm_middle.symm
  slabFree := by
    rintro backing n m rest ⟨gs, gb, slabs, bufctls, blocks, stocked, given⟩
    have member : Asset.backing ⟨backing, n⟩ ∈ blocks := by
      simpa using given.mem_iff.mp List.mem_cons_self
    obtain ⟨m', freed, stocked'⟩ := stocked.slabFree lease member
    refine ⟨m', freed, gs, gb, slabs, bufctls, _, stocked', (given.trans ?_).cons_inv⟩
    exact (List.perm_cons_erase member).append_right _
  putSlab := by
    rintro slab m rest ⟨gs, gb, slabs, bufctls, blocks, stocked, given⟩
    have taken : slab ∈ slabs := by
      have member := given.mem_iff.mp List.mem_cons_self
      simpa [stocked.foreign] using member
    obtain ⟨m', gs', put, stocked'⟩ := stocked.putSlab lease enough taken
    refine ⟨m', put, gs', gb, _, bufctls, blocks, stocked', (given.trans ?_).cons_inv⟩
    have split := ((List.perm_cons_erase taken).map Asset.slab).append_right (bufctls.map Asset.bufctl)
    exact (split.append_left blocks).trans List.perm_middle
  putBufctl := by
    rintro bufctl m rest ⟨gs, gb, slabs, bufctls, blocks, stocked, given⟩
    have taken : bufctl ∈ bufctls := by
      have member := given.mem_iff.mp List.mem_cons_self
      simpa [stocked.foreign] using member
    obtain ⟨m', gb', put, stocked'⟩ := stocked.putBufctl lease enough taken
    refine ⟨m', put, gs, gb', slabs, _, blocks, stocked', (given.trans ?_).cons_inv⟩
    have split := (List.perm_cons_erase taken).map Asset.bufctl
    rw [← List.append_assoc, ← List.append_assoc]
    exact (split.append_left _).trans List.perm_middle

end Pools

end Hotarubi.Memory.Descriptors
