import Hotarubi.Proofs.CacheBalance
import Hotarubi.Proofs.CacheGranted

/-! A cache on a supply that keeps account of what it has given. What the slabs of
the cache are made of is part of the account, and each call changes both alike. -/

namespace Hotarubi.Memory.Cache
open Base Ring Chain Include

def Asset.block : Asset → Block
  | .backing taken => taken
  | .slab address => ⟨address, sizeofSlab⟩
  | .bufctl address => ⟨address, sizeofBufctl⟩

/-- What the supply gives overlaps nothing on the account and goes onto it. Its
descriptors are never refused. -/
structure Tenancy {σ : Type} (supply : Supply σ) (account : σ → List Asset → Prop) : Prop extends Takes supply account where
  perm : ∀ {m xs ys}, account m xs → xs.Perm ys → account m ys
  apart : ∀ {m xs}, account m xs → (xs.map Asset.block).Pairwise Block.Apart
  inside : ∀ {m xs}, account m xs → ∀ x ∈ xs, 0 < x.block.addr ∧ x.block.addr + x.block.size ≤ 2 ^ 64
  slabAlloc : ∀ {n backing m m' xs}, account m xs → supply.slabAlloc n m = some (some backing, m') →
    account m' (.backing ⟨backing, n⟩ :: xs)
  associate : ∀ {answer m m' xs}, account m xs → supply.associate answer m = some m' → account m' xs
  getSlab : ∀ {answer m m' xs}, account m xs → supply.getSlab m = some (answer, m') →
    ∃ slab, answer = some slab ∧ account m' (.slab slab :: xs)
  getBufctl : ∀ {answer m m' xs}, account m xs → supply.getBufctl m = some (answer, m') →
    ∃ bufctl, answer = some bufctl ∧ account m' (.bufctl bufctl :: xs)

/-- What the slabs of a cache are made of. -/
def State.holdings (s : State) (c : Config) (mapped : List Nat) : List Asset :=
  s.made.map (fun slab => .backing ⟨s.backing slab, c.allocSize⟩) ++
    if c.compact then [] else s.made.map .slab ++ mapped.map .bufctl

section Tenants

variable {σ : Type} {limit : Nat} {c : Config} {supply : Supply σ} {s s' : State} {m m' : σ} {g : Ledger}
  {handed mapped : List Nat} {answer : Option Nat} {backing slab : Nat} {account : σ → List Asset → Prop}
  {xs others : List Asset}

theorem Tenancy.start (tenancy : Tenancy supply account) (held : account m xs) {m1 m2 m3 : σ}
    (backed : supply.slabAlloc c.allocSize m = some (some backing, m1))
    (associated : supply.associate (some backing) m1 = some m2)
    (described : slabFor c supply backing m2 = some (answer, m3)) :
    ∃ slab, answer = some slab ∧ account m3 (c.shares backing slab [] ++ xs) := by
  have held2 := tenancy.associate (tenancy.slabAlloc held backed) associated
  unfold slabFor at described
  unfold Config.shares
  cases compact : c.compact with
  | true =>
    rw [if_pos compact] at described
    cases described
    exact ⟨_, rfl, held2⟩
  | false =>
    rw [if_neg (by rw [compact]; exact Bool.false_ne_true)] at described
    exact tenancy.getSlab held2 described

theorem Tenancy.next (tenancy : Tenancy supply account) {done : List Nat} {buffer : Nat}
    (held : account m (c.shares backing slab done ++ xs)) (found : bufctlFor c supply buffer m = some (answer, m')) :
    ∃ bufctl, answer = some bufctl ∧ account m' (c.shares backing slab (bufctl :: done) ++ xs) := by
  unfold bufctlFor at found
  unfold Config.shares at held ⊢
  cases compact : c.compact with
  | true =>
    rw [if_pos compact] at found held
    cases found
    exact ⟨_, rfl, held⟩
  | false =>
    rw [if_neg (by rw [compact]; exact Bool.false_ne_true)] at found held
    exact tenancy.getBufctl held found

/-- A call that needs a slab is granted all that belongs to it. -/
theorem Tenancy.grants (tenancy : Tenancy supply account) (regular : c.Regular) (held : account m xs)
    (noUsed : listEmpty s.links .used = true) (noFree : listEmpty s.links .free = true)
    (got : getObject limit c supply s m = some (answer, s', m')) :
    ∃ backing slab new m1, Grows c supply m backing slab new m1 ∧
      account m1 (c.shares backing slab new.reverse ++ xs) :=
  getObject_granted (fun backing slab done m => account m (c.shares backing slab done ++ xs)) regular
    (fun _ _ _ _ _ backed associated described => tenancy.start held backed associated described)
    (fun _ _ _ _ _ _ _ held found => tenancy.next held found) noUsed noFree got

private theorem shares_blocks (new : List Nat) :
    (c.shares backing slab new.reverse).map Asset.block = (c.blocks backing slab new).reverse := by
  unfold Config.shares Config.blocks
  split
  · rfl
  · simp [Asset.block, Function.comp_def]

theorem State.Uses.held {block : Block} (used : s.Uses c block) (ring : IsRing s.links .objMap (mapped.map .bufctls)) :
    ∃ x ∈ s.holdings c mapped, x.block = block := by
  unfold State.holdings
  rcases used with ⟨x, made, same | ⟨external, same⟩⟩ | ⟨external, xs, b, ring', member, same⟩
  · exact ⟨_, List.mem_append_left _ (List.mem_map.mpr ⟨x, made, rfl⟩), same.symm⟩
  · exact ⟨.slab x, List.mem_append_right _ (by simp [external, made]), same.symm⟩
  · rw [ring'.unique ring] at member
    obtain ⟨b', inside, equal⟩ := List.mem_map.mp member
    cases equal
    exact ⟨.bufctl b, List.mem_append_right _ (by simp [external, inside]), same.symm⟩

/-- What is granted for a slab is fresh. -/
theorem Tenancy.fresh (tenancy : Tenancy supply account) (ring : IsRing s.links .objMap (mapped.map .bufctls))
    {new : List Nat} (held : account m (c.shares backing slab new.reverse ++ (s.holdings c mapped ++ others))) :
    Fresh c s backing slab new := by
  have apart := tenancy.apart held
  rw [List.map_append, List.pairwise_append, shares_blocks] at apart
  obtain ⟨own, _, cross⟩ := apart
  refine ⟨(List.pairwise_reverse.mp own).imp Block.Apart.symm, fun block member used uses => ?_⟩
  obtain ⟨x, inside, rfl⟩ := uses.held ring
  exact cross block (List.mem_reverse.mpr member) _ (List.mem_map_of_mem (List.mem_append_left _ inside))

/-- The slabs of a cache have different blocks, in the address space. -/
theorem Tenancy.few (tenancy : Tenancy supply account) (regular : c.Regular)
    (held : account m (s.holdings c mapped ++ others)) : s.made.Nodup ∧ s.made.length ≤ 2 ^ 64 := by
  have positive : 0 < c.allocSize := Nat.lt_of_lt_of_le (show 0 < sizeofSlab by decide) regular.room
  have apart := tenancy.apart held
  rw [State.holdings, List.append_assoc, List.map_append, List.pairwise_append, List.map_map, List.pairwise_map] at apart
  have different : (s.made.map s.backing).Nodup := by
    refine List.pairwise_map.mpr (apart.1.imp fun {a b} blocks same => ?_)
    simp only [Function.comp_apply, Asset.block, same] at blocks
    exact Block.Apart.irrefl positive blocks
  refine ⟨List.Nodup.of_map _ different, ?_⟩
  have covered : s.made.map s.backing ⊆ List.range (2 ^ 64) := by
    intro address member
    obtain ⟨slab, made, rfl⟩ := List.mem_map.mp member
    have inside := (tenancy.inside held (.backing ⟨s.backing slab, c.allocSize⟩) (List.mem_append_left _
      (List.mem_append_left _ (List.mem_map.mpr ⟨slab, made, rfl⟩)))).2
    simp only [Asset.block] at inside
    exact List.mem_range.mpr (by omega)
  have bound := (List.subperm_of_subset different covered).length_le
  rwa [List.length_map, List.length_range] at bound

private theorem holdings_same (made : s'.made = s.made) (backing : s'.backing = s.backing) :
    s'.holdings c mapped = s.holdings c mapped := by
  unfold State.holdings
  rw [made, backing]

private theorem holdings_grown {new : List Nat} (made : s'.made = slab :: s.made) (unmade : slab ∉ s.made)
    (backed : s'.backing = Function.update s.backing slab backing) :
    (c.shares backing slab new.reverse ++ (s.holdings c g.mapped ++ others)).Perm
      (s'.holdings c (g.grown c slab new).mapped ++ others) := by
  have old : s.made.map (fun x => Asset.backing ⟨s'.backing x, c.allocSize⟩) =
      s.made.map fun x => Asset.backing ⟨s.backing x, c.allocSize⟩ := by
    apply List.map_congr_left
    intro x member
    rw [backed, Function.update_of_ne (ne_of_mem_of_not_mem member unmade)]
  have here : s'.backing slab = backing := by rw [backed, Function.update_self]
  unfold State.holdings Config.shares Ledger.grown
  rw [made, List.map_cons, here, old]
  rw [List.perm_iff_count]
  intro x
  split
  all_goals
    simp only [List.nil_append, List.append_nil, List.map_append, List.map_cons, List.count_append, List.count_cons,
      List.count_nil]
    omega

theorem Tenancy.get (tenancy : Tenancy supply account) (kept : Kept c s g handed) (regular : c.Regular)
    (served : 0 < c.buffers) (enough : 2 ^ 97 ≤ limit) (held : account m (s.holdings c g.mapped ++ others))
    (got : getObject limit c supply s m = some (answer, s', m')) :
    ∃ object g', answer = some object ∧ Kept c s' g' (object :: handed) ∧
      account m' (s'.holdings c g'.mapped ++ others) := by
  have ring := kept.holds.shelved.map
  have few := (tenancy.few regular held).2
  have supplied : Supplied c supply s m := by
    intro noUsed noFree
    obtain ⟨backing, slab, new, m1, grows, held1⟩ := tenancy.grants regular held noUsed noFree got
    exact ⟨backing, slab, new, m1, grows, tenancy.fresh ring held1⟩
  obtain ⟨object, s1, m1, g', slab, bufctl, ran, kept', _, _, source⟩ :=
    getObject_spec kept regular served supplied (show s.made.length + 1 < limit by omega)
  cases got.symm.trans ran
  refine ⟨object, g', rfl, kept', ?_⟩
  cases source with
  | old same made backing mapped =>
    rw [same, mapped, holdings_same made backing]
    exact held
  | new noUsed noFree grows fresh unmade made backed mapped =>
    obtain ⟨_, _, new, m1, grows', held1⟩ := tenancy.grants regular held noUsed noFree got
    obtain ⟨rfl, rfl, rfl, rfl⟩ := grows.unique grows'
    rw [mapped]
    exact tenancy.perm held1 (holdings_grown made unmade backed)

/-- `get_object` of a cache whose slabs have no buffers: everything is given back. -/
theorem Tenancy.get_barren (tenancy : Tenancy supply account) (regular : c.Regular) (none : c.buffers = 0)
    (empty : ∀ list ∈ shelves, IsRing s.links list []) (held : account m xs)
    (got : getObject limit c supply s m = some (answer, s', m')) :
    answer = Option.none ∧ s'.made = s.made ∧ (∀ list ∈ shelves, IsRing s'.links list []) ∧ account m' xs := by
  have noUsed := (listEmpty_ring (empty .used (by simp))).mpr rfl
  have noFree := (listEmpty_ring (empty .free (by simp))).mpr rfl
  obtain ⟨backing, slab, new, m1, grows, held1⟩ := tenancy.grants regular held noUsed noFree got
  obtain ⟨rfl, made, _, empty', _, external, m2, returned, freed⟩ := getObject_barren none empty grows got
  obtain rfl : new = [] := List.eq_nil_of_length_eq_zero (grows.length.trans none)
  rw [Config.shares, if_neg (by rw [external]; exact Bool.false_ne_true)] at held1
  obtain ⟨m3, returned', held3⟩ := tenancy.putSlab held1
  cases returned.symm.trans returned'
  obtain ⟨m4, freed', held4⟩ := tenancy.slabFree held3
  cases freed.symm.trans freed'
  exact ⟨rfl, made, empty', held4⟩

/-- `put_object` moves nothing between the cache and its supply. -/
theorem Kept.put (kept : Kept c s g handed) (regular : c.Regular) (few : s.made.length ≤ 2 ^ 64) (enough : 2 ^ 97 ≤ limit)
    {object : Nat} (taken : object ∈ handed) :
    ∃ s' g', putObject limit c s object = some s' ∧ Kept c s' g' (handed.erase object) ∧
      s'.made = s.made ∧ s'.holdings c g'.mapped = s.holdings c g.mapped := by
  obtain ⟨slab, member, b, cell, _⟩ := (kept.holds.account object).mp taken
  have served : 0 < c.buffers := by
    rw [← (kept.holds.carved slab member).number]
    exact List.length_pos_of_mem cell
  have bound : s.made.length * c.buffers < limit := by
    have := Nat.mul_le_mul few (Nat.le_of_lt regular.few)
    omega
  obtain ⟨s', g', _, _, ran, kept', back, backing, mapped⟩ := putObject_spec kept served taken bound
  refine ⟨s', g', ran, kept', back.made, ?_⟩
  rw [mapped]
  exact holdings_same back.made backing

private theorem shares_perm (external : c.compact = false) (slabs : List Nat) :
    (s.shares c g slabs).Perm (slabs.map (fun slab => .backing ⟨s.backing slab, c.allocSize⟩) ++
      (slabs.map .slab ++ (slabs.flatMap g.avail).map .bufctl)) := by
  induction slabs with
  | nil => exact .refl _
  | cons slab slabs ih =>
    rw [List.perm_iff_count] at ih ⊢
    intro x
    have rest := ih x
    rw [State.shares, List.flatMap_cons, ← State.shares, Config.shares, if_neg (by simp [external])]
    simp only [List.map_cons, List.flatMap_cons, List.map_append, List.count_append, List.count_cons,
      List.count_nil] at rest ⊢
    omega

private theorem shares_compact (compact : c.compact = true) (slabs : List Nat) :
    s.shares c g slabs = slabs.map fun slab => .backing ⟨s.backing slab, c.allocSize⟩ := by
  induction slabs with
  | nil => rfl
  | cons slab slabs ih =>
    rw [State.shares, List.flatMap_cons, ← State.shares, ih, Config.shares, if_pos compact]
    rfl

private theorem Kept.holdings_perm (kept : Kept c s g handed) (distinct : s.made.Nodup) :
    (s.holdings c g.mapped).Perm
      (s.shares c g g.all ++ if c.compact then [] else g.out.map .bufctl) := by
  have holds := kept.holds
  have all := holds.all_perm distinct
  have blocks := all.map fun slab => Asset.backing ⟨s.backing slab, c.allocSize⟩
  unfold State.holdings
  cases compact : c.compact with
  | true =>
    rw [if_pos rfl, if_pos rfl, List.append_nil, List.append_nil, shares_compact compact]
    exact blocks
  | false =>
    rw [if_neg Bool.false_ne_true, if_neg Bool.false_ne_true]
    have mapped := ((holds.mapped_perm compact).trans holds.cells_perm).map Asset.bufctl
    rw [List.map_append] at mapped
    apply (blocks.append ((all.map Asset.slab).append mapped)).trans
    refine List.Perm.trans (.of_eq ?_) ((shares_perm compact g.all).symm.append_right _)
    simp only [Ledger.allAvail, List.append_assoc]

/-- No object is in use where all slabs are free. -/
theorem Kept.idle (kept : Kept c s g handed) (full : g.lists .full = []) (used : g.lists .used = []) : handed = [] := by
  have holds := kept.holds
  apply List.eq_nil_iff_forall_not_mem.mpr
  intro object taken
  obtain ⟨slab, made, b, cell, out, _⟩ := (holds.account object).mp taken
  have positive := holds.refs_pos made cell out
  have member : slab ∈ g.lists .free := by simpa [Ledger.all, full, used] using holds.mem_all.mpr made
  have empty := (place_eq_iff.mp (kept.sorted .free (by simp) slab member)).2
  rw [slabEmpty_iff] at empty
  simp [empty] at positive

theorem release_refused (kept : Kept c s g handed) (used : ¬ (g.lists .full = [] ∧ g.lists .used = [])) :
    Cache.release limit c supply false s m = some (false, s, m) := by
  have shelved := kept.holds.shelved
  rw [← listEmpty_shelf shelved (by simp), ← listEmpty_shelf shelved (by simp)] at used
  have busy : ((!listEmpty s.links .full || !listEmpty s.links .used) && !false) = true := by
    rw [not_and_or] at used
    simpa using used
  rw [Cache.release, if_neg (by simp [kept.unlocked]), if_pos busy]

/-- A `release` that is not refused gives back what the cache holds, but for the
descriptors of the objects in use. -/
theorem Tenancy.release (tenancy : Tenancy supply account) (kept : Kept c s g handed) (regular : c.Regular)
    (enough : 2 ^ 97 ≤ limit) (held : account m (s.holdings c g.mapped ++ others)) {force : Bool}
    (allowed : force = true ∨ g.lists .full = [] ∧ g.lists .used = []) :
    ∃ s' m', Cache.release limit c supply force s m = some (true, s', m') ∧
      account m' ((if c.compact then [] else g.out.map .bufctl) ++ others) := by
  obtain ⟨distinct, few⟩ := tenancy.few regular held
  have short : g.all.length < limit := by
    rw [← (kept.holds.all_perm distinct).length_eq]
    omega
  have real : ∀ slab ∈ s.made, s.backing slab = 0 → ∀ m rest, account m rest := by
    intro slab made null
    have inside := (tenancy.inside held (.backing ⟨s.backing slab, c.allocSize⟩) (List.mem_append_left _
      (List.mem_append_left _ (List.mem_map.mpr ⟨slab, made, rfl⟩)))).1
    simp only [Asset.block, null] at inside
    cases inside
  apply release_spec tenancy.toTakes kept (Nat.lt_of_lt_of_le regular.few (by omega)) short real allowed
  rw [← List.append_assoc]
  exact tenancy.perm held ((kept.holdings_perm distinct).append_right _)

theorem release_empty (empty : ∀ list ∈ shelves, IsRing s.links list []) {force given : Bool}
    (ran : Cache.release limit c supply force s m = some (given, s', m')) :
    given = true ∧ m' = m := by
  have nothing {list : Link} (member : list ∈ shelves) (locked : Bool) {state : State × σ}
      (ran : releaseList limit c supply list { s with locked } m = some state) : state = ({ s with locked }, m) :=
    visitMutable_empty (path_next (empty list member).path) ran
  unfold Cache.release at ran
  rw [(listEmpty_ring (empty .full (by simp))).mpr rfl, (listEmpty_ring (empty .used (by simp))).mpr rfl] at ran
  split at ran
  next => cases ran
  next =>
    simp only [Bool.not_true, Bool.or_self, Bool.false_and, Bool.false_eq_true, if_false, Option.bind_eq_bind] at ran
    have last {state : State × σ} (same : state = ({ s with locked := true }, m))
        (ran : (releaseList limit c supply .free state.1 state.2).bind (fun state =>
          some (true, { state.1 with locked := false }, state.2)) = some (given, s', m')) : given = true ∧ m' = m := by
      subst same
      obtain ⟨state, looped, ran⟩ := Option.bind_eq_some_iff.mp ran
      obtain rfl := nothing (show Link.free ∈ shelves by simp) true looped
      cases ran
      exact ⟨rfl, rfl⟩
    split at ran
    next =>
      obtain ⟨state1, first, ran⟩ := Option.bind_eq_some_iff.mp ran
      obtain rfl := nothing (show Link.full ∈ shelves by simp) true first
      obtain ⟨state2, second, ran⟩ := Option.bind_eq_some_iff.mp ran
      exact last (nothing (show Link.used ∈ shelves by simp) true second) ran
    next => exact last rfl ran

end Tenants

end Hotarubi.Memory.Cache
