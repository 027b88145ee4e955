import Hotarubi.Proofs.CacheRuns

/-! One cache and its clients: arbitrary runs of the two calls, beside an account
of the objects that are handed out. -/

namespace Hotarubi.Memory.Cache
open Base Ring Chain Include

structure World (σ : Type) where
  state : State
  supply : σ
  handed : List Nat

inductive Event where
  | get
  | put (ptr : Nat)
  deriving DecidableEq, Repr

section Worlds

variable {σ : Type}

def World.initial (m : σ) : World σ := ⟨.initial, m, []⟩

def Event.exec (limit : Nat) (c : Config) (supply : Supply σ) (w : World σ) : Event → Option (Option Nat × World σ)
  | .get => do
    let (answer, state, m) ← getObject limit c supply w.state w.supply
    some (answer, ⟨state, m, answer.toList ++ w.handed⟩)
  | .put ptr => do
    let state ← putObject limit c w.state ptr
    some (none, ⟨state, w.supply, w.handed.erase ptr⟩)

/-- Allocations succeed, and only what is handed out is given back. -/
def Event.Promised (c : Config) (supply : Supply σ) (w : World σ) : Event → Prop
  | .get => Supplied c supply w.state w.supply
  | .put ptr => ptr ∈ w.handed

/-- The slab is on the list. -/
def State.On (s : State) (list : Link) (slab : Nat) : Prop := ∃ xs, IsRing s.links list xs ∧ Link.slabs slab ∈ xs

/-- The free descriptors of the slab, in the order of its list. -/
def State.FreeList (s : State) (slab : Nat) (xs : List Nat) : Prop := IsChain s.word (bufctlsHead slab) xs

/-- Each slab is on exactly one list, on the one that fits its free buffers, and
its buffers are in use or free; the lists hold nothing but slabs of the cache. -/
structure Consistent (c : Config) (s : State) : Prop where
  lists : ∀ list ∈ shelves, ∃ xs, IsRing s.links list xs ∧ ∀ x ∈ xs, ∃ slab ∈ s.made, x = .slabs slab
  one : ∀ slab ∈ s.made, ∃ list ∈ shelves, s.On list slab ∧ ∀ other ∈ shelves, s.On other slab → other = list
  place : ∀ slab ∈ s.made, ∃ xs, s.FreeList slab xs ∧ (s.refs slab).toNat + xs.length = c.buffers ∧
    (s.On .free slab ↔ s.refs slab = 0) ∧ (s.On .full slab ↔ xs = []) ∧
    (s.On .used slab ↔ s.refs slab ≠ 0 ∧ xs ≠ [])

/-- What a call does for its caller. An object that is handed out was not in use
and takes the first free descriptor of one slab, old or new; the supply is asked
only if no slab has a free buffer. An object that is given back returns the
descriptor it was handed out with to the slab it came from. -/
def Event.Serves (w w' : World σ) (answer : Option Nat) : Event → Prop
  | .get =>
    (∀ object, answer = some object → object ∉ w.handed ∧ ∃ slab bufctl xs,
      w'.state.origin object = some (slab, bufctl) ∧ slab ∈ w'.state.made ∧
      w'.state.FreeList slab xs ∧ bufctl ∉ xs ∧ (slab ∈ w.state.made → w.state.FreeList slab (bufctl :: xs)) ∧
      ∀ other ∈ w.state.made, other ≠ slab → ∀ ys, w.state.FreeList other ys → w'.state.FreeList other ys) ∧
    (∀ ptr ∈ w.handed, w'.state.origin ptr = w.state.origin ptr) ∧
    ((∃ slab ∈ w.state.made, ∃ xs, w.state.FreeList slab xs ∧ xs ≠ []) →
      w'.supply = w.supply ∧ w'.state.made = w.state.made)
  | .put ptr => w'.state.made = w.state.made ∧ w'.supply = w.supply ∧ w'.state.origin = w.state.origin ∧
    ∃ slab bufctl, w.state.origin ptr = some (slab, bufctl) ∧ slab ∈ w.state.made ∧
      (∀ xs, w.state.FreeList slab xs → w'.state.FreeList slab (bufctl :: xs)) ∧
      ∀ other ∈ w.state.made, other ≠ slab → ∀ ys, w.state.FreeList other ys → w'.state.FreeList other ys

variable {c : Config} {supply : Supply σ} {s : State} {g : Ledger} {handed : List Nat} {w : World σ} {limit slab : Nat}

theorem Holds.on_iff (holds : Holds c s g handed) {list : Link} (shelf : list ∈ shelves) :
    s.On list slab ↔ slab ∈ g.lists list := by
  constructor
  · rintro ⟨xs, ring, member⟩
    rw [ring.unique (holds.shelved.ring list shelf)] at member
    exact mem_nodes.mp member
  · intro inside
    exact ⟨_, holds.shelved.ring list shelf, mem_nodes.mpr inside⟩

private theorem Holds.freeList_iff (holds : Holds c s g handed) (member : slab ∈ s.made) {xs : List Nat} :
    s.FreeList slab xs ↔ xs = g.avail slab := by
  have chain := (holds.balanced slab member).chain
  constructor
  · exact fun free => free.unique chain
  · rintro rfl
    exact chain

theorem Kept.consistent (kept : Kept c s g handed) (served : 0 < c.buffers) : Consistent c s := by
  have holds := kept.holds
  have listed : ∀ slab ∈ s.made, ∀ list ∈ shelves, s.On list slab ↔ list = place s slab := by
    intro slab member list shelf
    rw [holds.on_iff shelf]
    refine ⟨kept.sorted list shelf slab, ?_⟩
    rintro rfl
    obtain ⟨list, shelf, inside⟩ := (holds.made slab).mp member
    rwa [← kept.sorted list shelf slab inside]
  have shelved : ∀ slab, place s slab ∈ shelves := by
    intro slab
    unfold place
    split
    · simp
    · split <;> simp
  refine ⟨fun list shelf => ⟨_, holds.shelved.ring list shelf, fun x node => ?_⟩, fun slab member => ?_,
    fun slab member => ?_⟩
  · obtain ⟨slab, inside, rfl⟩ := List.mem_map.mp node
    exact ⟨slab, (holds.made slab).mpr ⟨list, shelf, inside⟩, rfl⟩
  · exact ⟨_, shelved slab, (listed slab member _ (shelved slab)).mpr rfl,
      fun other shelf on => (listed slab member other shelf).mp on⟩
  · have count := (holds.balanced slab member).count
    refine ⟨g.avail slab, (holds.balanced slab member).chain, count, ?_, ?_, ?_⟩
    all_goals
      rw [listed slab member _ (by simp), place_eq_iff]
      simp only [← Bool.not_eq_true, holds.full_iff member, slabEmpty_iff]
    · refine ⟨fun here => here.2, fun none => ⟨fun full => ?_, none⟩⟩
      exact holds.single served member ⟨(holds.full_iff member).mpr full, slabEmpty_iff.mpr none⟩
    · exact and_comm

private theorem freeList_kept {s' : State} {g' : Ledger} {handed' : List Nat} (holds : Holds c s g handed)
    (holds' : Holds c s' g' handed') (member : slab ∈ s.made) (member' : slab ∈ s'.made)
    (same : g'.avail slab = g.avail slab) {ys : List Nat} (free : s.FreeList slab ys) : s'.FreeList slab ys := by
  rw [holds.freeList_iff member] at free
  rw [holds'.freeList_iff member', free, same]

/-- One call on a cache whose slabs have buffers. -/
theorem exec_kept (regular : c.Regular) (served : 0 < c.buffers) {event : Event}
    (kept : Kept c w.state g w.handed) (promised : event.Promised c supply w)
    (enough : (w.state.made.length + 2) * c.buffers < limit) :
    ∃ answer w', event.exec limit c supply w = some (answer, w') ∧ (∃ g', Kept c w'.state g' w'.handed) ∧
      w'.state.made.length ≤ w.state.made.length + 1 ∧ event.Serves w w' answer ∧ (event = .get → answer ≠ none) := by
  have room := Nat.le_mul_of_pos_right (w.state.made.length + 2) served
  cases event with
  | get =>
    obtain ⟨object, s', m', g', slab, bufctl, ran, kept', fresh, got, _⟩ := getObject_spec kept regular served promised
      (show w.state.made.length + 1 < limit by omega)
    have holds := kept.holds
    have holds' := kept'.holds
    have grown : ∀ old ∈ w.state.made, old ∈ s'.made := by
      intro old member
      rcases got.made with same | ⟨same, _⟩ <;> rw [same]
      · exact member
      · exact List.mem_cons_of_mem _ member
    refine ⟨some object, ⟨s', m', object :: w.handed⟩, by simp [Event.exec, ran], ⟨g', kept'⟩, ?_, ⟨?_, ?_, ?_⟩, nofun⟩
    · rcases got.made with same | ⟨same, _⟩ <;> simp [same]
    · rintro _ ⟨⟩
      refine ⟨fresh, slab, bufctl, g'.avail slab, got.origin, got.member, (holds'.freeList_iff got.member).mpr rfl, got.out,
        fun old => (holds.freeList_iff old).mpr (got.own old).symm, fun other member different ys free => ?_⟩
      exact freeList_kept holds holds' member (grown other member) (got.others other member different) free
    · exact fun ptr taken => got.kept ptr (ne_of_mem_of_not_mem taken fresh)
    · rintro ⟨old, member, xs, free, some⟩
      rw [holds.freeList_iff member] at free
      exact got.idle ⟨old, member, free ▸ some⟩
  | put ptr =>
    obtain ⟨s', g', slab, bufctl, ran, kept', back, _⟩ := putObject_spec kept served promised
      (show w.state.made.length * c.buffers < limit by
        rw [Nat.add_mul] at enough
        omega)
    have holds := kept.holds
    have holds' := kept'.holds
    refine ⟨none, ⟨s', w.supply, w.handed.erase ptr⟩, by simp [Event.exec, ran], ⟨g', kept'⟩, ?_,
      ⟨back.made, rfl, back.kept, slab, bufctl, back.origin, back.member, fun xs free => ?_,
        fun other member different ys free => ?_⟩, nofun⟩
    · simp [back.made]
    · rw [holds.freeList_iff back.member] at free
      exact (holds'.freeList_iff (back.made ▸ back.member)).mpr (free ▸ back.own.symm)
    · exact freeList_kept holds holds' member (back.made ▸ member) (back.others other different) free

/-- A cache whose slabs have no buffers never has a slab. -/
structure Barren (w : World σ) : Prop where
  made : w.state.made = []
  empty : ∀ list ∈ shelves, IsRing w.state.links list []
  none : w.handed = []

theorem Barren.consistent (barren : Barren w) : Consistent c w.state := by
  refine ⟨fun list shelf => ⟨[], barren.empty list shelf, nofun⟩, fun slab member => ?_, fun slab member => ?_⟩
  all_goals
    rw [barren.made] at member
    cases member

theorem Barren.grows (barren : Barren w) (supplied : Supplied c supply w.state w.supply) :
    ∃ backing slab bufctls m', Grows c supply w.supply backing slab bufctls m' ∧ Fresh c w.state backing slab bufctls :=
  supplied ((listEmpty_ring (barren.empty .used (by simp))).mpr rfl)
    ((listEmpty_ring (barren.empty .free (by simp))).mpr rfl)

private theorem slabAlloc_barren {m m' m'' : σ} {backing slab : Nat} {bufctls : List Nat} {answer : Option Nat} {s' : State}
    (barren : c.buffers = 0) (grows : Grows c supply m backing slab bufctls m')
    (ran : slabAlloc limit c supply s m = some (answer, s', m'')) :
    answer = none ∧ s'.made = s.made ∧ s'.links = initList s.links (.slabs slab) ∧ s'.stats = s.stats ∧
      s'.origin = s.origin ∧ c.compact = false ∧
      ∃ m1, supply.putSlab slab m' = some m1 ∧ supply.slabFree backing c.allocSize m1 = some m'' := by
  obtain ⟨m1, m2, m3, backed, associated, own, gets⟩ := grows
  obtain rfl : m' = m3 := by
    rw [barren] at gets
    cases gets
    rfl
  unfold slabAlloc at ran
  simp only [backed, associated, own, Option.bind_eq_bind, Option.bind_some, barren, true_or, if_true] at ran
  split at ran
  · cases ran
  · unfold dropBufctls at ran
    split at ran
    · cases ran
    next external =>
      obtain ⟨⟨s2, m4⟩, visited, dropped⟩ := Option.bind_eq_some_iff.mp ran
      obtain ⟨m5, returned, released⟩ := Option.bind_eq_some_iff.mp dropped
      obtain ⟨m6, given, result⟩ := Option.bind_eq_some_iff.mp released
      obtain ⟨rfl, rfl⟩ := Prod.mk.inj (visitMutable_empty (by simp) visited)
      cases result
      exact ⟨rfl, rfl, rfl, by simp, rfl, by simpa using external, m5, returned, given⟩

theorem getObject_barren {s s' : State} {m m1 m' : σ} {answer : Option Nat} {backing slab : Nat} {bufctls : List Nat}
    (none : c.buffers = 0) (empty : ∀ list ∈ shelves, IsRing s.links list [])
    (grows : Grows c supply m backing slab bufctls m1) (got : getObject limit c supply s m = some (answer, s', m')) :
    answer = Option.none ∧ s'.made = s.made ∧ s'.stats = s.stats ∧ (∀ list ∈ shelves, IsRing s'.links list []) ∧
      s'.origin = s.origin ∧ c.compact = false ∧
      ∃ m2, supply.putSlab slab m1 = some m2 ∧ supply.slabFree backing c.allocSize m2 = some m' := by
  unfold getObject at got
  split at got
  · cases got
  · obtain ⟨⟨list, s1, m1⟩, chosen, got⟩ := Option.bind_eq_some_iff.mp got
    have noUsed := (listEmpty_ring (empty .used (by simp))).mpr rfl
    have noFree := (listEmpty_ring (empty .free (by simp))).mpr rfl
    rw [slabList, if_pos noUsed, if_pos noFree] at chosen
    obtain ⟨⟨answer, s2, m2⟩, allocated, chosen⟩ := Option.bind_eq_some_iff.mp chosen
    obtain ⟨rfl, made, links, stats, origin, external, m3, returned, given⟩ := slabAlloc_barren none grows allocated
    cases chosen
    cases got
    refine ⟨rfl, made, stats, fun list shelf => ?_, origin, external, m3, returned, given⟩
    rw [links]
    refine (empty list shelf).congr fun x onRing => (initList_ring _ (.slabs slab)).2 x ?_
    rw [List.mem_singleton.mp onRing, List.mem_singleton]
    exact shelf_ne_slabs shelf slab

theorem exec_barren {event : Event} {answer : Option Nat} {w' : World σ} (none : c.buffers = 0) (barren : Barren w)
    (promised : event.Promised c supply w) (ran : event.exec limit c supply w = some (answer, w')) :
    Barren w' ∧ event.Serves w w' answer := by
  cases event with
  | put ptr =>
    rw [Event.Promised, barren.none] at promised
    cases promised
  | get =>
    obtain ⟨⟨answer', s', m'⟩, got, same⟩ := Option.bind_eq_some_iff.mp ran
    cases same
    obtain ⟨backing, slab, bufctls, m1, grows, _⟩ := barren.grows promised
    obtain ⟨rfl, made, _, empty, _⟩ := getObject_barren none barren.empty grows got
    refine ⟨⟨made.trans barren.made, empty, barren.none⟩, nofun, ?_, ?_⟩
    · rw [barren.none]
      nofun
    · rw [barren.made]
      rintro ⟨slab, member, _⟩
      cases member

theorem initial_rings : (∀ list ∈ shelves, IsRing State.initial.links list []) ∧ IsRing State.initial.links .objMap [] := by
  have keeps {l : Links Link} {head other : Link} (ring : IsRing l head []) (different : head ≠ other) :
      IsRing (initList l other) head [] := by
    refine ring.congr fun x onRing => (initList_ring l other).2 x ?_
    rw [List.mem_singleton.mp onRing, List.mem_singleton]
    exact different
  refine ⟨fun list shelf => ?_, (initList_ring _ _).1⟩
  simp only [List.mem_cons, List.not_mem_nil, or_false] at shelf
  rcases shelf with rfl | rfl | rfl
  · exact keeps (keeps (keeps (initList_ring _ _).1 (by simp)) (by simp)) (by simp)
  · exact keeps (keeps (initList_ring _ _).1 (by simp)) (by simp)
  · exact keeps (initList_ring _ _).1 (by simp)

theorem initial_kept : Kept c .initial ⟨fun _ => [], [], fun _ => [], fun _ => []⟩ [] := by
  refine ⟨⟨⟨initial_rings.1, initial_rings.2, nofun⟩, fun slab => ?_, nofun, nofun, nofun, nofun, nofun, fun b => ?_,
    fun ptr => ?_, List.nodup_nil⟩, nofun, rfl⟩
  · simp [State.initial]
  · simp [State.initial]
  · simp [State.initial]

/-- A run of permitted calls on a cache whose slabs have buffers. -/
theorem run_served (regular : c.Regular) (served : 0 < c.buffers) {m : σ} {events : List Event}
    (enough : (events.length + 1) * c.buffers < limit)
    (permitted : EachStep (Event.exec limit c supply) (Event.Promised c supply) (.initial m) events) :
    ∃ w, runCalls (Event.exec limit c supply) (.initial m) events = some w ∧ (∃ g, Kept c w.state g w.handed) ∧
      w.state.made.length ≤ events.length := by
  have start : (∃ g, Kept c (World.initial m).state g (World.initial m).handed) ∧
      (World.initial m).state.made.length ≤ 0 := ⟨⟨_, initial_kept⟩, Nat.le_refl 0⟩
  have step : ∀ n (w : World σ) (event : Event), n < events.length →
      ((∃ g, Kept c w.state g w.handed) ∧ w.state.made.length ≤ n) → event.Promised c supply w →
      ∃ answer w', event.exec limit c supply w = some (answer, w') ∧
        ((∃ g, Kept c w'.state g w'.handed) ∧ w'.state.made.length ≤ n + 1) := by
    rintro n w event bound ⟨⟨g, kept⟩, few⟩ promised
    obtain ⟨answer, w', ran, kept', more, _⟩ := exec_kept regular served kept promised
      (Nat.lt_of_le_of_lt (Nat.mul_le_mul_right _ (by omega)) enough)
    exact ⟨answer, w', ran, kept', by omega⟩
  obtain ⟨w, reached, kept, few⟩ := run_reaches step start (by omega) permitted
  exact ⟨w, reached, kept, by omega⟩

/-- A run of permitted calls on one whose slabs have none. -/
theorem run_barren (none : c.buffers = 0) {m : σ} {events : List Event}
    (permitted : EachStep (Event.exec limit c supply) (Event.Promised c supply) (.initial m) events)
    (reached : runCalls (Event.exec limit c supply) (.initial m) events = some w) : Barren w :=
  run_keeps (fun _ _ _ _ barren promised ran => (exec_barren none barren promised ran).1) ⟨rfl, initial_rings.1, rfl⟩
    permitted reached

end Worlds

/-- In every run of `get_object` and `put_object` on a cache of any geometry, in
which allocations succeed with disjoint blocks and only what is handed out is
given back, every state is consistent and every call serves its caller. The runs
do not get stuck where a slab has room for a buffer. -/
theorem slab_allocator {σ : Type} (supply : Supply σ) (m : σ) (size align : Nat) (checkOverflow : Bool) {limit : Nat}
    {events : List Event} {event : Event}
    (enough : (events.length + 2) * (cacheInit size align checkOverflow).buffers < limit)
    (permitted : EachStep (Event.exec limit (cacheInit size align checkOverflow) supply)
      (Event.Promised (cacheInit size align checkOverflow) supply) (.initial m) (events ++ [event])) :
    let c := cacheInit size align checkOverflow
    (∀ w, runCalls (Event.exec limit c supply) (.initial m) events = some w → Consistent c w.state ∧
      ∀ answer w', event.exec limit c supply w = some (answer, w') → Consistent c w'.state ∧ event.Serves w w' answer) ∧
    (0 < c.buffers → ∃ w answer w', runCalls (Event.exec limit c supply) (.initial m) events = some w ∧
      event.exec limit c supply w = some (answer, w') ∧ (event = .get → answer ≠ none)) := by
  intro c
  have regular : c.Regular := cacheInit_regular size align checkOverflow
  obtain ⟨before, after⟩ := eachStep_append.mp permitted
  rcases Nat.eq_zero_or_pos c.buffers with none | served
  · refine ⟨fun w reached => ?_, fun served => absurd none (Nat.ne_of_gt served)⟩
    have barren := run_barren none before reached
    refine ⟨barren.consistent, fun answer w' ran => ?_⟩
    obtain ⟨barren', serves⟩ := exec_barren none barren (after w reached).1 ran
    exact ⟨barren'.consistent, serves⟩
  · obtain ⟨w, reached, ⟨g, kept⟩, few⟩ := run_served regular served
      (Nat.lt_of_le_of_lt (Nat.mul_le_mul_right _ (by omega)) enough) before
    obtain ⟨answer, w', ran, ⟨g', kept'⟩, _, serves, some⟩ := exec_kept regular served kept (after w reached).1
      (Nat.lt_of_le_of_lt (Nat.mul_le_mul_right _ (by omega)) enough)
    refine ⟨fun other reached' => ?_, fun _ => ⟨w, answer, w', reached, ran, some⟩⟩
    cases reached.symm.trans reached'
    refine ⟨kept.consistent served, fun answer' other' ran' => ?_⟩
    cases ran.symm.trans ran'
    exact ⟨kept'.consistent served, serves⟩

/-- A supply that takes every block from the end of what it has given so far. -/
def bump : Supply Nat where
  slabAlloc n m := some (some m, m + n)
  associate _ m := some m
  slabFree _ _ m := some m
  getSlab m := some (some m, m + sizeofSlab)
  putSlab _ m := some m
  getBufctl m := some (some m, m + sizeofBufctl)
  putBufctl _ m := some m

/-- A condition that is met while one slab is enough. -/
def Event.Modest (w : World Nat) : Event → Prop
  | .get => w.state.made = [] ∧ listEmpty w.state.links .objMap = true ∨
    listEmpty w.state.links .used = false ∨ listEmpty w.state.links .free = false
  | .put ptr => ptr ∈ w.handed

instance (w : World Nat) (event : Event) : Decidable (event.Modest w) :=
  match event with
  | .get => inferInstanceAs (Decidable (_ ∨ _))
  | .put _ => inferInstanceAs (Decidable (_ ∈ _))

theorem promised_of_modest {w : World Nat} {event : Event} (modest : event.Modest w) :
    event.Promised (cacheInit 2000 0 false) bump w := by
  cases event with
  | put ptr => exact modest
  | get =>
    intro noUsed noFree
    rcases modest with ⟨none, empty⟩ | used | free
    · refine ⟨w.supply, w.supply + 4096, [w.supply + 4136, w.supply + 4168], w.supply + 4200,
        ⟨_, _, _, rfl, rfl, rfl, .next rfl (.next rfl .none)⟩, ?_, ?_⟩
      · have whole : (cacheInit 2000 0 false).allocSize = 4096 ∧ (cacheInit 2000 0 false).compact = false := by decide
        simp only [Config.blocks, whole, Block.Apart, sizeofSlab, sizeofBufctl, Bool.false_eq_true, if_false, List.map_cons,
          List.map_nil, List.pairwise_cons, List.mem_cons, List.not_mem_nil, or_false, forall_eq_or_imp, forall_eq,
          List.Pairwise.nil, false_imp_iff, implies_true, and_true]
        omega
      · rintro block _ used (⟨slab, member, _⟩ | ⟨_, xs, bufctl, ring, inside, _⟩)
        · rw [none] at member
          cases member
        · rw [(listEmpty_ring ring).mp empty] at inside
          cases inside
    · rw [used] at noUsed
      cases noUsed
    · rw [free] at noFree
      cases noFree

/-- Both buffers of a slab are taken, one is given back and taken again. -/
theorem slab_allocator_witness :
    let c := cacheInit 2000 0 false
    let events : List Event := [.get, .get, .put 6096]
    (∀ w, runCalls (Event.exec 11 c bump) (.initial 4096) events = some w → Consistent c w.state ∧
      ∀ answer w', Event.get.exec 11 c bump w = some (answer, w') →
        Consistent c w'.state ∧ Event.get.Serves w w' answer) ∧
    (0 < c.buffers → ∃ w answer w', runCalls (Event.exec 11 c bump) (.initial 4096) events = some w ∧
      Event.get.exec 11 c bump w = some (answer, w') ∧ (Event.get = .get → answer ≠ none)) := by
  intro c events
  have each : EachStep (Event.exec 11 c bump) Event.Modest (.initial 4096) (events ++ [.get]) := by decide +kernel
  exact slab_allocator bump 4096 2000 0 false (by decide +kernel) (each.mono fun w event => promised_of_modest)

end Hotarubi.Memory.Cache
