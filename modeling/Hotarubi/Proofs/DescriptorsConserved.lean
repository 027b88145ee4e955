import Hotarubi.Base.Runs
import Hotarubi.Proofs.DescriptorsPools

/-! Runs of any caches over the two pools. As many descriptors are in use as the
caches have slabs and buffers, until a release leaves those of the objects behind
that have not come back. -/

namespace Hotarubi.Memory.Descriptors
open Base Ring Cache Include

def isSlab : Asset → Bool
  | .slab _ => true
  | _ => false

def isBufctl : Asset → Bool
  | .bufctl _ => true
  | _ => false

/-- A cache between two calls, with the descriptors in its object map. -/
structure Tenant (c : Config) (s : State) (mapped handed : List Nat) : Prop where
  kept : 0 < c.buffers → ∃ g, Kept c s g handed ∧ g.mapped = mapped
  barren : c.buffers = 0 → s.made = [] ∧ (∀ list ∈ shelves, IsRing s.links list []) ∧ mapped = [] ∧ handed = []

section Worlds

variable {σ κ : Type} {leased : σ → List Block → Prop} {caches : Caches σ κ} {limit : Nat} {cache : κ}
  {m m' : Pools σ} {xs others : List Asset} {answer : Option Nat} {c : Config} {s s' : State} {g : Ledger}
  {mapped handed : List Nat} {w w' : World σ κ} {descriptors : κ → List Nat}

/-- What the caches that are alive hold. -/
def World.holdings (w : World σ κ) (caches : Caches σ κ) (descriptors : κ → List Nat) : List Asset :=
  w.alive.flatMap fun cache => (w.cache cache).holdings (caches.config cache) (descriptors cache)

/-- The invariant: all that the pools have given is held by a cache that is alive. -/
structure Accounted (caches : Caches σ κ) (leased : σ → List Block → Prop) (w : World σ κ) (descriptors : κ → List Nat) :
    Prop where
  alive : w.alive.Nodup
  tenants : ∀ cache ∈ w.alive, Tenant (caches.config cache) (w.cache cache) (descriptors cache) (w.handed cache)
  pooled : Pooled leased w.pools (w.holdings caches descriptors)

theorem Caches.regular (caches : Caches σ κ) (cache : κ) : (caches.config cache).Regular := by
  obtain ⟨size, align, checkOverflow, same⟩ := caches.created cache
  rw [same]
  exact cacheInit_regular size align checkOverflow

/-- The pools have as many objects in use as descriptors are on the account. -/
theorem Pooled.counts (pooled : Pooled leased m xs) (lease : caches.Lease leased) :
    inUse m.slabs = xs.countP isSlab ∧ inUse m.bufctls = xs.countP isBufctl := by
  obtain ⟨gs, gb, slabs, bufctls, blocks, ⟨keptSlabs, keptBufctls, plain⟩, given⟩ := pooled
  have distinct := ((lease.slabs.tenancy lease.landlord).few slabPool_regular plain).1
  have distinct' := ((lease.bufctls.tenancy lease.landlord).few bufctlPool_regular
    (plain.perm lease.landlord (perm_swap _ _ _))).1
  have none {p : Asset → Bool} (foreign : ∀ block, p (.backing block) = false) : blocks.countP p = 0 := by
    apply List.countP_eq_zero.mpr
    intro x member
    obtain ⟨block, rfl⟩ := plain.1 x (List.mem_append_right _ (List.mem_append_right _ member))
    simp [foreign]
  rw [given.countP_eq, given.countP_eq, List.countP_append, List.countP_append, List.countP_append, List.countP_append,
    none fun _ => rfl, none fun _ => rfl]
  refine ⟨(keptSlabs.holds.refs_sum distinct).trans ?_, (keptBufctls.holds.refs_sum distinct').trans ?_⟩
  · simp [List.countP_map, Function.comp_def, isSlab]
  · simp [List.countP_map, Function.comp_def, isBufctl]

private theorem holdings_slabs : (s.holdings c mapped).countP isSlab = if c.compact then 0 else s.made.length := by
  unfold State.holdings
  split <;> simp [List.countP_map, Function.comp_def, isSlab]

private theorem holdings_bufctls : (s.holdings c mapped).countP isBufctl = if c.compact then 0 else mapped.length := by
  unfold State.holdings
  split <;> simp [List.countP_map, Function.comp_def, isBufctl]

private theorem Tenant.mapped_length (tenant : Tenant c s mapped handed) (distinct : s.made.Nodup)
    (external : c.compact = false) :
    mapped.length = s.made.length * c.buffers := by
  rcases Nat.eq_zero_or_pos c.buffers with none | served
  · obtain ⟨made, _, rfl, _⟩ := tenant.barren none
    simp [made]
  · obtain ⟨g, kept, rfl⟩ := tenant.kept served
    rw [(kept.holds.mapped_perm external).length_eq, kept.holds.cells_length distinct]

theorem Accounted.initial (backing : σ) {alive : List κ} (distinct : alive.Nodup) (vacant : leased backing []) :
    Accounted caches leased (.initial backing alive) fun _ => [] := by
  have empty : (World.initial backing alive).holdings caches (fun _ => []) = [] := by
    apply List.flatMap_eq_nil_iff.mpr
    intro cache _
    simp [World.initial, State.holdings, State.initial]
  refine ⟨distinct, fun cache _ => ⟨fun _ => ⟨_, initial_kept, rfl⟩, fun _ => ⟨rfl, initial_rings.1, rfl, rfl⟩⟩, ?_⟩
  rw [empty]
  refine ⟨_, _, [], [], [], ⟨initial_kept, initial_kept, ?_⟩, .refl _⟩
  exact ⟨fun _ member => absurd member List.not_mem_nil, vacant⟩

/-- A cache that serves no objects is as it was made. -/
theorem Accounted.barren (accounted : Accounted caches leased w descriptors) (member : cache ∈ w.alive)
    (none : (caches.config cache).buffers = 0) :
    (w.cache cache).made = [] ∧ (∀ list ∈ shelves, IsRing (w.cache cache).links list []) ∧ descriptors cache = [] ∧
      w.handed cache = [] := (accounted.tenants cache member).barren none

variable [DecidableEq κ]

/-- What all caches but one hold. -/
def World.rest (w : World σ κ) (caches : Caches σ κ) (descriptors : κ → List Nat) (cache : κ) : List Asset :=
  (w.alive.erase cache).flatMap fun cache => (w.cache cache).holdings (caches.config cache) (descriptors cache)

/-- The account of the pools from the point of view of one cache. -/
theorem Accounted.split (accounted : Accounted caches leased w descriptors) (member : cache ∈ w.alive) :
    Pooled leased w.pools ((w.cache cache).holdings (caches.config cache) (descriptors cache) ++
      w.rest caches descriptors cache) :=
  accounted.pooled.perm ((List.perm_cons_erase member).flatMap_right _)

/-- A cache that serves objects has a ledger, which names the descriptors it holds. -/
theorem Accounted.kept (accounted : Accounted caches leased w descriptors) (member : cache ∈ w.alive)
    (served : 0 < (caches.config cache).buffers) : ∃ g, Kept (caches.config cache) (w.cache cache) g (w.handed cache) ∧
      Pooled leased w.pools ((w.cache cache).holdings (caches.config cache) g.mapped ++ w.rest caches descriptors cache) := by
  obtain ⟨g, kept, same⟩ := (accounted.tenants cache member).kept served
  refine ⟨g, kept, ?_⟩
  rw [same]
  exact accounted.split member

theorem Accounted.few (accounted : Accounted caches leased w descriptors) (lease : caches.Lease leased)
    (member : cache ∈ w.alive) : (w.cache cache).made.Nodup ∧ (w.cache cache).made.length ≤ 2 ^ 64 := by
  have tenancy : Tenancy (caches.supply (2 ^ 97) cache) (Pooled leased) := pooled_tenancy lease (Nat.le_refl _)
  exact tenancy.few (caches.regular cache) (accounted.split member)

/-- Caches that are alive hold a descriptor for each of their buffers. -/
theorem Accounted.buffers (accounted : Accounted caches leased w descriptors) (lease : caches.Lease leased) {part : List κ}
    (within : ∀ cache ∈ part, cache ∈ w.alive) :
    (part.flatMap fun cache => (w.cache cache).holdings (caches.config cache) (descriptors cache)).countP isBufctl =
      (part.map fun cache => if (caches.config cache).compact then 0
        else (w.cache cache).made.length * (caches.config cache).buffers).sum := by
  rw [List.countP_flatMap]
  refine congrArg List.sum (List.map_congr_left fun cache inside => holdings_bufctls.trans ?_)
  have member := within cache inside
  cases compact : (caches.config cache).compact with
  | true => rfl
  | false => exact (accounted.tenants cache member).mapped_length (accounted.few lease member).1 compact

private theorem Accounted.conserved (accounted : Accounted caches leased w descriptors) (lease : caches.Lease leased) :
    Conserved caches w := by
  obtain ⟨slabs, bufctls⟩ := accounted.pooled.counts lease
  refine ⟨slabs.trans ?_, bufctls.trans (accounted.buffers lease fun _ member => member)⟩
  rw [World.holdings, List.countP_flatMap, World.slabs]
  exact congrArg List.sum (List.map_congr_left fun cache _ => holdings_slabs)

private theorem rest_after (distinct : w.alive.Nodup) (s : State) (mine : List Nat) :
    ((w.alive.erase cache).flatMap fun other => (Function.update w.cache cache s other).holdings (caches.config other)
      (Function.update descriptors cache mine other)) = w.rest caches descriptors cache := by
  apply List.flatMap_congr
  intro other member
  have different := ne_of_mem_of_not_mem member distinct.not_mem_erase
  rw [Function.update_of_ne different, Function.update_of_ne different]

/-- A call that leaves its cache alive. -/
theorem Accounted.after (accounted : Accounted caches leased w descriptors)
    (member : cache ∈ w.alive) {mine : List Nat} (tenant : Tenant (caches.config cache) s mine handed)
    (pooled : Pooled leased m (s.holdings (caches.config cache) mine ++ w.rest caches descriptors cache)) :
    Accounted caches leased (w.after cache s m w.alive handed) (Function.update descriptors cache mine) := by
  refine ⟨accounted.alive, fun other inside => ?_, ?_⟩
  · by_cases same : other = cache
    · subst same
      simpa [World.after] using tenant
    · simpa [World.after, Function.update_of_ne same] using accounted.tenants other inside
  · refine pooled.perm (List.Perm.trans (.of_eq ?_) ((List.perm_cons_erase member).symm.flatMap_right _))
    rw [List.flatMap_cons]
    simp only [World.after, rest_after accounted.alive, Function.update_self]

/-- A call that ends its cache. -/
theorem Accounted.without (accounted : Accounted caches leased w descriptors)
    (pooled : Pooled leased m (w.rest caches descriptors cache)) :
    Accounted caches leased (w.after cache s m (w.alive.erase cache) handed) descriptors := by
  have others : ∀ other ∈ w.alive.erase cache, other ≠ cache := fun other member =>
    ne_of_mem_of_not_mem member accounted.alive.not_mem_erase
  refine ⟨accounted.alive.erase _, fun other inside => ?_, ?_⟩
  · simpa [World.after, Function.update_of_ne (others other inside)] using
      accounted.tenants other (List.mem_of_mem_erase inside)
  · have same : (w.after cache s m (w.alive.erase cache) handed).holdings caches descriptors =
        w.rest caches descriptors cache := by
      apply List.flatMap_congr
      intro other inside
      simp only [World.after, Function.update_of_ne (others other inside)]
    rw [same]
    exact pooled

theorem Accounted.get (accounted : Accounted caches leased w descriptors) (lease : caches.Lease leased)
    (enough : 2 ^ 97 ≤ limit) (member : cache ∈ w.alive)
    (got : getObject limit (caches.config cache) (caches.supply limit cache) (w.cache cache) w.pools = some
      (answer, s, m)) :
    ∃ mine, Accounted caches leased (w.after cache s m w.alive (answer.toList ++ w.handed cache))
      (Function.update descriptors cache mine) := by
  have tenancy : Tenancy (caches.supply limit cache) (Pooled leased) := pooled_tenancy lease enough
  have regular := caches.regular cache
  rcases Nat.eq_zero_or_pos (caches.config cache).buffers with none | served
  · obtain ⟨made, empty, nothing, idle⟩ := accounted.barren member none
    obtain ⟨rfl, made', empty', held'⟩ := tenancy.get_barren regular none empty (accounted.split member) got
    refine ⟨[], accounted.after member ⟨fun served => absurd none (Nat.ne_of_gt served),
      fun _ => ⟨made'.trans made, empty', rfl, idle⟩⟩ ?_⟩
    simpa [State.holdings, made, made', nothing] using held'
  · obtain ⟨g, kept, held⟩ := accounted.kept member served
    obtain ⟨object, g', rfl, kept', held'⟩ := tenancy.get kept regular served enough held got
    exact ⟨g'.mapped, accounted.after member ⟨fun _ => ⟨g', kept', rfl⟩, fun none => absurd none (Nat.ne_of_gt served)⟩
      held'⟩

theorem Accounted.put (accounted : Accounted caches leased w descriptors) (lease : caches.Lease leased)
    (enough : 2 ^ 97 ≤ limit) (member : cache ∈ w.alive) {ptr : Nat} (taken : ptr ∈ w.handed cache)
    (put : putObject limit (caches.config cache) (w.cache cache) ptr = some s) :
    ∃ mine, Accounted caches leased (w.after cache s w.pools w.alive ((w.handed cache).erase ptr))
      (Function.update descriptors cache mine) := by
  rcases Nat.eq_zero_or_pos (caches.config cache).buffers with none | served
  · rw [(accounted.barren member none).2.2.2] at taken
    cases taken
  · obtain ⟨g, kept, held⟩ := accounted.kept member served
    obtain ⟨s', g', ran, kept', _, holdings⟩ :=
      kept.put (caches.regular cache) (accounted.few lease member).2 enough taken
    cases put.symm.trans ran
    rw [← holdings] at held
    exact ⟨g'.mapped, accounted.after member ⟨fun _ => ⟨g', kept', rfl⟩, fun none => absurd none (Nat.ne_of_gt served)⟩
      held⟩

/-- A release that is not refused leaves behind as many descriptors as there are
objects in use of a cache that is not compact. -/
theorem Accounted.release (accounted : Accounted caches leased w descriptors) (lease : caches.Lease leased)
    (enough : 2 ^ 97 ≤ limit) (member : cache ∈ w.alive) {force given : Bool}
    (released : Cache.release limit (caches.config cache) (caches.supply limit cache) force (w.cache cache) w.pools =
      some (given, s, m)) :
    given = false ∧ s = w.cache cache ∧ m = w.pools ∨
      given = true ∧ (force = false → w.handed cache = []) ∧ ∃ left : List Nat,
        left.length = (if (caches.config cache).compact then 0 else (w.handed cache).length) ∧
        Pooled leased m (left.map .bufctl ++ w.rest caches descriptors cache) := by
  have tenancy : Tenancy (caches.supply limit cache) (Pooled leased) := pooled_tenancy lease enough
  rcases Nat.eq_zero_or_pos (caches.config cache).buffers with none | served
  · obtain ⟨made, empty, nothing, idle⟩ := accounted.barren member none
    obtain ⟨rfl, rfl⟩ := release_empty empty released
    refine .inr ⟨rfl, fun _ => idle, [], by simp [idle], ?_⟩
    simpa [State.holdings, made, nothing] using accounted.split member
  · obtain ⟨g, kept, held⟩ := accounted.kept member served
    by_cases allowed : force = true ∨ g.lists .full = [] ∧ g.lists .used = []
    · obtain ⟨s', m', ran, held'⟩ := tenancy.release kept (caches.regular cache) enough held allowed
      cases released.symm.trans ran
      refine .inr ⟨rfl, fun gentle => ?_, if (caches.config cache).compact then [] else g.out, ?_, ?_⟩
      · obtain ⟨full, used⟩ := allowed.resolve_left (by rw [gentle]; exact Bool.false_ne_true)
        exact kept.idle full used
      · rw [← kept.holds.out_length]
        split <;> rfl
      · rw [apply_ite (List.map Asset.bufctl)]
        exact held'
    · obtain ⟨gentle, used⟩ := not_or.mp allowed
      obtain rfl : force = false := by simpa using gentle
      cases released.symm.trans (release_refused kept used)
      exact .inl ⟨rfl, rfl, rfl⟩

private theorem Accounted.leak (accounted : Accounted caches leased w descriptors) (lease : caches.Lease leased)
    (enough : 2 ^ 97 ≤ limit) (member : cache ∈ w.alive) (external : (caches.config cache).compact = false)
    (busy : w.handed cache ≠ []) : ¬ (Event.release cache true).Conserves limit caches w := by
  rintro ⟨_, conserves⟩
  have served : 0 < (caches.config cache).buffers :=
    Nat.pos_of_ne_zero fun none => busy (accounted.barren member none).2.2.2
  have tenancy : Tenancy (caches.supply limit cache) (Pooled leased) := pooled_tenancy lease enough
  obtain ⟨g, kept, held⟩ := accounted.kept member served
  obtain ⟨s, m, released, _⟩ := tenancy.release kept (caches.regular cache) enough held (.inl rfl)
  rcases accounted.release lease enough member released with ⟨refused, _⟩ | ⟨_, _, left, length, pooled⟩
  · cases refused
  have ran : (Event.release cache true).exec limit caches w =
      some (.released true, w.after cache s m (w.alive.erase cache) (w.handed cache)) := by
    simp only [Event.exec, released, Option.bind_eq_bind, Option.bind_some, if_true]
  have conserved := (conserves _ _ ran).bufctls
  have others : (w.after cache s m (w.alive.erase cache) (w.handed cache)).buffers caches =
      (w.rest caches descriptors cache).countP isBufctl := by
    refine Eq.trans ?_ (accounted.buffers lease fun _ => List.mem_of_mem_erase).symm
    refine congrArg List.sum (List.map_congr_left fun other inside => ?_)
    simp only [World.after, Function.update_of_ne (ne_of_mem_of_not_mem inside accounted.alive.not_mem_erase)]
  have counted := (pooled.counts lease).2
  have lost : (left.map Asset.bufctl).countP isBufctl = left.length := by
    simp [List.countP_map, Function.comp_def, isBufctl]
  rw [external, if_neg Bool.false_ne_true] at length
  rw [List.countP_append, lost, length] at counted
  rw [others] at conserved
  have positive := List.length_pos_of_ne_nil busy
  have equal := counted.symm.trans conserved
  omega

private theorem after_same : w.after cache (w.cache cache) w.pools w.alive (w.handed cache) = w := by
  simp [World.after]

/-- One permitted call keeps the account, unless it forces the release of a cache
that is not compact and has objects in use. -/
theorem Accounted.exec (accounted : Accounted caches leased w descriptors) (lease : caches.Lease leased)
    (enough : 2 ^ 97 ≤ limit) {event : Event κ} (permitted : event.Permitted w) (emptied : event.Emptied caches w)
    {answer : Answer} (ran : event.exec limit caches w = some (answer, w')) :
    ∃ descriptors', Accounted caches leased w' descriptors' := by
  cases event with
  | get cache =>
    obtain ⟨⟨object, s, m⟩, got, same⟩ := Option.bind_eq_some_iff.mp ran
    cases same
    obtain ⟨mine, accounted'⟩ := accounted.get lease enough permitted got
    exact ⟨_, accounted'⟩
  | put cache ptr =>
    obtain ⟨s, put, same⟩ := Option.bind_eq_some_iff.mp ran
    cases same
    obtain ⟨mine, accounted'⟩ := accounted.put lease enough permitted.1 permitted.2 put
    exact ⟨_, accounted'⟩
  | release cache force =>
    obtain ⟨⟨given, s, m⟩, released, same⟩ := Option.bind_eq_some_iff.mp ran
    cases same
    rcases accounted.release lease enough permitted released with ⟨rfl, rfl, rfl⟩ | ⟨rfl, gentle, left, length, pooled⟩
    · refine ⟨descriptors, ?_⟩
      simpa [after_same] using accounted
    · have nothing : left = [] := by
        refine List.eq_nil_of_length_eq_zero (length.trans ?_)
        split
        next => rfl
        next external =>
          have external : (caches.config cache).compact = false := by simpa using external
          cases force with
          | true => rw [emptied cache rfl external, List.length_nil]
          | false => rw [gentle rfl, List.length_nil]
      rw [nothing] at pooled
      exact ⟨descriptors, accounted.without pooled⟩

/-- What holds after any number of calls. -/
def Settled (caches : Caches σ κ) (leased : σ → List Block → Prop) (_ : Nat) (w : World σ κ) : Prop :=
  ∃ descriptors, Accounted caches leased w descriptors

/-- In every run of any caches over the two pools, on backends that lease memory,
descriptors are conserved all the way if and only if no release of a cache that is
not compact is forced while it has objects in use. -/
theorem descriptors_conserved_iff (caches : Caches σ κ) (leased : σ → List Block → Prop) (lease : caches.Lease leased)
    (backing : σ) (vacant : leased backing []) (alive : List κ) (distinct : alive.Nodup) (events : List (Event κ))
    (enough : 2 ^ 97 ≤ limit)
    (permitted : EachStep (Event.exec limit caches) Event.Permitted (.initial backing alive) events) :
    EachStep (Event.exec limit caches) (Event.Conserves limit caches) (.initial backing alive) events ↔
      EachStep (Event.exec limit caches) (Event.Emptied caches) (.initial backing alive) events := by
  have start : Settled caches leased 0 (.initial backing alive) := ⟨_, Accounted.initial backing distinct vacant⟩
  have same : ∀ n w (event : Event κ), n < events.length → Settled caches leased n w → event.Permitted w →
      (event.Conserves limit caches w ↔ event.Emptied caches w) := by
    intro n w event _ settled allowed
    obtain ⟨descriptors, accounted⟩ := settled
    refine ⟨fun conserves cache forced external => ?_, fun emptied => ⟨accounted.conserved lease, fun answer w' ran => ?_⟩⟩
    · subst forced
      by_contra busy
      exact accounted.leak lease enough allowed external busy conserves
    · obtain ⟨descriptors', accounted'⟩ := accounted.exec lease enough allowed emptied ran
      exact accounted'.conserved lease
  have kept : ∀ n w (event : Event κ) answer w', n < events.length → Settled caches leased n w → event.Permitted w →
      event.Emptied caches w → event.exec limit caches w = some (answer, w') → Settled caches leased (n + 1) w' := by
    intro n w event answer w' _ settled allowed emptied ran
    obtain ⟨descriptors, accounted⟩ := settled
    exact accounted.exec lease enough allowed emptied ran
  exact eachStep_iff same kept start (Nat.le_of_eq (Nat.zero_add _)) permitted

end Worlds

/-- A backend that takes every block from the end of what it has given so far. -/
def bumpBackend : Backend Nat where
  slabAlloc n m := if m + n ≤ 2 ^ 64 then some (some m, m + n) else some (none, m)
  associate _ m := some m
  slabFree _ _ m := some m

def Bumped (m : Nat) (xs : List Block) : Prop :=
  0 < m ∧ xs.Pairwise Block.Apart ∧ ∀ x ∈ xs, 0 < x.addr ∧ x.addr + x.size ≤ m ∧ m ≤ 2 ^ 64

/-- A cache of objects of 2000 bytes. -/
def bumpCaches : Caches Nat Unit where
  slabCache := bumpBackend
  bufctlCache := bumpBackend
  backend _ := bumpBackend
  config _ := cacheInit 2000 0 false
  created _ := ⟨2000, 0, false, rfl⟩

private theorem bumpBackend_leases : bumpBackend.Leases Bumped := by
  refine ⟨fun {n backing m m' xs} ⟨positive, apart, bounds⟩ answered => ?_, fun {_ _ _ _} held same => ?_,
    fun {backing n m xs} ⟨positive, apart, bounds⟩ => ⟨m, rfl, positive, (List.pairwise_cons.mp apart).2, fun x member =>
      bounds x (List.mem_cons_of_mem _ member)⟩⟩
  · unfold bumpBackend at answered
    simp only at answered
    split at answered
    next fits =>
      cases answered
      refine ⟨by omega, List.pairwise_cons.mpr ⟨fun x member => ?_, apart⟩, fun x member => ?_⟩
      · have := bounds x member
        right
        simp only
        omega
      · rcases List.mem_cons.mp member with rfl | old
        · simp only
          omega
        · have := bounds x old
          omega
    next => cases answered
  · cases same
    exact held

private theorem bumpCaches_lease : bumpCaches.Lease Bumped := by
  refine ⟨⟨fun {m xs ys} ⟨positive, apart, bounds⟩ same => ⟨positive, ?_, fun x member =>
    bounds x (same.mem_iff.mpr member)⟩, fun held => held.2.1, fun {m xs} ⟨_, _, bounds⟩ x member => ?_⟩,
    bumpBackend_leases, bumpBackend_leases, fun _ => bumpBackend_leases⟩
  · exact (same.pairwise_iff Block.Apart.symm).mp apart
  · have := bounds x member
    omega

theorem descriptors_conserved_iff_witness :
    let events : List (Event Unit) := [.get (), .put () 6096, .release () true]
    EachStep (Event.exec (2 ^ 97) bumpCaches) (Event.Conserves (2 ^ 97) bumpCaches) (.initial 4096 [()]) events ↔
      EachStep (Event.exec (2 ^ 97) bumpCaches) (Event.Emptied bumpCaches) (.initial 4096 [()]) events :=
  descriptors_conserved_iff bumpCaches Bumped bumpCaches_lease 4096 ⟨by decide, .nil, nofun⟩ [()] (by decide) _
    (Nat.le_refl _) (by decide +kernel)

/-- One object of 2000 bytes is in use when its cache is released by force: the slab
and the descriptor of the other buffer come back, that of the object does not. -/
theorem forced_release_leaks : ¬ ∀ (limit : Nat) (caches : Caches Nat Unit) (leased : Nat → List Block → Prop),
    caches.Lease leased → ∀ (backing : Nat), leased backing [] → ∀ (alive : List Unit), alive.Nodup →
    ∀ (events : List (Event Unit)), 2 ^ 97 ≤ limit →
    EachStep (Event.exec limit caches) Event.Permitted (.initial backing alive) events →
    EachStep (Event.exec limit caches) (Event.Conserves limit caches) (.initial backing alive) events := by
  intro claim
  have conserves := claim (2 ^ 97) bumpCaches Bumped bumpCaches_lease 4096 ⟨by decide, .nil, nofun⟩ [()] (by decide)
    [.get (), .release () true] (Nat.le_refl _) (by decide +kernel)
  rw [eachStep_get (by decide +kernel)] at conserves
  obtain ⟨_, ⟨_, after⟩, _⟩ := conserves
  have result : ((Event.release () true).exec (2 ^ 97) bumpCaches
      (((Event.get ()).exec (2 ^ 97) bumpCaches (.initial 4096 [()])).get (by decide +kernel)).2).map (fun reached =>
        (inUse reached.2.pools.bufctls, reached.2.buffers bumpCaches)) = some (1, 0) := by decide +kernel
  obtain ⟨⟨answer, w'⟩, ran, same⟩ := Option.map_eq_some_iff.mp result
  obtain ⟨left, none⟩ := Prod.mk.inj same
  have equal := (after answer w' ran).bufctls
  rw [left, none] at equal
  cases equal

end Hotarubi.Memory.Descriptors
