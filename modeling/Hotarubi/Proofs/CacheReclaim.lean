import Hotarubi.Proofs.CacheRelease

/-! Reclaiming slabs, over runs of `get_object`, `put_object` and `reap`. The lists
and the statistics stay in step with the slabs that still have their backing just as
long as `reap` finds nothing to give back. -/

namespace Hotarubi.Memory.Cache
open Base Ring Chain Include

/-- The statistics of a cache with this many slabs. -/
structure Tally (c : Config) (number : Nat) (stats : Stats) : Prop where
  slabs : stats.slabs = UInt64.ofNat number
  buffers : stats.buffers = UInt64.ofNat (number * c.buffers)
  allocation : stats.allocation = UInt64.ofNat (number * c.allocSize)

/-- A cache and its clients, with the slabs whose backing has not been given back. -/
structure Reserve (σ : Type) where
  world : World σ
  remaining : List Nat

inductive Step where
  | call (event : Event)
  | reap
  deriving DecidableEq, Repr

inductive Reply where
  | object (answer : Option Nat)
  | reaped (given : Bool)
  deriving DecidableEq, Repr

section Reserves

variable {σ : Type}

def Reserve.initial (m : σ) : Reserve σ := ⟨.initial m, []⟩

def Step.exec (limit : Nat) (c : Config) (supply : Supply σ) (x : Reserve σ) : Step → Option (Reply × Reserve σ)
  | .call event => do
    let (answer, world) ← event.exec limit c supply x.world
    let grown := world.state.made.take (world.state.made.length - x.world.state.made.length)
    some (.object answer, ⟨world, grown ++ x.remaining⟩)
  | .reap => do
    let (given, gone, state, m) ← Cache.reap limit c supply x.world.state x.world.supply
    some (.reaped given, ⟨{ x.world with state, supply := m }, x.remaining.filter fun slab => slab ∉ gone⟩)

/-- Allocations succeed with memory that no remaining slab takes up, and only what
is handed out is given back. -/
def Step.Promised (c : Config) (supply : Supply σ) (x : Reserve σ) : Step → Prop
  | .call event => event.Promised c supply { x.world with state := { x.world.state with made := x.remaining } }
  | .reap => True

/-- The lists hold the slabs that have their backing, and these are counted. -/
structure Reclaimed (c : Config) (x : Reserve σ) : Prop where
  lists : ∀ list ∈ shelves, ∃ slabs, IsRing x.world.state.links list (nodes slabs)
  listed : ∀ slab, slab ∈ x.remaining ↔ ∃ list ∈ shelves, x.world.state.On list slab
  once : x.remaining.Nodup
  tally : Tally c x.remaining.length x.world.state.stats

/-- An object lies in the backing of a slab that still has it, and a successful
`reap` leaves no free slab. -/
def Reply.Reclaims (c : Config) (x : Reserve σ) : Reply → Prop
  | .object answer => ∀ object, answer = some object →
    ∃ slab ∈ x.remaining, Block.Holds ⟨x.world.state.backing slab, c.allocSize⟩ object
  | .reaped given => given = true → listEmpty x.world.state.links .free = true

/-- Slabs are reclaimed before and after the step. -/
def Step.Behaves (limit : Nat) (c : Config) (supply : Supply σ) (x : Reserve σ) (step : Step) : Prop :=
  Reclaimed c x ∧ ∀ reply x', step.exec limit c supply x = some (reply, x') → Reclaimed c x' ∧ reply.Reclaims c x'

/-- A `reap` has nothing to give back. -/
def Step.Idle (x : Reserve σ) (step : Step) : Prop := step = .reap → listEmpty x.world.state.links .free = true

instance (x : Reserve σ) (step : Step) : Decidable (step.Idle x) := inferInstanceAs (Decidable (_ → _))

end Reserves

section Tallies

variable {σ : Type} {limit : Nat} {c : Config} {supply : Supply σ} {s s' : State} {m m' : σ}
  {backing slab left i : Nat}

theorem Tally.same {number : Nat} {stats stats' : Stats} (tally : Tally c number stats) (slabs : stats'.slabs = stats.slabs)
    (buffers : stats'.buffers = stats.buffers) (allocation : stats'.allocation = stats.allocation) :
    Tally c number stats' :=
  ⟨slabs.trans tally.slabs, buffers.trans tally.buffers, allocation.trans tally.allocation⟩

theorem Tally.grown {number : Nat} {stats stats' : Stats} (tally : Tally c number stats)
    (slabs : stats'.slabs = stats.slabs + 1)
    (buffers : stats'.buffers = stats.buffers + UInt64.ofNat c.buffers)
    (allocation : stats'.allocation = stats.allocation + UInt64.ofNat c.allocSize) : Tally c (number + 1) stats' := by
  refine ⟨?_, ?_, ?_⟩
  · rw [slabs, tally.slabs, UInt64.ofNat_add]
    rfl
  · rw [buffers, tally.buffers, Nat.succ_mul, UInt64.ofNat_add]
  · rw [allocation, tally.allocation, Nat.succ_mul, UInt64.ofNat_add]

private theorem fillSlab_effect (ran : fillSlab c supply backing slab left i s m = some (true, s', m')) :
    s'.made = s.made ∧ s'.stats = { s.stats with buffers := s.stats.buffers + UInt64.ofNat left } := by
  induction left generalizing i s m with
  | zero =>
    cases ran
    exact ⟨rfl, by simp⟩
  | succ left ih =>
    rw [fillSlab] at ran
    obtain ⟨⟨bufctl, m1⟩, _, ran⟩ := Option.bind_eq_some_iff.mp ran
    cases bufctl with
    | none => cases ran
    | some bufctl =>
      obtain ⟨s1, added, ran⟩ := Option.bind_eq_some_iff.mp ran
      obtain ⟨alike, stats, _⟩ := addBuffer_effect added
      obtain ⟨made', stats'⟩ := ih ran
      refine ⟨made'.trans alike.made, ?_⟩
      rw [stats', stats, UInt64.ofNat_add, UInt64.add_assoc, UInt64.add_comm 1]
      rfl

private theorem slabAlloc_tally (tally : Tally c s.made.length s.stats)
    (ran : slabAlloc limit c supply s m = some (some slab, s', m')) : Tally c s'.made.length s'.stats := by
  unfold slabAlloc at ran
  obtain ⟨⟨answer, m1⟩, _, ran⟩ := Option.bind_eq_some_iff.mp ran
  obtain ⟨m2, _, ran⟩ := Option.bind_eq_some_iff.mp ran
  obtain ⟨backing, _, ran⟩ := Option.bind_eq_some_iff.mp ran
  obtain ⟨⟨own, m3⟩, _, ran⟩ := Option.bind_eq_some_iff.mp ran
  cases own with
  | none =>
    obtain ⟨m4, _, ran⟩ := Option.bind_eq_some_iff.mp ran
    cases ran
  | some own =>
    simp only at ran
    split at ran
    next => cases ran
    next =>
      split at ran
      next => cases (dropBufctls_locked ran).1
      next =>
        obtain ⟨⟨filled, s1, m4⟩, looped, ran⟩ := Option.bind_eq_some_iff.mp ran
        cases filled with
        | false => cases (dropBufctls_locked ran).1
        | true =>
          obtain ⟨links, _, ran⟩ := Option.bind_eq_some_iff.mp ran
          obtain ⟨made, stats⟩ := fillSlab_effect looped
          cases ran
          simp only [List.length_cons, made, stats]
          exact tally.grown rfl rfl rfl

private theorem slabList_tally (tally : Tally c s.made.length s.stats) {list : Link}
    (ran : slabList limit c supply s m = some (some list, s', m')) : Tally c s'.made.length s'.stats := by
  unfold slabList at ran
  split at ran
  next =>
    split at ran
    next =>
      obtain ⟨⟨slab, s1, m1⟩, allocated, ran⟩ := Option.bind_eq_some_iff.mp ran
      cases slab with
      | none => cases ran
      | some slab =>
        have grown := slabAlloc_tally tally allocated
        cases ran
        exact grown.same rfl rfl rfl
    next =>
      cases ran
      exact tally
  next =>
    cases ran
    exact tally

private theorem slabGetObject_effect {object : Option Nat} (ran : slabGetObject limit c s slab = some (object, s')) :
    s'.made = s.made ∧ s'.stats = s.stats := by
  unfold slabGetObject at ran
  split at ran
  next =>
    cases ran
    exact ⟨rfl, rfl⟩
  next =>
    obtain ⟨bufctl, _, ran⟩ := Option.bind_eq_some_iff.mp ran
    obtain ⟨word, _, ran⟩ := Option.bind_eq_some_iff.mp ran
    cases ran
    exact ⟨rfl, rfl⟩

private theorem slabPutObject_effect (s : State) (slab bufctl : Nat) :
    (slabPutObject s slab bufctl).made = s.made ∧ (slabPutObject s slab bufctl).stats = s.stats := by
  unfold slabPutObject
  split <;> exact ⟨rfl, rfl⟩

private theorem getObject_tally (tally : Tally c s.made.length s.stats) {object : Nat}
    (ran : getObject limit c supply s m = some (some object, s', m')) : Tally c s'.made.length s'.stats := by
  unfold getObject at ran
  split at ran
  next => cases ran
  next =>
    obtain ⟨⟨list, s1, m1⟩, chosen, ran⟩ := Option.bind_eq_some_iff.mp ran
    cases list with
    | none => cases ran
    | some list =>
      have locked : Tally c { s with locked := true }.made.length { s with locked := true }.stats := tally
      have grown := slabList_tally locked chosen
      obtain ⟨first, _, ran⟩ := Option.bind_eq_some_iff.mp ran
      obtain ⟨slab, _, ran⟩ := Option.bind_eq_some_iff.mp ran
      obtain ⟨⟨found, s2⟩, taken, ran⟩ := Option.bind_eq_some_iff.mp ran
      obtain ⟨made, stats⟩ := slabGetObject_effect taken
      cases found with
      | none => cases ran
      | some found =>
        obtain ⟨s3, sorted, ran⟩ := Option.bind_eq_some_iff.mp ran
        cases ran
        obtain ⟨links, rfl⟩ := cacheSort_links sorted
        simp only [made, stats]
        exact grown.same rfl rfl rfl

private theorem putObject_tally (tally : Tally c s.made.length s.stats) {ptr : Nat}
    (ran : putObject limit c s ptr = some s') :
    Tally c s'.made.length s'.stats := by
  unfold putObject at ran
  split at ran
  next => cases ran
  next =>
    obtain ⟨found, _, ran⟩ := Option.bind_eq_some_iff.mp ran
    cases found with
    | none =>
      cases ran
      exact tally
    | some bufctl =>
      obtain ⟨slab, _, ran⟩ := Option.bind_eq_some_iff.mp ran
      obtain ⟨s1, sorted, ran⟩ := Option.bind_eq_some_iff.mp ran
      cases ran
      obtain ⟨links, rfl⟩ := cacheSort_links sorted
      simp only [slabPutObject_effect]
      exact tally

end Tallies

section Reclamation

variable {σ : Type} {limit n : Nat} {c : Config} {supply : Supply σ} {x x' : Reserve σ} {reply : Reply} {event : Event}

/-- As long as nothing has been given back, every slab there was remains. -/
structure Pristine (c : Config) (n : Nat) (x : Reserve σ) : Prop where
  remaining : x.remaining = x.world.state.made
  once : x.world.state.made.Nodup
  few : x.world.state.made.length ≤ n
  tally : Tally c x.world.state.made.length x.world.state.stats
  kept : 0 < c.buffers → ∃ g, Kept c x.world.state g x.world.handed
  barren : c.buffers = 0 → Barren x.world

private theorem initial_pristine (m : σ) : Pristine c 0 (.initial m) :=
  ⟨rfl, List.nodup_nil, Nat.le_refl 0, ⟨rfl, by simp [Reserve.initial, World.initial, State.initial], by
    simp [Reserve.initial, World.initial, State.initial]⟩, fun _ => ⟨_, initial_kept⟩, fun _ => ⟨rfl, initial_rings.1, rfl⟩⟩

private theorem Pristine.reclaimed (pristine : Pristine c n x) : Reclaimed c x := by
  obtain ⟨remaining, once, _, tally, kept, barren⟩ := pristine
  rcases Nat.eq_zero_or_pos c.buffers with none | served
  · have empty := (barren none).empty
    refine ⟨fun list shelf => ⟨[], empty list shelf⟩, fun slab => ?_, remaining ▸ once, remaining ▸ tally⟩
    rw [remaining, (barren none).made]
    refine ⟨nofun, ?_⟩
    rintro ⟨list, shelf, xs, ring, inside⟩
    rw [ring.unique (empty list shelf)] at inside
    cases inside
  · obtain ⟨g, kept⟩ := kept served
    have holds := kept.holds
    refine ⟨fun list shelf => ⟨_, holds.shelved.ring list shelf⟩, fun slab => ?_, remaining ▸ once, remaining ▸ tally⟩
    rw [remaining, holds.made]
    exact exists_congr fun list => and_congr_right fun shelf => (holds.on_iff shelf).symm

private theorem grown_take {made made' : List Nat} (grown : made' = made ∨ ∃ slab, made' = slab :: made) :
    made'.take (made'.length - made.length) ++ made = made' := by
  rcases grown with rfl | ⟨slab, rfl⟩
  · simp
  · simp

theorem Pristine.promised (pristine : Pristine c n x) (promised : (Step.call event).Promised c supply x) :
    event.Promised c supply x.world := by
  rwa [Step.Promised, pristine.remaining] at promised

private theorem Pristine.call_barren (pristine : Pristine c n x) (none : c.buffers = 0)
    (promised : event.Promised c supply x.world) (ran : (Step.call event).exec limit c supply x = some (reply, x')) :
    Pristine c (n + 1) x' ∧ reply.Reclaims c x' := by
  obtain ⟨remaining, once, few, tally, _, barren⟩ := pristine
  obtain ⟨⟨answer, w'⟩, called, same⟩ := Option.bind_eq_some_iff.mp ran
  cases same
  obtain ⟨barren', _⟩ := exec_barren none (barren none) promised called
  cases event with
  | put ptr =>
    rw [Event.Promised, (barren none).none] at promised
    cases promised
  | get =>
    obtain ⟨⟨answer', s', m'⟩, got, same⟩ := Option.bind_eq_some_iff.mp called
    cases same
    obtain ⟨_, _, _, _, grows, _⟩ := (barren none).grows promised
    obtain ⟨rfl, made, stats, _, _⟩ := getObject_barren none (barren none).empty grows got
    refine ⟨⟨?_, made ▸ once, by rw [made]; omega, by rw [made, stats]; exact tally,
      fun served => absurd none (Nat.ne_of_gt served), fun _ => barren'⟩, ?_⟩
    · rw [remaining]
      exact grown_take (.inl made)
    · rintro _ ⟨⟩

theorem Pristine.get (pristine : Pristine c n x) (regular : c.Regular) (served : 0 < c.buffers)
    (enough : (n + 2) * c.buffers < limit) (promised : Event.get.Promised c supply x.world)
    (ran : (Step.call .get).exec limit c supply x = some (reply, x')) :
    Pristine c (n + 1) x' ∧ reply.Reclaims c x' := by
  obtain ⟨remaining, once, few, tally, kept, _⟩ := pristine
  obtain ⟨⟨answer, w'⟩, called, same⟩ := Option.bind_eq_some_iff.mp ran
  cases same
  obtain ⟨⟨answer', s', m'⟩, got, same⟩ := Option.bind_eq_some_iff.mp called
  cases same
  obtain ⟨g, kept⟩ := kept served
  have bound := Nat.le_mul_of_pos_right (n + 2) served
  obtain ⟨object, s1, m1, g', slab, bufctl, ran', kept', _, taken, _⟩ :=
    getObject_spec kept regular served promised (show x.world.state.made.length + 1 < limit by omega)
  cases got.symm.trans ran'
  have made := taken.made
  refine ⟨⟨?_, ?_, ?_, getObject_tally tally got, fun _ => ⟨g', kept'⟩,
    fun none => absurd none (Nat.ne_of_gt served)⟩, ?_⟩
  · rw [remaining]
    exact grown_take (made.imp_right fun more => ⟨slab, more.1⟩)
  · rcases made with same | ⟨same, fresh⟩
    · exact same ▸ once
    · exact same ▸ List.nodup_cons.mpr ⟨fresh, once⟩
  · rcases made with same | ⟨same, _⟩
    · simp only [same]
      omega
    · simp only [same, List.length_cons]
      omega
  · rintro _ ⟨⟩
    obtain ⟨owner, member, b, cell, _, rfl⟩ := (kept'.holds.account object).mp List.mem_cons_self
    refine ⟨owner, ?_, (kept'.holds.carved owner member).object_inside regular cell⟩
    rwa [remaining, grown_take (made.imp_right fun more => ⟨slab, more.1⟩)]

theorem Pristine.put {ptr : Nat} (pristine : Pristine c n x) (served : 0 < c.buffers)
    (enough : (n + 2) * c.buffers < limit) (taken : ptr ∈ x.world.handed)
    (ran : (Step.call (.put ptr)).exec limit c supply x = some (reply, x')) :
    Pristine c (n + 1) x' ∧ reply.Reclaims c x' := by
  obtain ⟨remaining, once, few, tally, kept, _⟩ := pristine
  obtain ⟨⟨answer, w'⟩, called, same⟩ := Option.bind_eq_some_iff.mp ran
  cases same
  obtain ⟨s', put, same⟩ := Option.bind_eq_some_iff.mp called
  cases same
  obtain ⟨g, kept⟩ := kept served
  obtain ⟨s1, g', slab, bufctl, ran', kept', back, _⟩ := putObject_spec kept served taken
    (show x.world.state.made.length * c.buffers < limit from
      Nat.lt_of_le_of_lt (Nat.mul_le_mul_right _ (by omega)) enough)
  cases put.symm.trans ran'
  have made := back.made
  refine ⟨⟨?_, made ▸ once, ?_, putObject_tally tally put, fun _ => ⟨g', kept'⟩,
    fun none => absurd none (Nat.ne_of_gt served)⟩, nofun⟩
  · rw [remaining]
    exact grown_take (.inl made)
  · simp only [made]
    omega

/-- A call keeps the account of a cache that has given nothing back. -/
theorem Pristine.call (pristine : Pristine c n x) (regular : c.Regular) (enough : (n + 2) * c.buffers < limit)
    (promised : (Step.call event).Promised c supply x) (ran : (Step.call event).exec limit c supply x = some (reply, x')) :
    Pristine c (n + 1) x' ∧ reply.Reclaims c x' := by
  have promised := pristine.promised promised
  rcases Nat.eq_zero_or_pos c.buffers with none | served
  · exact pristine.call_barren none promised ran
  · cases event with
    | get => exact pristine.get regular served enough promised ran
    | put ptr => exact pristine.put served enough promised ran

private theorem reap_idle (pristine : Pristine c n x) (empty : listEmpty x.world.state.links .free = true)
    (ran : Step.reap.exec limit c supply x = some (reply, x')) :
    Pristine c (n + 1) x' ∧ reply.Reclaims c x' := by
  obtain ⟨⟨given, gone, s', m'⟩, reaped, same⟩ := Option.bind_eq_some_iff.mp ran
  cases same
  unfold reap at reaped
  split at reaped
  next => cases reaped
  next =>
    cases reaped
    obtain ⟨remaining, once, few, tally, kept, barren⟩ := pristine
    refine ⟨⟨by simp [remaining], once, Nat.le_succ_of_le few, tally, kept, barren⟩, ?_⟩
    rintro ⟨⟩

private theorem reap_leaves (accepts : Accepts supply) (pristine : Pristine c n x) (enough : (n + 2) * c.buffers < limit)
    (free : listEmpty x.world.state.links .free = false) : ¬ Step.reap.Behaves limit c supply x := by
  rintro ⟨_, behaves⟩
  rcases Nat.eq_zero_or_pos c.buffers with none | served
  · have empty := (listEmpty_ring ((pristine.barren none).empty .free (by simp))).mpr rfl
    rw [free] at empty
    cases empty
  · obtain ⟨g, kept⟩ := pristine.kept served
    have holds := kept.holds
    have occupied : g.lists .free ≠ [] := by
      intro nothing
      rw [(listEmpty_shelf holds.shelved (by simp)).mpr nothing] at free
      cases free
    have distinct := holds.shelved.nodup (show Link.free ∈ shelves by simp)
    have covered : g.lists .free ⊆ x.world.state.made := fun slab inside => (holds.made slab).mpr ⟨.free, by simp, inside⟩
    have short : (g.lists .free).length < limit := by
      have bound := Nat.le_mul_of_pos_right (n + 2) served
      have some := (List.subperm_of_subset distinct covered).length_le
      have few := pristine.few
      omega
    have buffers : c.buffers < limit :=
      Nat.lt_of_le_of_lt (Nat.le_mul_of_pos_left c.buffers (Nat.succ_pos _)) enough
    obtain ⟨gone, s', m', mapped, ran, shelved⟩ := reap_spec accepts kept occupied short buffers x.world.supply
    have ran' : Step.reap.exec limit c supply x = some (.reaped true,
        ⟨{ x.world with state := s', supply := m' }, x.remaining.filter fun slab => slab ∉ gone⟩) := by
      simp only [Step.exec, ran, Option.bind_eq_bind, Option.bind_some]
    have empty := (behaves _ _ ran').2 rfl
    exact occupied ((listEmpty_shelf shelved (by simp)).mp empty)

end Reclamation

/-- In every run of the calls and of `reap` on a cache of any geometry, the slabs are
reclaimed all the way if and only if no `reap` finds a free slab. -/
theorem reclamation_iff {σ : Type} {supply : Supply σ} (accepts : Accepts supply) (m : σ) (size align : Nat)
    (checkOverflow : Bool) {limit : Nat} {steps : List Step}
    (enough : (steps.length + 2) * (cacheInit size align checkOverflow).buffers < limit)
    (permitted : EachStep (Step.exec limit (cacheInit size align checkOverflow) supply)
      (Step.Promised (cacheInit size align checkOverflow) supply) (.initial m) steps) :
    let c := cacheInit size align checkOverflow
    EachStep (Step.exec limit c supply) (Step.Behaves limit c supply) (.initial m) steps ↔
      EachStep (Step.exec limit c supply) Step.Idle (.initial m) steps := by
  intro c
  have regular : c.Regular := cacheInit_regular size align checkOverflow
  have room : ∀ n, n < steps.length → (n + 2) * c.buffers < limit := fun n bound =>
    Nat.lt_of_le_of_lt (Nat.mul_le_mul_right _ (by omega)) enough
  have start : Pristine c 0 (Reserve.initial m) := initial_pristine m
  have same : ∀ n x (step : Step), n < steps.length → Pristine c n x → step.Promised c supply x →
      (step.Behaves limit c supply x ↔ step.Idle x) := by
    intro n x step bound pristine promised
    cases step with
    | call event =>
      refine ⟨fun _ => nofun, fun _ => ⟨pristine.reclaimed, fun reply x' ran => ?_⟩⟩
      obtain ⟨pristine', reclaims⟩ := pristine.call regular (room n bound) promised ran
      exact ⟨pristine'.reclaimed, reclaims⟩
    | reap =>
      cases free : listEmpty x.world.state.links .free with
      | true =>
        refine ⟨fun _ _ => free, fun _ => ⟨pristine.reclaimed, fun reply x' ran => ?_⟩⟩
        obtain ⟨pristine', reclaims⟩ := reap_idle pristine free ran
        exact ⟨pristine'.reclaimed, reclaims⟩
      | false =>
        refine ⟨fun behaves => absurd behaves (reap_leaves accepts pristine (room n bound) free), fun idle => ?_⟩
        exact absurd (free.symm.trans (idle rfl)) (by simp)
  have kept : ∀ n x (step : Step) reply x', n < steps.length → Pristine c n x → step.Promised c supply x → step.Idle x →
      step.exec limit c supply x = some (reply, x') → Pristine c (n + 1) x' := by
    intro n x step reply x' bound pristine promised idle ran
    cases step with
    | call event => exact (pristine.call regular (room n bound) promised ran).1
    | reap => exact (reap_idle pristine (idle rfl) ran).1
  exact eachStep_iff same kept start (Nat.le_of_eq (Nat.zero_add _)) permitted

private theorem bump_accepts : Accepts bump := ⟨fun _ _ _ => ⟨_, rfl⟩, fun _ _ => ⟨_, rfl⟩, fun _ _ => ⟨_, rfl⟩⟩

def Step.Modest (x : Reserve Nat) : Step → Prop
  | .call event => event.Modest { x.world with state := { x.world.state with made := x.remaining } }
  | .reap => True

instance (x : Reserve Nat) (step : Step) : Decidable (step.Modest x) :=
  match step with
  | .call _ => inferInstanceAs (Decidable (Event.Modest _ _))
  | .reap => inferInstanceAs (Decidable True)

theorem Step.promised_of_modest {x : Reserve Nat} {step : Step} (modest : step.Modest x) :
    step.Promised (cacheInit 2000 0 false) bump x := by
  cases step with
  | call event => exact Cache.promised_of_modest modest
  | reap => trivial

theorem reclamation_iff_witness :
    let c := cacheInit 2000 0 false
    let steps : List Step := [.call .get, .reap, .call (.put 6096)]
    EachStep (Step.exec 11 c bump) (Step.Behaves 11 c bump) (.initial 4096) steps ↔
      EachStep (Step.exec 11 c bump) Step.Idle (.initial 4096) steps := by
  intro c steps
  have each : EachStep (Step.exec 11 c bump) Step.Modest (.initial 4096) steps := by decide +kernel
  exact reclamation_iff bump_accepts 4096 2000 0 false (by decide +kernel) (each.mono fun x step => Step.promised_of_modest)

/-- The one object of a cache is given back, and `reap` leaves its slab on the free list. -/
theorem reap_keeps_slab : ¬ ∀ (supply : Supply Nat), Accepts supply → ∀ (m size align : Nat) (checkOverflow : Bool)
    (limit : Nat) (steps : List Step),
    (steps.length + 2) * (cacheInit size align checkOverflow).buffers < limit →
    EachStep (Step.exec limit (cacheInit size align checkOverflow) supply)
      (Step.Promised (cacheInit size align checkOverflow) supply) (.initial m) steps →
    EachStep (Step.exec limit (cacheInit size align checkOverflow) supply)
      (Step.Behaves limit (cacheInit size align checkOverflow) supply) (.initial m) steps := by
  intro claim
  have each : EachStep (Step.exec 11 (cacheInit 2000 0 false) bump) Step.Modest (.initial 4096)
      [.call .get, .call (.put 6096), .reap] := by decide +kernel
  have behaves := claim bump bump_accepts 4096 2000 0 false 11 _ (by decide +kernel)
    (each.mono fun x step => Step.promised_of_modest)
  rw [eachStep_get (by decide +kernel), eachStep_get (by decide +kernel)] at behaves
  obtain ⟨_, _, ⟨_, reclaims⟩, _⟩ := behaves
  have result : (Step.reap.exec 11 (cacheInit 2000 0 false) bump (((Step.call (.put 6096)).exec 11 (cacheInit 2000 0 false)
      bump (((Step.call .get).exec 11 (cacheInit 2000 0 false) bump (.initial 4096)).get (by decide +kernel)).2).get
      (by decide +kernel)).2).map (fun reached => (reached.1, listEmpty reached.2.world.state.links .free)) =
      some (.reaped true, false) := by decide +kernel
  obtain ⟨⟨reply, x'⟩, ran, same⟩ := Option.map_eq_some_iff.mp result
  obtain ⟨rfl, free⟩ := Prod.mk.inj same
  have empty := (reclaims _ _ ran).2 rfl
  exact absurd (free.symm.trans empty) (by simp)

end Hotarubi.Memory.Cache
