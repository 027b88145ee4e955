import Hotarubi.Proofs.PhysmmInterleaving

/-! Processors that call the page allocator at the same time. Who holds a page is
read off what the calls were given and what they answered. -/

namespace Hotarubi.Memory.Physmm
open Base

variable {τ : Type}

/-- The call as an event of its caller; pages are handed out one at a time here. -/
def Call.event (thread : τ) : Call → Option (Event τ)
  | .allocPage flags => some (.alloc thread flags)
  | .allocPageRange _ _ => none
  | .freePage page => some (.free thread page)
  | .freePageRange page count => some (.freeRange thread page count)

private theorem Call.event_eq {thread : τ} {call : Call} {event : Event τ} (named : call.event thread = some event) :
    event.call = call ∧ event.client = thread := by
  cases call with
  | allocPage flags =>
    cases named
    exact ⟨rfl, rfl⟩
  | allocPageRange count flags => cases named
  | freePage page =>
    cases named
    exact ⟨rfl, rfl⟩
  | freePageRange page count =>
    cases named
    exact ⟨rfl, rfl⟩

/-- The page of a pointer that was handed out. -/
def grantedPage (m : State) (ptr : UInt64) : Nat := ((ptr - m.memoryMapBase) / pageSize).toNat

/-- A caller holds a page from the return of the call that granted it to the entry
of the call that frees it. -/
def see (m : State) (held : Nat → Option τ) : Shown τ Call (Option UInt64) → Nat → Option τ
  | .call thread call, i =>
    match call.event thread with
    | some event => if event.frees m i then none else held i
    | none => held i
  | .ret _ none, i => held i
  | .ret thread (some ptr), i => if grantedPage m ptr = i then some thread else held i

/-- Callers free only pages they hold. -/
def Respects (m : State) : (Nat → Option τ) → List (Shown τ Call (Option UInt64)) → Prop
  | _, [] => True
  | held, .call thread call :: later =>
    (∃ event, call.event thread = some event ∧ ∀ i, event.frees m i → held i = some thread) ∧
      Respects m (see m held (.call thread call)) later
  | held, .ret thread answer :: later => Respects m (see m held (.ret thread answer)) later

/-- Every page a call returns is a page of the map, not page 0, that was free at the
start and that nobody holds. -/
def Exclusive (m : State) : (Nat → Option τ) → List (Shown τ Call (Option UInt64)) → Prop
  | _, [] => True
  | held, .call thread call :: later => Exclusive m (see m held (.call thread call)) later
  | held, .ret thread none :: later => Exclusive m (see m held (.ret thread none)) later
  | held, .ret thread (some ptr) :: later =>
    (0 < grantedPage m ptr ∧ grantedPage m ptr < m.mapBits ∧ m.used (grantedPage m ptr) = false ∧
        held (grantedPage m ptr) = none) ∧
      Exclusive m (see m held (.ret thread (some ptr))) later

private theorem frees_congr {m after : State} (same : SameLayout m after) (event : Event τ) (i : Nat) :
    event.frees after i ↔ event.frees m i := by
  have base : pageOf after = pageOf m := by
    funext ptr
    simp only [pageOf, dropOffset, same.base]
  cases event with
  | alloc thread flags => exact Iff.rfl
  | free thread page => simp only [Event.frees, base]
  | freeRange thread page count => simp only [Event.frees, base]

variable [DecidableEq τ]

/-- The object's calls against the ghost map: a page of a call under way belongs to its
caller, though the caller does not hold it. -/
structure Tenancy (m : State) (held : Nat → Option τ) (o : Object τ Call State (Option UInt64)) (world : World τ) :
    Prop where
  map : world.map = o.data
  valid : world.Valid
  layout : SameLayout m o.data
  kept : ∀ i, m.used i = true → o.data.used i = true ∧ world.held i = none
  covers : ∀ i thread, held i = some thread → world.held i = some thread
  called : ∀ thread call, o.sessions thread = .called call → ∃ event, call.event thread = some event ∧
    ∀ i, event.frees m i → world.held i = some thread ∧ held i = none
  done : ∀ thread call ptr, o.sessions thread = .done call (some ptr) →
    (0 < grantedPage m ptr ∧ grantedPage m ptr < m.mapBits ∧ m.used (grantedPage m ptr) = false ∧
        held (grantedPage m ptr) = none) ∧
      world.held (grantedPage m ptr) = some thread

namespace Tenancy
variable {m : State} {held : Nat → Option τ} {o o' : Object τ Call State (Option UInt64)} {world : World τ} {thread : τ}

omit [DecidableEq τ] in
theorem start (sound : m.Sound) (first : m.used 0 = true) :
    Tenancy m (fun _ : Nat => (none : Option τ)) (Object.start m) ⟨m, fun _ => none⟩ where
  map := rfl
  valid := World.start_valid sound first
  layout := .refl m
  kept _ used := ⟨used, rfl⟩
  covers _ _ none' := by cases none'
  called _ _ no := by cases no
  done _ _ _ no := by cases no

theorem call (tenancy : Tenancy m held o world) {call : Call} {event : Event τ} (named : call.event thread = some event)
    (mine : ∀ i, event.frees m i → held i = some thread) :
    Tenancy m (see m held (.call thread call)) (o.set thread (.called call)) world := by
  have seen (i : Nat) : see m held (.call thread call) i = if event.frees m i then none else held i := by
    rw [see, named]
  constructor
  case map => exact tenancy.map
  case valid => exact tenancy.valid
  case layout => exact tenancy.layout
  case kept => exact tenancy.kept
  case covers =>
    intro i other holds
    rw [seen] at holds
    split at holds
    next => cases holds
    next => exact tenancy.covers i other holds
  case called =>
    intro other call' here
    by_cases same : other = thread
    · subst same
      rw [Object.set_self] at here
      cases here
      refine ⟨event, named, fun i freed => ⟨tenancy.covers i other (mine i freed), ?_⟩⟩
      rw [seen, if_pos freed]
    · rw [Object.set_other same] at here
      obtain ⟨event', named', mine'⟩ := tenancy.called other call' here
      refine ⟨event', named', fun i freed => ⟨(mine' i freed).1, ?_⟩⟩
      rw [seen, (mine' i freed).2, ite_self]
  case done =>
    intro other call' ptr here
    by_cases same : other = thread
    · subst same
      rw [Object.set_self] at here
      cases here
    · rw [Object.set_other same] at here
      obtain ⟨⟨positive, inside, fresh, free⟩, owned⟩ := tenancy.done other call' ptr here
      refine ⟨⟨positive, inside, fresh, ?_⟩, owned⟩
      rw [seen, free, ite_self]

omit [DecidableEq τ] in
private theorem granted_unheld (tenancy : Tenancy m held o world) {event : Event τ} {page : Nat}
    (granted : event.grants world.map = some page) : world.held page = none := by
  cases owner : world.held page with
  | none => rfl
  | some other =>
    have used := (tenancy.valid.held page other owner).2
    rw [(World.grants_cases tenancy.valid granted).2.2.1] at used
    cases used

private theorem next_kept (tenancy : Tenancy m held o world) {event : Event τ} {i : Nat} {other : τ}
    (owned : world.held i = some other) (kept : other = event.client → ¬ event.frees world.map i) :
    (world.next event).held i = some other := by
  have ungranted : event.grants world.map ≠ some i := by
    intro granted
    rw [tenancy.granted_unheld granted] at owned
    cases owned
  have unfreed : ¬ (event.frees world.map i ∧ world.held i = some event.client) := by
    intro both
    rw [both.2, Option.some.injEq] at owned
    exact kept owned.symm both.1
  rw [World.next]
  dsimp only
  rw [if_neg ungranted, if_neg unfreed, owned]

private theorem next_reserved (tenancy : Tenancy m held o world) {event : Event τ} (allowed : world.Allowed event) {i : Nat}
    (used : m.used i = true) : (event.call.exec o.data).2.used i = true ∧ (world.next event).held i = none := by
  obtain ⟨inUse, unheld⟩ := tenancy.kept i used
  rw [← tenancy.map] at inUse ⊢
  have ungranted : event.grants world.map ≠ some i := by
    intro granted
    rw [(World.grants_cases tenancy.valid granted).2.2.1] at inUse
    cases inUse
  have unfreed : ¬ event.frees world.map i := by
    intro freed
    rw [allowed i freed] at unheld
    cases unheld
  constructor
  · exact (World.next_used tenancy.valid (not_or.mpr ⟨ungranted, unfreed⟩)).trans inUse
  · rw [World.next]
    dsimp only
    rw [if_neg ungranted, if_neg fun both => unfreed both.1, unheld]

/-- The effect of a call, at the moment it is taken. -/
theorem fire (tenancy : Tenancy m held o world) {call : Call} (here : o.sessions thread = .called call) :
    ∃ world', Tenancy m held
      { o.set thread (.done call (call.exec o.data).1) with data := (call.exec o.data).2 } world' := by
  obtain ⟨event, named, mine⟩ := tenancy.called thread call here
  obtain ⟨rfl, rfl⟩ := Call.event_eq named
  have frees (i : Nat) : event.frees world.map i ↔ event.frees m i := by
    rw [tenancy.map]
    exact frees_congr tenancy.layout event i
  have allowed : world.Allowed event := fun i freed => (mine i ((frees i).mp freed)).1
  have others {i : Nat} {other : τ} (different : other ≠ event.client) (owned : world.held i = some other) :
      (world.next event).held i = some other :=
    tenancy.next_kept owned fun same => absurd same different
  refine ⟨world.next event, ?_⟩
  constructor
  case map => rw [World.next, tenancy.map]
  case valid => exact World.next_valid tenancy.valid allowed
  case layout => exact tenancy.layout.trans (event.call.exec_layout o.data)
  case kept =>
    intro i used
    exact tenancy.next_reserved allowed used
  case covers =>
    intro i other holds
    apply tenancy.next_kept (tenancy.covers i other holds)
    intro _ freed
    rw [(mine i ((frees i).mp freed)).2] at holds
    cases holds
  case called =>
    intro other call' here'
    by_cases same : other = event.client
    · rw [same, Object.set_self] at here'
      cases here'
    · rw [Object.set_other same] at here'
      obtain ⟨event', named', mine'⟩ := tenancy.called other call' here'
      exact ⟨event', named', fun i freed => ⟨others same (mine' i freed).1, (mine' i freed).2⟩⟩
  case done =>
    intro other call' ptr here'
    by_cases same : other = event.client
    · rw [same, Object.set_self, Session.done.injEq] at here'
      have granted : event.grants world.map = some (grantedPage m ptr) := by
        rw [Event.grants, tenancy.map, here'.2, grantedPage, tenancy.layout.base]
        rfl
      obtain ⟨positive, inside, free, _⟩ := World.grants_cases tenancy.valid granted
      have unheld := tenancy.granted_unheld granted
      refine ⟨⟨positive, ?_, ?_, ?_⟩, ?_⟩
      · rwa [tenancy.map, tenancy.layout.mapBits] at inside
      · rw [← Bool.not_eq_true]
        intro used
        rw [tenancy.map, (tenancy.kept _ used).1] at free
        cases free
      · cases holder : held (grantedPage m ptr) with
        | none => rfl
        | some owner =>
          rw [tenancy.covers _ owner holder] at unheld
          cases unheld
      · rw [World.next]
        dsimp only
        rw [if_pos granted, same]
    · rw [Object.set_other same] at here'
      obtain ⟨page, owned⟩ := tenancy.done other call' ptr here'
      exact ⟨page, others same owned⟩

/-- The return of a call, which passes the page on to the caller. -/
theorem ret (tenancy : Tenancy m held o world) {call : Call} {answer : Option UInt64}
    (here : o.sessions thread = .done call answer) :
    Tenancy m (see m held (.ret thread answer)) (o.set thread .idle) world := by
  have owned (ptr : UInt64) (some' : answer = some ptr) : world.held (grantedPage m ptr) = some thread :=
    (tenancy.done thread call ptr (by rw [here, some'])).2
  have unseen {i : Nat} {other : τ} (different : other ≠ thread) (claimed : world.held i = some other)
    (free : held i = none) :
      see m held (.ret thread answer) i = none := by
    cases answer with
    | none => exact free
    | some ptr =>
      rw [see, if_neg, free]
      rintro rfl
      rw [owned ptr rfl, Option.some.injEq] at claimed
      exact different claimed.symm
  constructor
  case map => exact tenancy.map
  case valid => exact tenancy.valid
  case layout => exact tenancy.layout
  case kept => exact tenancy.kept
  case covers =>
    intro i other holds
    cases answer with
    | none => exact tenancy.covers i other holds
    | some ptr =>
      rw [see] at holds
      split at holds
      next same =>
        cases holds
        rw [← same]
        exact owned ptr rfl
      next => exact tenancy.covers i other holds
  case called =>
    intro other call' here'
    by_cases same : other = thread
    · rw [same, Object.set_self] at here'
      cases here'
    · rw [Object.set_other same] at here'
      obtain ⟨event, named, mine⟩ := tenancy.called other call' here'
      exact ⟨event, named, fun i freed => ⟨(mine i freed).1, unseen same (mine i freed).1 (mine i freed).2⟩⟩
  case done =>
    intro other call' ptr here'
    by_cases same : other = thread
    · rw [same, Object.set_self] at here'
      cases here'
    · rw [Object.set_other same] at here'
      obtain ⟨⟨positive, inside, fresh, free⟩, claimed⟩ := tenancy.done other call' ptr here'
      exact ⟨⟨positive, inside, fresh, unseen same claimed free⟩, claimed⟩

/-- Along a run of the object whose callers free only what they hold. -/
theorem run (tenancy : Tenancy m held o world) {turns : List (Turn τ Call)} {trace : List (Shown τ Call (Option UInt64))}
    (ran : runTrace (Object.step Call.exec) o turns = some (trace, o')) (respects : Respects m held trace) :
    Exclusive m held trace ∧ ∃ world', Tenancy m (trace.foldl (see m) held) o' world' := by
  induction turns generalizing held o world trace with
  | nil =>
    cases ran
    exact ⟨trivial, world, tenancy⟩
  | cons turn turns ih =>
    obtain ⟨shown, middle, later, moved, rest, rfl⟩ := runTrace_cons.mp ran
    cases turn with
    | call thread call =>
      obtain ⟨_, rfl, rfl⟩ := Object.step_call moved
      obtain ⟨⟨event, named, mine⟩, respects⟩ := respects
      exact ih (tenancy.call named mine) rest respects
    | fire thread =>
      obtain ⟨call, here, rfl, rfl⟩ := Object.step_fire moved
      obtain ⟨world', tenancy'⟩ := tenancy.fire here
      exact ih tenancy' rest respects
    | ret thread =>
      obtain ⟨call, answer, here, rfl, rfl⟩ := Object.step_ret moved
      have after := ih (tenancy.ret here) rest respects
      cases answer with
      | none => exact after
      | some ptr => exact ⟨⟨(tenancy.done thread call ptr here).1, after.1⟩, after.2⟩

end Tenancy

/-- Processors that free only pages they hold are never given a page that another one
holds, whatever the schedule; while the lock is free, the map shows every page held as
used and its counter is right. -/
theorem processors_share_no_page {m : State} (sound : m.Sound) (first : m.used 0 = true) {moves : List (Move τ Call)}
    {trace : List (Shown τ Call (Option UInt64))} {w : Threads τ State (Option UInt64)}
    (ran : runTrace (Threads.step Call.code) (Threads.start m) moves = some (trace, w))
    (respects : Respects m (fun _ => none) trace) :
    Exclusive m (fun _ => none) trace ∧
      (w.taken = false → (∀ i thread, trace.foldl (see m) (fun _ => none) i = some thread → i < m.mapBits ∧
        w.data.used i = true) ∧
        (m.Accounted → w.data.Accounted)) := by
  obtain ⟨turns, o, stage, shown, refines⟩ := interleaving_refines ran
  obtain ⟨exclusive, world, tenancy⟩ := (Tenancy.start sound first).run shown respects
  refine ⟨exclusive, fun free => ?_⟩
  rw [← refines.free free]
  constructor
  · intro i thread holds
    have owned := tenancy.valid.held i thread (tenancy.covers i thread holds)
    rwa [tenancy.map, tenancy.layout.mapBits] at owned
  · intro balanced
    exact Object.run_kept (fun call _ => call.exec_accounted _) balanced shown

theorem processors_share_no_page_witness :
    let trace := [.call true (.allocPage kActive), .call false (.allocPage kLocked), .ret true (some 0x1000),
      .call true (.freePage 0x1000), .ret false (some 0x2000)]
    ∃ w, runTrace (Threads.step Call.code) (Threads.start twoPages) twoProcessors = some (trace, w) ∧
      Exclusive twoPages (fun _ => none) trace ∧
        (w.taken = false → (∀ i thread, trace.foldl (see twoPages) (fun _ => none) i = some thread →
          i < twoPages.mapBits ∧ w.data.used i = true) ∧ (twoPages.Accounted → w.data.Accounted)) := by
  intro trace
  have shown : (runTrace (Threads.step Call.code) (Threads.start twoPages) twoProcessors).map Prod.fst = some trace := by
    decide +kernel
  obtain ⟨⟨_, w⟩, ran, rfl⟩ := Option.map_eq_some_iff.mp shown
  refine ⟨w, ran, processors_share_no_page (.inr (by decide +kernel)) (by decide +kernel) ran ?_⟩
  refine ⟨⟨_, rfl, nofun⟩, ⟨_, rfl, nofun⟩, ⟨_, rfl, ?_⟩, trivial⟩
  intro i freed
  simp only [Event.frees] at freed
  subst freed
  decide +kernel

end Hotarubi.Memory.Physmm
