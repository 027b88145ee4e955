/-! Runs of a system that takes calls: one step may get stuck or give an answer
and a new state, and an invariant of the permitted steps is one of the runs. -/

namespace Hotarubi.Base

variable {ω ε α : Type}

/-- The state after all calls; `none` once a step is stuck. -/
def runCalls (exec : ω → ε → Option (α × ω)) (w : ω) : List ε → Option ω
  | [] => some w
  | event :: events => do
    let (_, w) ← exec w event
    runCalls exec w events

/-- A condition on the state before each call of a run. -/
def EachStep (exec : ω → ε → Option (α × ω)) (condition : ω → ε → Prop) (w : ω) : List ε → Prop
  | [] => True
  | event :: events => condition w event ∧
    match exec w event with
    | none => True
    | some (_, w') => EachStep exec condition w' events

variable {exec : ω → ε → Option (α × ω)} {condition weaker : ω → ε → Prop}

instance decidableEachStep [∀ w event, Decidable (condition w event)] :
    (w : ω) → (events : List ε) → Decidable (EachStep exec condition w events)
  | _, [] => isTrue trivial
  | w, event :: events =>
    have : Decidable (match exec w event with
        | none => True
        | some (_, w') => EachStep exec condition w' events) :=
      match exec w event with
      | none => isTrue trivial
      | some (_, w') => decidableEachStep w' events
    inferInstanceAs (Decidable (_ ∧ _))

theorem eachStep_cons {w w' : ω} {event : ε} {events : List ε} {answer : α} (ran : exec w event = some (answer, w')) :
    EachStep exec condition w (event :: events) ↔ condition w event ∧ EachStep exec condition w' events := by
  rw [EachStep, ran]

/-- The same with the state after the first call written as the call itself. -/
theorem eachStep_get {w : ω} {event : ε} {events : List ε} (ran : (exec w event).isSome) :
    EachStep exec condition w (event :: events) ↔
      condition w event ∧ EachStep exec condition ((exec w event).get ran).2 events :=
  eachStep_cons (Option.some_get ran).symm

theorem eachStep_single {w : ω} {event : ε} : EachStep exec condition w [event] ↔ condition w event := by
  rw [EachStep, and_iff_left_iff_imp]
  intro _
  cases exec w event with
  | none => trivial
  | some result => trivial

theorem eachStep_and {left right : ω → ε → Prop} {w : ω} {events : List ε} :
    EachStep exec (fun w event => left w event ∧ right w event) w events ↔
      EachStep exec left w events ∧ EachStep exec right w events := by
  induction events generalizing w with
  | nil => exact (and_self_iff).symm
  | cons event events ih =>
    simp only [EachStep]
    cases exec w event with
    | none => simp only [and_true]
    | some result =>
      simp only [ih]
      exact and_and_and_comm

/-- A condition may be weakened by what an invariant of all steps implies. -/
theorem EachStep.mono_kept (invariant : ω → Prop) {w : ω} {events : List ε} (start : invariant w)
    (kept : ∀ w event answer w', invariant w → exec w event = some (answer, w') → invariant w')
    (implies : ∀ w event, invariant w → condition w event → weaker w event)
    (each : EachStep exec condition w events) : EachStep exec weaker w events := by
  induction events generalizing w with
  | nil => trivial
  | cons event events ih =>
    obtain ⟨first, rest⟩ := each
    refine ⟨implies w event start first, ?_⟩
    cases ran : exec w event with
    | none => trivial
    | some result =>
      rw [ran] at rest
      exact ih (kept w event result.1 result.2 start ran) rest

/-- The same for an invariant that only the permitted steps keep. -/
theorem EachStep.mono_reached (invariant : ω → Prop) {w : ω} {events : List ε} (start : invariant w)
    (kept : ∀ w event answer w', invariant w → condition w event → exec w event = some (answer, w') → invariant w')
    (implies : ∀ w event, invariant w → condition w event → weaker w event)
    (each : EachStep exec condition w events) : EachStep exec weaker w events := by
  induction events generalizing w with
  | nil => trivial
  | cons event events ih =>
    obtain ⟨first, rest⟩ := each
    refine ⟨implies w event start first, ?_⟩
    cases ran : exec w event with
    | none => trivial
    | some result =>
      rw [ran] at rest
      exact ih (kept w event result.1 result.2 start first ran) rest

theorem EachStep.mono (implies : ∀ w event, condition w event → weaker w event) {events : List ε} {w : ω}
    (each : EachStep exec condition w events) : EachStep exec weaker w events :=
  each.mono_kept (fun _ => True) trivial (fun _ _ _ _ _ _ => trivial) fun w event _ => implies w event

/-- Two conditions are met by the same runs if they agree under an invariant that
one of them keeps. -/
theorem eachStep_iff {limit : Nat} {invariant : Nat → ω → Prop} {left right : ω → ε → Prop}
    (same : ∀ n w event, n < limit → invariant n w → condition w event → (left w event ↔ right w event))
    (kept : ∀ n w event answer w', n < limit → invariant n w → condition w event → right w event →
      exec w event = some (answer, w') → invariant (n + 1) w')
    {events : List ε} {n : Nat} {w : ω} (start : invariant n w) (enough : n + events.length ≤ limit)
    (permitted : EachStep exec condition w events) : EachStep exec left w events ↔ EachStep exec right w events := by
  induction events generalizing n w with
  | nil => exact Iff.rfl
  | cons event events ih =>
    rw [List.length_cons] at enough
    obtain ⟨allowed, rest⟩ := permitted
    rw [EachStep, EachStep, same n w event (by omega) start allowed]
    apply and_congr_right
    intro holds
    cases ran : exec w event with
    | none => exact Iff.rfl
    | some result =>
      rw [ran] at rest
      exact ih (kept n w event result.1 result.2 (by omega) start allowed holds ran) (by omega) rest

/-- A run of permitted calls is one whose parts are, each from where it starts. -/
theorem eachStep_append {first later : List ε} {w : ω} : EachStep exec condition w (first ++ later) ↔
    EachStep exec condition w first ∧ ∀ w', runCalls exec w first = some w' → EachStep exec condition w' later := by
  induction first generalizing w with
  | nil => simp [EachStep, runCalls]
  | cons event first ih =>
    rw [List.cons_append, EachStep, EachStep, and_assoc]
    apply and_congr_right
    intro _
    cases ran : exec w event with
    | none => simp [runCalls, ran]
    | some result => simpa [runCalls, ran] using ih

theorem runCalls_append {first later : List ε} {w w' : ω} (ran : runCalls exec w first = some w') :
    runCalls exec w (first ++ later) = runCalls exec w' later := by
  induction first generalizing w with
  | nil =>
    cases ran
    rfl
  | cons event first ih =>
    obtain ⟨⟨answer, w1⟩, step, rest⟩ := Option.bind_eq_some_iff.mp ran
    rw [List.cons_append, runCalls, step]
    exact ih rest

/-- An invariant that every permitted call keeps holds along a run of permitted calls,
and the run does not get stuck. -/
theorem run_reaches {limit : Nat} {invariant : Nat → ω → Prop}
    (kept : ∀ n w event, n < limit → invariant n w → condition w event →
      ∃ answer w', exec w event = some (answer, w') ∧ invariant (n + 1) w')
    {events : List ε} {n : Nat} {w : ω} (start : invariant n w)
    (enough : n + events.length ≤ limit) (permitted : EachStep exec condition w events) :
    ∃ w', runCalls exec w events = some w' ∧ invariant (n + events.length) w' := by
  induction events generalizing n w with
  | nil => exact ⟨w, rfl, start⟩
  | cons event events ih =>
    rw [List.length_cons] at enough ⊢
    obtain ⟨answer, w1, ran, start1⟩ := kept n w event (by omega) start permitted.1
    have rest := permitted.2
    rw [ran] at rest
    obtain ⟨w', reached, invariant'⟩ := ih start1 (by omega) rest
    refine ⟨w', ?_, ?_⟩
    · rw [runCalls, ran]
      exact reached
    · rwa [show n + (events.length + 1) = n + 1 + events.length by omega]

/-- The same with a call to come. -/
theorem run_total {limit : Nat} {invariant : Nat → ω → Prop}
    (kept : ∀ n w event, n < limit → invariant n w → condition w event →
      ∃ answer w', exec w event = some (answer, w') ∧ invariant (n + 1) w')
    {events : List ε} {n : Nat} {w : ω} {last : ε} (start : invariant n w)
    (enough : n + events.length ≤ limit) (permitted : EachStep exec condition w (events ++ [last])) :
    ∃ w', runCalls exec w events = some w' ∧ invariant (n + events.length) w' ∧ condition w' last := by
  obtain ⟨before, after⟩ := eachStep_append.mp permitted
  obtain ⟨w', reached, invariant'⟩ := run_reaches kept start enough before
  exact ⟨w', reached, invariant', (after w' reached).1⟩

/-- An invariant of calls that may get stuck. -/
theorem run_keeps {invariant : ω → Prop}
    (kept : ∀ w event answer w', invariant w → condition w event → exec w event = some (answer, w') → invariant w')
    {events : List ε} {w w' : ω} (start : invariant w) (permitted : EachStep exec condition w events)
    (reached : runCalls exec w events = some w') : invariant w' := by
  induction events generalizing w with
  | nil =>
    cases reached
    exact start
  | cons event events ih =>
    have rest := permitted.2
    cases ran : exec w event with
    | none => simp [runCalls, ran] at reached
    | some result =>
      rw [ran] at rest
      rw [runCalls, ran] at reached
      exact ih (kept w event result.1 result.2 start permitted.1 ran) rest reached

/-- An invariant that counts the calls, which may get stuck. -/
theorem run_counts {limit : Nat} {invariant : Nat → ω → Prop}
    (kept : ∀ n w event answer w', n < limit → invariant n w → condition w event → exec w event = some (answer, w') →
      invariant (n + 1) w')
    {events : List ε} {n : Nat} {w w' : ω} (start : invariant n w) (enough : n + events.length ≤ limit)
    (permitted : EachStep exec condition w events) (reached : runCalls exec w events = some w') :
    invariant (n + events.length) w' := by
  induction events generalizing n w with
  | nil =>
    cases reached
    exact start
  | cons event events ih =>
    rw [List.length_cons] at enough ⊢
    have rest := permitted.2
    cases ran : exec w event with
    | none => simp [runCalls, ran] at reached
    | some result =>
      rw [ran] at rest
      rw [runCalls, ran] at reached
      have next := kept n w event result.1 result.2 (by omega) start permitted.1 ran
      have later := ih next (by omega) rest reached
      rwa [Nat.add_right_comm] at later

/-- The same with a call to come. -/
theorem run_kept {invariant : ω → Prop}
    (kept : ∀ w event answer w', invariant w → condition w event → exec w event = some (answer, w') → invariant w')
    {events : List ε} {w w' : ω} {last : ε} (start : invariant w)
    (permitted : EachStep exec condition w (events ++ [last])) (reached : runCalls exec w events = some w') :
    invariant w' ∧ condition w' last := by
  obtain ⟨before, after⟩ := eachStep_append.mp permitted
  exact ⟨run_keeps kept start before reached, (after w' reached).1⟩

/-- A loop of steps that may get stuck gets through exactly when every item passes a
test whose outcome the earlier steps do not change. -/
theorem foldlM_isSome_iff {step : ω → ε → Option ω} {invariant : ω → Prop} {passes : ε → Prop}
    (tested : ∀ w event, invariant w → ((step w event).isSome ↔ passes event))
    (kept : ∀ w event w', invariant w → step w event = some w' → invariant w')
    {events : List ε} {w : ω} (start : invariant w) :
    (events.foldlM step w).isSome ↔ ∀ event ∈ events, passes event := by
  induction events generalizing w with
  | nil => simp
  | cons event events ih =>
    have first := tested w event start
    rw [List.foldlM_cons, List.forall_mem_cons, ← first]
    cases ran : step w event with
    | none => simp
    | some w' => simpa using ih (kept w event w' start ran)

/-- An invariant of the steps holds after the loop. -/
theorem foldlM_kept {step : ω → ε → Option ω} {invariant : ω → Prop}
    (kept : ∀ w event w', invariant w → step w event = some w' → invariant w')
    {events : List ε} {w w' : ω} (start : invariant w) (done : events.foldlM step w = some w') : invariant w' := by
  induction events generalizing w with
  | nil =>
    cases done
    exact start
  | cons event events ih =>
    rw [List.foldlM_cons] at done
    obtain ⟨next, ran, rest⟩ := Option.bind_eq_some_iff.mp done
    exact ih (kept w event next start ran) rest

section Edits

universe u v

variable {σ : Type u} {ι : Type v}

/-- A condition on each call of a run and the abstract state that it meets. -/
def EachEdit (apply : σ → ι → σ) (condition : σ → ι → Prop) (s : σ) : List ι → Prop
  | [] => True
  | call :: calls => condition s call ∧ EachEdit apply condition (apply s call) calls

/-- What holds before any call of a run and at its end. -/
theorem forall_prefix_cons {holds : List ι → Prop} {call : ι} {calls : List ι} :
    (∀ before, before <+: call :: calls → holds before) ↔
      holds [] ∧ ∀ before, before <+: calls → holds (call :: before) := by
  refine ⟨fun all => ⟨all [] List.nil_prefix, fun before part => all _ (List.cons_prefix_cons.mpr ⟨rfl, part⟩)⟩, ?_⟩
  intro ⟨start, rest⟩ before part
  rcases List.prefix_cons_iff.mp part with rfl | ⟨later, rfl, within⟩
  · exact start
  · exact rest later within

end Edits

/-- Where each step either replaces what is looked at or leaves it, the last replacing step decides. -/
theorem foldl_last {β : Type} (look : ω → β) {step : ω → ε → ω} (write : ε → Option β)
    (each : ∀ w event, look (step w event) = (write event).getD (look w)) (events : List ε) (w : ω) :
    look (events.foldl step w) = (events.filterMap write).getLast?.getD (look w) := by
  induction events generalizing w with
  | nil => rfl
  | cons event events ih =>
    rw [List.foldl_cons, ih, each, List.filterMap_cons]
    cases write event with
    | none => rfl
    | some value =>
      rw [List.getLast?_cons]
      rfl

/-- Where each call either replaces what is looked at or leaves it, a run ends with what
the last replacing call has put there. -/
theorem runCalls_last {β : Type} (invariant : ω → Prop) (look : ω → β) (write : ε → Option β)
    (each : ∀ w event answer w', invariant w → exec w event = some (answer, w') →
      invariant w' ∧ look w' = (write event).getD (look w))
    {events : List ε} {w w' : ω} (start : invariant w) (ran : runCalls exec w events = some w') :
    invariant w' ∧ look w' = (events.filterMap write).getLast?.getD (look w) := by
  induction events generalizing w with
  | nil =>
    cases ran
    exact ⟨start, rfl⟩
  | cons event events ih =>
    cases first : exec w event with
    | none => simp [runCalls, first] at ran
    | some result =>
      obtain ⟨answer, middle⟩ := result
      simp only [runCalls, first, Option.bind_eq_bind, Option.bind_some] at ran
      obtain ⟨between, now⟩ := each w event answer middle start first
      obtain ⟨after, last⟩ := ih between ran
      refine ⟨after, ?_⟩
      rw [last, now, List.filterMap_cons]
      cases write event with
      | none => rfl
      | some value =>
        rw [List.getLast?_cons]
        rfl

end Hotarubi.Base
