/-! Runs of a system whose moves show some of what they do, and simulations
between two such systems. -/

namespace Hotarubi.Base

variable {ω ω' μ μ' γ : Type}

/-- What a run shows and where it ends; `none` once a move is not possible. -/
def runTrace (step : ω → μ → Option (List γ × ω)) (w : ω) : List μ → Option (List γ × ω)
  | [] => some ([], w)
  | move :: moves => do
    let (shown, w) ← step w move
    let (later, w) ← runTrace step w moves
    some (shown ++ later, w)

variable {step : ω → μ → Option (List γ × ω)} {step' : ω' → μ' → Option (List γ × ω')}

theorem runTrace_cons {w w' : ω} {move : μ} {moves : List μ} {trace : List γ} :
    runTrace step w (move :: moves) = some (trace, w') ↔
      ∃ shown middle later, step w move = some (shown, middle) ∧ runTrace step middle moves = some (later, w') ∧
        trace = shown ++ later := by
  simp only [runTrace, Option.bind_eq_bind, Option.bind_eq_some_iff, Option.some.injEq, Prod.mk.injEq, Prod.exists]
  constructor
  · intro ⟨shown, middle, first, later, last, rest, same, final⟩
    subst same final
    exact ⟨shown, middle, later, first, rest, rfl⟩
  · intro ⟨shown, middle, later, first, rest, same⟩
    exact ⟨shown, middle, first, later, w', rest, same.symm, rfl⟩

theorem runTrace_single {w w' : ω} {move : μ} {shown : List γ} (moved : step w move = some (shown, w')) :
    runTrace step w [move] = some (shown, w') :=
  runTrace_cons.mpr ⟨shown, w', [], moved, rfl, (List.append_nil shown).symm⟩

theorem runTrace_append {w middle w' : ω} {first later : List μ} {shown rest : List γ}
    (before : runTrace step w first = some (shown, middle)) (after : runTrace step middle later = some (rest, w')) :
    runTrace step w (first ++ later) = some (shown ++ rest, w') := by
  induction first generalizing w shown with
  | nil =>
    cases before
    exact after
  | cons move first ih =>
    obtain ⟨now, next, remaining, moved, ran, rfl⟩ := runTrace_cons.mp before
    exact runTrace_cons.mpr ⟨now, next, remaining ++ rest, moved, ih ran, List.append_assoc ..⟩

/-- What every move keeps, every run keeps. -/
theorem runTrace_kept (invariant : ω → Prop)
    (kept : ∀ w move shown w', invariant w → step w move = some (shown, w') → invariant w')
    {w w' : ω} {moves : List μ} {trace : List γ} (start : invariant w)
    (ran : runTrace step w moves = some (trace, w')) : invariant w' := by
  induction moves generalizing w trace with
  | nil =>
    cases ran
    exact start
  | cons move moves ih =>
    obtain ⟨shown, middle, later, moved, rest, _⟩ := runTrace_cons.mp ran
    exact ih (kept w move shown middle start moved) rest

/-- Each thing shown was allowed after what had been shown before it. -/
def EachShown (allowed : List γ → γ → Prop) (trace : List γ) : Prop :=
  ∀ past event later, trace = past ++ event :: later → allowed past event

theorem EachShown.nil {allowed : List γ → γ → Prop} : EachShown allowed [] := by
  intro past event later split
  simp at split

theorem EachShown.single {allowed : List γ → γ → Prop} {event : γ} (permitted : allowed [] event) :
    EachShown allowed [event] := by
  intro past other later split
  cases past with
  | nil =>
    cases split
    exact permitted
  | cons _ _ => simp at split

theorem EachShown.append {allowed : List γ → γ → Prop} {first later : List γ} (before : EachShown allowed first)
    (after : EachShown (fun past => allowed (first ++ past)) later) : EachShown allowed (first ++ later) := by
  intro past event rest split
  obtain ⟨between, rfl, within⟩ | ⟨between, rfl, within⟩ := List.append_eq_append_iff.mp split
  · exact after between event rest within
  · cases between with
    | nil =>
      have permitted := after [] event rest within.symm
      rwa [List.append_nil, List.append_nil] at permitted
    | cons other between =>
      obtain ⟨rfl, _⟩ := List.cons.inj within
      exact before past event between rfl

/-- The rule for what a run shows: under an invariant about the past, moves show only
what is allowed and keep the invariant. -/
theorem runTrace_eachShown (invariant : List γ → ω → Prop) (allowed : List γ → γ → Prop)
    (kept : ∀ past w move shown w', invariant past w → step w move = some (shown, w') →
      invariant (past ++ shown) w' ∧ EachShown (fun before => allowed (past ++ before)) shown)
    {past : List γ} {w w' : ω} {moves : List μ} {trace : List γ} (start : invariant past w)
    (ran : runTrace step w moves = some (trace, w')) :
    invariant (past ++ trace) w' ∧ EachShown (fun before => allowed (past ++ before)) trace := by
  induction moves generalizing past w trace with
  | nil =>
    cases ran
    rw [List.append_nil]
    exact ⟨start, .nil⟩
  | cons move moves ih =>
    obtain ⟨shown, middle, later, moved, rest, rfl⟩ := runTrace_cons.mp ran
    obtain ⟨between, now⟩ := kept past w move shown middle start moved
    obtain ⟨after, remaining⟩ := ih between rest
    refine ⟨?_, now.append ?_⟩
    · rwa [← List.append_assoc]
    · simpa only [List.append_assoc] using remaining

/-- Every run of the first system shows what some run of the second one shows. -/
theorem runTrace_simulated (related : ω → ω' → Prop)
    (simulates : ∀ w o move shown w', related w o → step w move = some (shown, w') →
      ∃ turns o', runTrace step' o turns = some (shown, o') ∧ related w' o')
    {w w' : ω} {o : ω'} {moves : List μ} {trace : List γ} (start : related w o)
    (ran : runTrace step w moves = some (trace, w')) :
    ∃ turns o', runTrace step' o turns = some (trace, o') ∧ related w' o' := by
  induction moves generalizing w o trace with
  | nil =>
    cases ran
    exact ⟨[], o, rfl, start⟩
  | cons move moves ih =>
    obtain ⟨shown, middle, later, moved, rest, rfl⟩ := runTrace_cons.mp ran
    obtain ⟨turns, o1, first, related1⟩ := simulates w o move shown middle start moved
    obtain ⟨others, o', second, related'⟩ := ih related1 rest
    exact ⟨turns ++ others, o', runTrace_append first second, related'⟩

/-- Two systems that answer each permitted move alike show the same on every run of them. -/
theorem runTrace_lockstep {step' : ω' → μ → Option (List γ × ω')} (related : ω → ω' → Prop) (permitted : μ → Prop)
    (each : ∀ w o move, permitted move → related w o → ∃ shown w' o',
      step w move = some (shown, w') ∧ step' o move = some (shown, o') ∧ related w' o')
    {w : ω} {o : ω'} (start : related w o) {moves : List μ} (all : ∀ move ∈ moves, permitted move) :
    ∃ trace w' o', runTrace step w moves = some (trace, w') ∧ runTrace step' o moves = some (trace, o') ∧
      related w' o' := by
  induction moves generalizing w o with
  | nil => exact ⟨[], w, o, rfl, rfl, start⟩
  | cons move moves ih =>
    obtain ⟨here, later⟩ := List.forall_mem_cons.mp all
    obtain ⟨shown, w1, o1, first, first', related1⟩ := each w o move here start
    obtain ⟨trace, w', o', ran, ran', related'⟩ := ih related1 later
    exact ⟨shown ++ trace, w', o', runTrace_cons.mpr ⟨_, _, _, first, ran, rfl⟩,
      runTrace_cons.mpr ⟨_, _, _, first', ran', rfl⟩, related'⟩

end Hotarubi.Base
