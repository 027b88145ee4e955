import Hotarubi.Lib.Guards

/-! Initialisers of local statics, in every interleaving of the threads. `guard_mutex`
is held from an acquire that answers 1 to the release, so initialisers run one at a
time and each one once. The same mutex stops everybody for good when an initialiser
comes to another guard. -/

namespace Hotarubi.Lib.Guard
open Hotarubi.Base

variable {τ γ : Type}

/-- Where a thread can be, by whether it holds `guard_mutex`. -/
inductive Stands (guard : γ → UInt64) : Bool → Point γ → List γ → Prop
  | out : Stands guard false .out []
  | spin (g : γ) : Stands guard false (.spin g) []
  | look (g : γ) : Stands guard true (.look g) []
  | leave (g : γ) (set : guard g = 2) : Stands guard true (.leave g) []
  | mark (g : γ) (unset : guard g ≠ 2) : Stands guard true (.mark g) []
  | inside (g : γ) : Stands guard true .out [g]
  | nested (h g : γ) : Stands guard true (.spin h) [g]
  | finish (g : γ) : Stands guard true (.finish g) []
  | drop : Stands guard true .drop []

/-- A thread without the mutex does not rely on any guard. -/
theorem Stands.without {guard guard' : γ → UInt64} {point : Point γ} {within : List γ}
    (stands : Stands guard false point within) : Stands guard' false point within := by
  cases stands with
  | out => exact .out
  | spin g => exact .spin g

section Stands
variable {guard : γ → UInt64} {mine : Bool} {point : Point γ} {within : List γ} {g : γ}

/-- A thread that is past the spinning has the mutex, and is in no initialiser. -/
theorem Stands.past (stands : Stands guard mine point within) (out : point ≠ .out) (spin : ∀ g, point ≠ .spin g) :
    mine = true ∧ within = [] := by
  cases stands with
  | out => exact absurd rfl out
  | spin g => exact absurd rfl (spin g)
  | inside g => exact absurd rfl out
  | nested h g => exact absurd rfl (spin h)
  | look g => exact ⟨rfl, rfl⟩
  | leave g set => exact ⟨rfl, rfl⟩
  | mark g unset => exact ⟨rfl, rfl⟩
  | finish g => exact ⟨rfl, rfl⟩
  | drop => exact ⟨rfl, rfl⟩

theorem Stands.idle (stands : Stands guard false point within) : within = [] := by
  cases stands with
  | out => rfl
  | spin g => rfl

theorem Stands.waiting (stands : Stands guard false point within) : point = .out ∨ ∃ g, point = .spin g := by
  cases stands with
  | out => exact .inl rfl
  | spin g => exact .inr ⟨g, rfl⟩

private theorem Stands.nested_within (stands : Stands guard true (.spin g) within) : within ≠ [] := by
  cases stands with
  | nested _ h => exact List.cons_ne_nil h []

theorem Stands.set (stands : Stands guard mine (.leave g) within) : guard g = 2 := by
  cases stands with
  | leave _ set => exact set

private theorem Stands.unset (stands : Stands guard mine (.mark g) within) : guard g ≠ 2 := by
  cases stands with
  | mark _ unset => exact unset

end Stands

variable [DecidableEq τ]

/-- At most one thread holds the mutex. -/
structure Held (w : Guards τ γ) (holder : Option τ) : Prop where
  mutex : w.guardMutex = 0 ↔ holder = none
  stands : ∀ t, Stands w.guard (decide (holder = some t)) (w.point t) (w.initialising t)

/-- What the guards and the threads say about the past. -/
structure Records (past : List (Event τ γ)) (w : Guards τ γ) : Prop where
  ended : ∀ t g, .acquired t g true ∈ past → .release t g ∈ past ∨ g ∈ w.initialising t
  started : ∀ t g, g ∈ w.initialising t → .acquired t g true ∈ past ∧ ∀ u, .release u g ∉ past
  set : ∀ g, w.guard g = 2 → ∃ t, .release t g ∈ past
  released : ∀ t g, .release t g ∈ past → w.guard g = 2 ∨ ∃ u, w.point u = .finish g
  finishing : ∀ t g, w.point t = .finish g → .release t g ∈ past

structure Sound (past : List (Event τ γ)) (w : Guards τ γ) : Prop where
  held : ∃ holder, Held w holder
  records : Records past w

private theorem sound_start : Sound [] (Guards.start : Guards τ γ) where
  held := ⟨none, ⟨by simp [Guards.start], fun t => .out⟩⟩
  records := {
    ended := fun t g member => absurd member (List.not_mem_nil)
    started := fun t g member => absurd member (List.not_mem_nil)
    set := fun g two => absurd two (by change (0 : UInt64) ≠ 2; decide)
    released := fun t g member => absurd member (List.not_mem_nil)
    finishing := fun t g => nofun }

/-- Every initialiser that was begun has come to its release. -/
def Finished (past : List (Event τ γ)) : Prop :=
  ∀ t g, .acquired t g true ∈ past → .release t g ∈ past

/-- An object is initialised at most once, by one thread at a time in the whole
system, and is reported as ready only when it is. -/
def Permitted (past : List (Event τ γ)) : Event τ γ → Prop
  | .acquire _ _ => True
  | .acquired _ g true => (∀ t, .acquired t g true ∉ past) ∧ Finished past
  | .acquired _ g false => (∃ t, .release t g ∈ past) ∧ Finished past
  | .release t g => .acquired t g true ∈ past ∧ ∀ u, .release u g ∉ past

namespace Held
variable {w w' : Guards τ γ} {holder holder' : Option τ} {t u : τ}

theorem outside (held : Held w (some t)) (other : u ≠ t) : Stands w.guard false (w.point u) (w.initialising u) := by
  have stands := held.stands u
  rwa [decide_eq_false fun same => other (Option.some.inj same).symm] at stands

theorem inside (held : Held w (some t)) : Stands w.guard true (w.point t) (w.initialising t) := by
  have stands := held.stands t
  rwa [decide_eq_true rfl] at stands

/-- One thread moves. If it did not hold the mutex it leaves the guards as they are. -/
theorem moved (held : Held w holder) (points : ∀ u, u ≠ t → w'.point u = w.point u)
    (within : ∀ u, u ≠ t → w'.initialising u = w.initialising u) (mutex : w'.guardMutex = 0 ↔ holder' = none)
    (others : ∀ u, u ≠ t → (holder' = some u ↔ holder = some u)) (guards : holder ≠ some t → w'.guard = w.guard)
    (own : Stands w'.guard (decide (holder' = some t)) (w'.point t) (w'.initialising t)) : Held w' holder' where
  mutex := mutex
  stands := by
    intro u
    by_cases same : u = t
    · subst same
      exact own
    · rw [points u same, within u same, decide_eq_decide.mpr (others u same)]
      have stands := held.stands u
      by_cases mine : holder = some t
      · rw [mine] at held
        have idle : ¬ holder = some u := by
          rw [mine]
          exact fun equal => same (Option.some.inj equal).symm
        rw [decide_eq_false idle]
        exact (held.outside same).without
      · rw [guards mine]
        exact stands

/-- A thread in an initialiser has the mutex. -/
theorem owner (held : Held w holder) (within : w.initialising t ≠ []) : holder = some t := by
  by_contra idle
  have stands := held.stands t
  rw [decide_eq_false idle] at stands
  exact within stands.idle

/-- A thread that is past the spinning has the mutex, and is in no initialiser. -/
theorem past (held : Held w holder) (out : w.point t ≠ .out) (spin : ∀ g, w.point t ≠ .spin g) :
    holder = some t ∧ w.initialising t = [] := by
  obtain ⟨mine, empty⟩ := (held.stands t).past out spin
  exact ⟨of_decide_eq_true mine, empty⟩

/-- The thread with the mutex moves and keeps it. -/
theorem kept (held : Held w (some t)) (points : ∀ u, u ≠ t → w'.point u = w.point u)
    (within : ∀ u, u ≠ t → w'.initialising u = w.initialising u) (mutex : w'.guardMutex = w.guardMutex)
    (own : Stands w'.guard true (w'.point t) (w'.initialising t)) : Held w' (some t) := by
  refine held.moved points within ?_ (fun _ _ => Iff.rfl) (fun other => absurd rfl other) ?_
  · rw [mutex]
    exact held.mutex
  · rw [decide_eq_true rfl]
    exact own

/-- The thread with the mutex gives it up. -/
theorem given (held : Held w (some t)) (points : ∀ u, u ≠ t → w'.point u = w.point u)
    (within : ∀ u, u ≠ t → w'.initialising u = w.initialising u) (mutex : w'.guardMutex = 0)
    (own : Stands w'.guard false (w'.point t) (w'.initialising t)) : Held w' none := by
  refine held.moved points within ?_ ?_ (fun other => absurd rfl other) own
  · simp [mutex]
  · intro u other
    simp [Ne.symm other]

/-- Nobody else is in an initialiser. -/
theorem empty (held : Held w (some t)) (other : u ≠ t) : w.initialising u = [] :=
  (held.outside other).idle

private theorem not_finishing (held : Held w (some t)) (other : u ≠ t) (g : γ) : w.point u ≠ .finish g := by
  intro finishing
  have stands := held.outside other
  rw [finishing] at stands
  cases stands

end Held

section Steps
variable {past shown : List (Event τ γ)} {w w' : Guards τ γ} {holder : Option τ} {t : τ} {g : γ}

omit [DecidableEq τ] in
private theorem Records.quiet (records : Records past w) (began : ∀ t g, .acquired t g true ∉ shown)
    (ended : ∀ t g, .release t g ∉ shown) (guard : w'.guard = w.guard) (within : w'.initialising = w.initialising)
    (finishing : ∀ u g, w'.point u = .finish g ↔ w.point u = .finish g) : Records (past ++ shown) w' where
  ended := by
    intro t g member
    have earlier := (List.mem_append.mp member).resolve_right (began t g)
    rw [within]
    exact (records.ended t g earlier).imp_left (List.mem_append_left _)
  started := by
    intro t g member
    rw [within] at member
    obtain ⟨begun, open'⟩ := records.started t g member
    refine ⟨List.mem_append_left _ begun, fun u released => ?_⟩
    exact open' u ((List.mem_append.mp released).resolve_right (ended u g))
  set := by
    intro g two
    rw [guard] at two
    obtain ⟨t, released⟩ := records.set g two
    exact ⟨t, List.mem_append_left _ released⟩
  released := by
    intro t g member
    rw [guard]
    obtain two | ⟨u, finish⟩ := records.released t g ((List.mem_append.mp member).resolve_right (ended t g))
    · exact .inl two
    · exact .inr ⟨u, (finishing u g).mpr finish⟩
  finishing := fun t g finish => List.mem_append_left _ (records.finishing t g ((finishing t g).mp finish))

private theorem Records.finished (records : Records past w) (held : Held w (some t)) (free : w.initialising t = []) :
    Finished past := by
  intro u g begun
  refine (records.ended u g begun).resolve_right fun member => ?_
  by_cases same : u = t
  · subst same
    rw [free] at member
    cases member
  · rw [held.empty same] at member
    cases member

private theorem Records.released_two (records : Records past w) (held : Held w (some t))
    (point : ∀ g, w.point t ≠ .finish g)
    {u : τ} (released : .release u g ∈ past) : w.guard g = 2 := by
  refine (records.released u g released).resolve_right fun ⟨v, finishing⟩ => ?_
  by_cases same : v = t
  · subst same
    exact point g finishing
  · exact held.not_finishing same g finishing

variable [DecidableEq γ]

/-- What a move must give. -/
def Good (past shown : List (Event τ γ)) (w' : Guards τ γ) : Prop :=
  Sound (past ++ shown) w' ∧ EachShown (fun before => Permitted (past ++ before)) shown

omit [DecidableEq γ] in
private theorem goTo_point_of_ne {point : Point γ} {u : τ} (other : u ≠ t) : (w.goTo t point).point u = w.point u :=
  Function.update_of_ne other ..

omit [DecidableEq γ] in
@[simp] theorem goTo_point {point : Point γ} : (w.goTo t point).point t = point :=
  Function.update_self ..

omit [DecidableEq γ] in
private theorem finishing_kept {point : Point γ} (before : ∀ g, w.point t ≠ .finish g) (after : ∀ g, point ≠ .finish g)
    (u : τ) (g : γ) : (w.goTo t point).point u = .finish g ↔ w.point u = .finish g := by
  by_cases same : u = t
  · subst same
    rw [goTo_point]
    exact iff_of_false (after g) (before g)
  · rw [goTo_point_of_ne same]

omit [DecidableEq γ] in
private theorem good_acquire (sound : Sound past w) (here : w.point t = .out) :
    Good past [.acquire t g] (w.goTo t (.spin g)) := by
  obtain ⟨holder, held⟩ := sound.held
  refine ⟨⟨⟨holder, ?_⟩, ?_⟩, .single trivial⟩
  · refine held.moved (fun u other => goTo_point_of_ne other) (fun _ _ => rfl) held.mutex (fun _ _ => Iff.rfl)
      (fun _ => rfl) ?_
    have stands := held.stands t
    rw [here] at stands
    rw [goTo_point]
    change Stands w.guard _ _ (w.initialising t)
    generalize decide (holder = some t) = mine at stands ⊢
    generalize w.initialising t = within at stands ⊢
    cases stands with
    | out => exact .spin g
    | inside h => exact .nested g h
  · exact sound.records.quiet (by simp) (by simp) rfl rfl (finishing_kept (by simp [here]) (by simp))

omit [DecidableEq γ] in
private theorem good_spin (sound : Sound past w) (here : w.point t = .spin g) :
    Good past [] { w.goTo t (if w.guardMutex ≠ 0 then .spin g else .look g) with guardMutex := 1 } := by
  obtain ⟨holder, held⟩ := sound.held
  have records : Records (past ++ []) { w.goTo t (if w.guardMutex ≠ 0 then .spin g else .look g) with guardMutex :=
    1 } := by
    refine sound.records.quiet (by simp) (by simp) rfl rfl (finishing_kept (by simp [here]) ?_)
    intro h
    split <;> exact nofun
  refine ⟨⟨?_, records⟩, .nil⟩
  have stands := held.stands t
  rw [here] at stands
  by_cases free : w.guardMutex = 0
  · obtain rfl := held.mutex.mp free
    refine ⟨some t, held.moved (t := t) (fun u other => goTo_point_of_ne other) (fun _ _ => rfl) ?_ ?_ (fun _ => rfl) ?_⟩
    · simp
    · intro u other
      simp [Ne.symm other]
    · simp only [free, ne_eq, not_true_eq_false, if_false, goTo_point, decide_true]
      change Stands w.guard true _ (w.initialising t)
      generalize w.initialising t = within at stands ⊢
      cases stands with
      | spin => exact .look g
  · refine ⟨holder, held.moved (t := t) (fun u other => goTo_point_of_ne other) (fun _ _ => rfl) ?_
      (fun _ _ => Iff.rfl) (fun _ => rfl) ?_⟩
    · have one : (1 : UInt64) ≠ 0 := by decide
      exact ⟨fun zero => absurd zero one, fun none => absurd (held.mutex.mpr none) free⟩
    · simp only [free, ne_eq, not_false_eq_true, if_true, goTo_point]
      exact stands

omit [DecidableEq γ] in
private theorem good_look (sound : Sound past w) (here : w.point t = .look g) :
    Good past [] (w.goTo t (if w.guard g = 2 then .leave g else .mark g)) := by
  obtain ⟨holder, held⟩ := sound.held
  have records : Records (past ++ []) (w.goTo t (if w.guard g = 2 then .leave g else .mark g)) := by
    refine sound.records.quiet (by simp) (by simp) rfl rfl (finishing_kept (by simp [here]) ?_)
    intro h
    split <;> exact nofun
  refine ⟨⟨⟨holder, ?_⟩, records⟩, .nil⟩
  refine held.moved (fun u other => goTo_point_of_ne other) (fun _ _ => rfl) held.mutex (fun _ _ => Iff.rfl)
    (fun _ => rfl) ?_
  have stands := held.stands t
  rw [here] at stands
  rw [goTo_point]
  change Stands w.guard _ _ (w.initialising t)
  generalize decide (holder = some t) = mine at stands ⊢
  generalize w.initialising t = within at stands ⊢
  cases stands with
  | look =>
    split
    · exact .leave g ‹_›
    · exact .mark g ‹_›

omit [DecidableEq γ] in
private theorem good_leave (sound : Sound past w) (here : w.point t = .leave g) :
    Good past [.acquired t g false] { w.goTo t .out with guardMutex := 0 } := by
  obtain ⟨holder, held⟩ := sound.held
  obtain ⟨rfl, empty⟩ := held.past (t := t) (by simp [here]) (by simp [here])
  have stands := held.inside
  rw [here] at stands
  have two := stands.set
  refine ⟨⟨⟨none, ?_⟩, ?_⟩, .single ?_⟩
  · refine held.given (fun u other => goTo_point_of_ne other) (fun _ _ => rfl) rfl ?_
    rw [goTo_point]
    change Stands w.guard false .out (w.initialising t)
    rw [empty]
    exact .out
  · exact sound.records.quiet (by simp) (by simp) rfl rfl (finishing_kept (by simp [here]) (by simp))
  · rw [List.append_nil]
    exact ⟨sound.records.set g two, sound.records.finished held empty⟩

private theorem good_mark (sound : Sound past w) (here : w.point t = .mark g) :
    Good past [.acquired t g true]
      { w.goTo t .out with
        guard := Function.update w.guard g 1,
        initialising := Function.update w.initialising t (g :: w.initialising t) } := by
  obtain ⟨holder, held⟩ := sound.held
  obtain ⟨rfl, empty⟩ := held.past (t := t) (by simp [here]) (by simp [here])
  have stands := held.inside
  rw [here] at stands
  have unset := stands.unset
  have finished := sound.records.finished held empty
  have never : ∀ u, .release u g ∉ past := by
    intro u released
    exact unset (sound.records.released_two held (by simp [here]) released)
  have now : ∀ u h, h ∈ Function.update w.initialising t (g :: w.initialising t) u ↔ u = t ∧ h = g := by
    intro u h
    by_cases same : u = t
    · subst same
      simp [empty]
    · simp [same, held.empty same]
  refine ⟨⟨⟨some t, ?_⟩, ?_⟩, .single ?_⟩
  · refine held.kept (fun u other => goTo_point_of_ne other) (fun u other => Function.update_of_ne other ..) rfl ?_
    rw [goTo_point]
    simp only [Function.update_self, empty]
    exact .inside g
  · constructor
    case ended =>
      intro u h member
      change _ ∨ h ∈ Function.update w.initialising t (g :: w.initialising t) u
      rw [now]
      obtain earlier | same := List.mem_append.mp member
      · exact .inl (List.mem_append_left _ (finished u h earlier))
      · cases List.mem_singleton.mp same
        exact .inr ⟨rfl, rfl⟩
    case started =>
      intro u h member
      obtain ⟨rfl, rfl⟩ := (now u h).mp member
      refine ⟨List.mem_append_right _ (List.mem_singleton.mpr rfl), fun v released => ?_⟩
      obtain earlier | same := List.mem_append.mp released
      · exact never v earlier
      · cases List.mem_singleton.mp same
    case set =>
      intro h two
      by_cases same : h = g
      · subst same
        change Function.update w.guard h 1 h = 2 at two
        rw [Function.update_self] at two
        exact absurd two (by decide)
      · change Function.update w.guard g 1 h = 2 at two
        rw [Function.update_of_ne same] at two
        obtain ⟨u, released⟩ := sound.records.set h two
        exact ⟨u, List.mem_append_left _ released⟩
    case released =>
      intro u h member
      obtain earlier | same := List.mem_append.mp member
      · have other : h ≠ g := by
          intro same
          subst same
          exact never u earlier
        refine .inl ?_
        change Function.update w.guard g 1 h = 2
        rw [Function.update_of_ne other]
        exact sound.records.released_two held (by simp [here]) earlier
      · cases List.mem_singleton.mp same
    case finishing =>
      intro u h finish
      exact List.mem_append_left _ (sound.records.finishing u h
        ((finishing_kept (by simp [here]) (by simp) u h).mp finish))
  · rw [List.append_nil]
    refine ⟨fun u begun => never u (finished u g begun), finished⟩

omit [DecidableEq γ] in
private theorem good_release (sound : Sound past w) {outer : List γ} (here : w.point t = .out)
    (within : w.initialising t = g :: outer) :
    Good past [.release t g]
      { w.goTo t (.finish g) with initialising := Function.update w.initialising t outer } := by
  obtain ⟨holder, held⟩ := sound.held
  obtain rfl : holder = some t := held.owner (by simp [within])
  have stands := held.inside
  rw [here, within] at stands
  obtain rfl : outer = [] := by
    cases stands with
    | inside => rfl
  obtain ⟨begun, open'⟩ := sound.records.started t g (by simp [within])
  have now : ∀ u, Function.update w.initialising t [] u = [] := by
    intro u
    by_cases same : u = t
    · subst same
      exact Function.update_self ..
    · rw [Function.update_of_ne same]
      exact held.empty same
  refine ⟨⟨⟨some t, ?_⟩, ?_⟩, .single ?_⟩
  · refine held.kept (fun u other => goTo_point_of_ne other) (fun u other => Function.update_of_ne other ..) rfl ?_
    rw [goTo_point]
    simp only [Function.update_self]
    exact .finish g
  · constructor
    case ended =>
      intro u h member
      have earlier := (List.mem_append.mp member).resolve_right (by simp)
      obtain released | opened := sound.records.ended u h earlier
      · exact .inl (List.mem_append_left _ released)
      · by_cases same : u = t
        · subst same
          rw [within] at opened
          obtain rfl := List.mem_singleton.mp opened
          exact .inl (List.mem_append_right _ (List.mem_singleton.mpr rfl))
        · rw [held.empty same] at opened
          cases opened
    case started =>
      intro u h member
      change h ∈ Function.update w.initialising t [] u at member
      rw [now] at member
      cases member
    case set =>
      intro h two
      obtain ⟨u, released⟩ := sound.records.set h two
      exact ⟨u, List.mem_append_left _ released⟩
    case released =>
      intro u h member
      obtain earlier | same := List.mem_append.mp member
      · exact .inl (sound.records.released_two held (by simp [here]) earlier)
      · cases List.mem_singleton.mp same
        exact .inr ⟨t, goTo_point⟩
    case finishing =>
      intro u h finish
      by_cases same : u = t
      · subst same
        have equal := goTo_point.symm.trans finish
        cases equal
        exact List.mem_append_right _ (List.mem_singleton.mpr rfl)
      · exact absurd ((goTo_point_of_ne same).symm.trans finish) (held.not_finishing same h)
  · rw [List.append_nil]
    exact ⟨begun, open'⟩

private theorem good_finish (sound : Sound past w) (here : w.point t = .finish g) :
    Good past [] { w.goTo t .drop with guard := Function.update w.guard g 2 } := by
  obtain ⟨holder, held⟩ := sound.held
  obtain ⟨rfl, empty⟩ := held.past (t := t) (by simp [here]) (by simp [here])
  have released := sound.records.finishing t g here
  refine ⟨⟨⟨some t, ?_⟩, ?_⟩, .nil⟩
  · refine held.kept (fun u other => goTo_point_of_ne other) (fun _ _ => rfl) rfl ?_
    rw [goTo_point]
    change Stands _ true .drop (w.initialising t)
    rw [empty]
    exact .drop
  · rw [List.append_nil]
    refine ⟨sound.records.ended, sound.records.started, ?_, ?_, ?_⟩
    · intro h two
      by_cases same : h = g
      · subst same
        exact ⟨t, released⟩
      · change Function.update w.guard g 2 h = 2 at two
        rw [Function.update_of_ne same] at two
        exact sound.records.set h two
    · intro u h member
      refine .inl ?_
      change Function.update w.guard g 2 h = 2
      by_cases same : h = g
      · subst same
        exact Function.update_self ..
      · rw [Function.update_of_ne same]
        refine (sound.records.released u h member).resolve_right fun ⟨v, finishing⟩ => ?_
        by_cases mine : v = t
        · subst mine
          rw [here] at finishing
          exact same (Point.finish.inj finishing).symm
        · exact held.not_finishing mine h finishing
    · intro u h finish
      by_cases same : u = t
      · subst same
        cases goTo_point.symm.trans finish
      · exact absurd ((goTo_point_of_ne same).symm.trans finish) (held.not_finishing same h)

omit [DecidableEq γ] in
private theorem good_drop (sound : Sound past w) (here : w.point t = .drop) :
    Good past [] { w.goTo t .out with guardMutex := 0 } := by
  obtain ⟨holder, held⟩ := sound.held
  obtain ⟨rfl, empty⟩ := held.past (t := t) (by simp [here]) (by simp [here])
  refine ⟨⟨⟨none, ?_⟩, ?_⟩, .nil⟩
  · refine held.given (fun u other => goTo_point_of_ne other) (fun _ _ => rfl) rfl ?_
    rw [goTo_point]
    change Stands w.guard false .out (w.initialising t)
    rw [empty]
    exact .out
  · exact sound.records.quiet (by simp) (by simp) rfl rfl (finishing_kept (by simp [here]) (by simp))

end Steps

variable [DecidableEq γ]

/-- One move of any thread, by where the thread is. -/
theorem Sound.step {past shown : List (Event τ γ)} {w w' : Guards τ γ} {move : Move τ γ} (sound : Sound past w)
    (moved : w.step move = some (shown, w')) : Good past shown w' := by
  cases move with
  | acquire t g =>
    cases here : w.point t with
    | out =>
      simp only [Guards.step, here, Option.some.injEq, Prod.mk.injEq] at moved
      obtain ⟨rfl, rfl⟩ := moved
      exact good_acquire sound here
    | _ => simp [Guards.step, here] at moved
  | release t =>
    cases here : w.point t with
    | out =>
      cases within : w.initialising t with
      | nil => simp [Guards.step, here, within] at moved
      | cons g outer =>
        simp only [Guards.step, here, within, Option.some.injEq, Prod.mk.injEq] at moved
        obtain ⟨rfl, rfl⟩ := moved
        exact good_release sound here within
    | _ => simp [Guards.step, here] at moved
  | go t =>
    cases here : w.point t with
    | out => simp [Guards.step, Guards.go, here] at moved
    | spin g =>
      simp only [Guards.step, Guards.go, here, Option.some.injEq, Prod.mk.injEq] at moved
      obtain ⟨rfl, rfl⟩ := moved
      exact good_spin sound here
    | look g =>
      simp only [Guards.step, Guards.go, here, Option.some.injEq, Prod.mk.injEq] at moved
      obtain ⟨rfl, rfl⟩ := moved
      exact good_look sound here
    | leave g =>
      simp only [Guards.step, Guards.go, here, Option.some.injEq, Prod.mk.injEq] at moved
      obtain ⟨rfl, rfl⟩ := moved
      exact good_leave sound here
    | mark g =>
      simp only [Guards.step, Guards.go, here, Option.some.injEq, Prod.mk.injEq] at moved
      obtain ⟨rfl, rfl⟩ := moved
      exact good_mark sound here
    | finish g =>
      simp only [Guards.step, Guards.go, here, Option.some.injEq, Prod.mk.injEq] at moved
      obtain ⟨rfl, rfl⟩ := moved
      exact good_finish sound here
    | drop =>
      simp only [Guards.step, Guards.go, here, Option.some.injEq, Prod.mk.injEq] at moved
      obtain ⟨rfl, rfl⟩ := moved
      exact good_drop sound here

private theorem sound_run {w : Guards τ γ} {moves : List (Move τ γ)} {trace : List (Event τ γ)}
    (ran : runTrace Guards.step Guards.start moves = some (trace, w)) : Sound trace w ∧ EachShown Permitted trace :=
  runTrace_eachShown Sound Permitted (fun _ _ _ _ _ sound moved => sound.step moved) sound_start ran

/-- Whatever the threads and their schedule: an acquire answers 1 at most once for a
guard, and both answers come only when each initialiser begun before has come to its
release; 0 is answered only for an object whose initialiser has. -/
theorem initialisers_run_once {w : Guards τ γ} {moves : List (Move τ γ)} {trace : List (Event τ γ)}
    (ran : runTrace Guards.step Guards.start moves = some (trace, w)) : EachShown Permitted trace :=
  (sound_run ran).2

/-- Two threads come to one guard. The second one spins while the first one initialises. -/
def twoThreads : List (Move Bool Unit) :=
  [.acquire false (), .acquire true (), .go false, .go true, .go false, .go false, .go true, .release false,
    .go false, .go false, .go true, .go true, .go true]

theorem initialisers_run_once_witness :
    ∃ w, runTrace Guards.step Guards.start twoThreads =
      some ([.acquire false (), .acquire true (), .acquired false () true, .release false (), .acquired true () false], w) ∧
      EachShown Permitted
        [.acquire false (), .acquire true (), .acquired false () true, .release false (), .acquired true () false] := by
  refine ⟨_, rfl, ?_⟩
  exact initialisers_run_once (rfl : runTrace Guards.step Guards.start twoThreads = some (_, _))

/-- An initialiser came to another guard. -/
def Nested (w : Guards τ γ) (t : τ) : Prop :=
  w.initialising t ≠ [] ∧ ∃ g, w.point t = .spin g

def Entering : Event τ γ → Prop
  | .acquire _ _ => True
  | _ => False

/-- Once there is one, every thread can only begin to wait. -/
theorem Nested.step {past shown : List (Event τ γ)} {w w' : Guards τ γ} {t : τ} {move : Move τ γ}
    (nested : Nested w t) (sound : Sound past w) (moved : w.step move = some (shown, w')) :
    Nested w' t ∧ EachShown (fun _ => Entering) shown := by
  obtain ⟨holder, held⟩ := sound.held
  obtain ⟨within, g, here⟩ := nested
  obtain rfl := held.owner within
  have taken : w.guardMutex ≠ 0 := by
    intro free
    cases held.mutex.mp free
  have waiting (u : τ) : w.point u = .out ∧ u ≠ t ∨ ∃ h, w.point u = .spin h := by
    by_cases same : u = t
    · subst same
      exact .inr ⟨g, here⟩
    · exact (held.outside same).waiting.imp_left fun out => ⟨out, same⟩
  cases move with
  | acquire u h =>
    obtain ⟨out, other⟩ | ⟨g', spin⟩ := waiting u
    · simp only [Guards.step, out, Option.some.injEq, Prod.mk.injEq] at moved
      obtain ⟨rfl, rfl⟩ := moved
      exact ⟨⟨within, g, (goTo_point_of_ne (Ne.symm other)).trans here⟩, .single trivial⟩
    · simp [Guards.step, spin] at moved
  | release u =>
    obtain ⟨out, other⟩ | ⟨g', spin⟩ := waiting u
    · simp [Guards.step, out, held.empty other] at moved
    · simp [Guards.step, spin] at moved
  | go u =>
    obtain ⟨out, other⟩ | ⟨g', spin⟩ := waiting u
    · simp [Guards.step, Guards.go, out] at moved
    · simp only [Guards.step, Guards.go, spin, ne_eq, taken, not_false_eq_true, if_true, Option.some.injEq,
        Prod.mk.injEq] at moved
      obtain ⟨rfl, rfl⟩ := moved
      refine ⟨⟨within, ?_⟩, .nil⟩
      by_cases same : u = t
      · subst same
        exact ⟨g', goTo_point⟩
      · exact ⟨g, (goTo_point_of_ne (Ne.symm same)).trans here⟩

theorem Nested.run {past trace : List (Event τ γ)} {w w' : Guards τ γ} {t : τ} {moves : List (Move τ γ)}
    (nested : Nested w t) (sound : Sound past w) (ran : runTrace Guards.step w moves = some (trace, w')) :
    EachShown (fun _ => Entering) trace := by
  refine (runTrace_eachShown (fun past w => Sound past w ∧ Nested w t) (fun _ => Entering) ?_ ⟨sound, nested⟩ ran).2
  intro past w move shown w' ⟨sound, nested⟩ moved
  obtain ⟨nested', entering⟩ := nested.step sound moved
  exact ⟨⟨(sound.step moved).1, nested'⟩, entering⟩

/-- By steps of its own a thread gives the mutex up. -/
def Frees (w : Guards τ γ) (t : τ) : Prop :=
  ∃ moves trace w', runTrace Guards.step w moves = some (trace, w') ∧ w'.guardMutex = 0 ∧
    ∀ u, u ≠ t → w'.point u = w.point u

section Frees
variable {w w1 : Guards τ γ} {t : τ} {g : γ} {outer : List γ}

theorem Frees.before {move : Move τ γ} {shown : List (Event τ γ)} (moved : w.step move = some (shown, w1))
    (points : ∀ u, u ≠ t → w1.point u = w.point u) (frees : Frees w1 t) : Frees w t := by
  obtain ⟨moves, trace, w', ran, free, others⟩ := frees
  refine ⟨move :: moves, shown ++ trace, w', runTrace_cons.mpr ⟨_, _, _, moved, ran, rfl⟩, free, fun u other => ?_⟩
  rw [others u other, points u other]

private theorem frees_drop (here : w.point t = .drop) : Frees w t := by
  refine ⟨[.go t], [], { w.goTo t .out with guardMutex := 0 }, runTrace_single ?_, rfl, ?_⟩
  · simp only [Guards.step, Guards.go, here]
  · exact fun u other => goTo_point_of_ne other

private theorem frees_finish (here : w.point t = .finish g) : Frees w t := by
  have moved : w.step (.go t) = some ([], { w.goTo t .drop with guard := Function.update w.guard g 2 }) := by
    simp only [Guards.step, Guards.go, here]
  exact .before moved (fun u other => goTo_point_of_ne other) (frees_drop goTo_point)

private theorem frees_inside (here : w.point t = .out) (within : w.initialising t = g :: outer) : Frees w t := by
  have moved : w.step (.release t) = some ([.release t g],
      { w.goTo t (.finish g) with initialising := Function.update w.initialising t outer }) := by
    simp only [Guards.step, here, within]
  exact .before moved (fun u other => goTo_point_of_ne other) (frees_finish goTo_point)

private theorem frees_mark (here : w.point t = .mark g) : Frees w t := by
  let w1 : Guards τ γ := { w.goTo t .out with
    guard := Function.update w.guard g 1,
    initialising := Function.update w.initialising t (g :: w.initialising t) }
  have moved : w.step (.go t) = some ([.acquired t g true], w1) := by
    simp only [Guards.step, Guards.go, here, w1]
  apply Frees.before moved
  · exact fun u other => goTo_point_of_ne other
  · exact frees_inside goTo_point (Function.update_self ..)

private theorem frees_leave (here : w.point t = .leave g) : Frees w t := by
  refine ⟨[.go t], [.acquired t g false], { w.goTo t .out with guardMutex := 0 }, runTrace_single ?_, rfl, ?_⟩
  · simp only [Guards.step, Guards.go, here]
  · exact fun u other => goTo_point_of_ne other

private theorem frees_look (here : w.point t = .look g) : Frees w t := by
  have moved : w.step (.go t) = some ([], w.goTo t (if w.guard g = 2 then .leave g else .mark g)) := by
    simp only [Guards.step, Guards.go, here]
  apply Frees.before moved
  · exact fun u other => goTo_point_of_ne other
  · by_cases two : w.guard g = 2
    · rw [if_pos two]
      exact frees_leave goTo_point
    · rw [if_neg two]
      exact frees_mark goTo_point

/-- The thread with the mutex can give it up, unless it waits for it. -/
theorem Stands.frees (stands : Stands w.guard true (w.point t) (w.initialising t)) (simple : ¬ Nested w t) :
    Frees w t := by
  generalize here : w.point t = place at stands
  generalize within : w.initialising t = inner at stands
  cases stands with
  | look g => exact frees_look here
  | leave g _ => exact frees_leave here
  | mark g _ => exact frees_mark here
  | inside g => exact frees_inside here within
  | nested h g => exact absurd ⟨by simp [within], h, here⟩ simple
  | finish g => exact frees_finish here
  | drop => exact frees_drop here

end Frees

/-- With the mutex free a waiting thread comes to its answer. -/
theorem answered {w : Guards τ γ} {t : τ} {g : γ} (free : w.guardMutex = 0) (here : w.point t = .spin g) :
    ∃ moves trace w' answer, runTrace Guards.step w moves = some (trace, w') ∧ .acquired t g answer ∈ trace := by
  have first : w.step (.go t) = some ([], { w.goTo t (.look g) with guardMutex := 1 }) := by
    simp only [Guards.step, Guards.go, here, free, ne_eq, not_true_eq_false, if_false]
  let w1 : Guards τ γ := { w.goTo t (.look g) with guardMutex := 1 }
  have there : w1.point t = .look g := goTo_point
  have second : w1.step (.go t) = some ([], w1.goTo t (if w1.guard g = 2 then .leave g else .mark g)) := by
    simp only [Guards.step, Guards.go, there]
  have last : ∃ answer w', (w1.goTo t (if w1.guard g = 2 then .leave g else .mark g)).step (.go t) =
      some ([.acquired t g answer], w') := by
    by_cases two : w1.guard g = 2
    · simp only [two, if_true, Guards.step, Guards.go, goTo_point]
      exact ⟨_, _, rfl⟩
    · simp only [two, if_false, Guards.step, Guards.go, goTo_point]
      exact ⟨_, _, rfl⟩
  obtain ⟨answer, w', third⟩ := last
  refine ⟨[.go t, .go t, .go t], [.acquired t g answer], w', answer, ?_, List.mem_singleton.mpr rfl⟩
  exact runTrace_append (runTrace_single first) (runTrace_append (runTrace_single second) (runTrace_single third))

/-- Some schedule lets an acquire return, whatever happened so far, exactly if no thread
came to a guard in an initialiser. -/
theorem acquire_returns_iff {w : Guards τ γ} {moves : List (Move τ γ)} {trace : List (Event τ γ)}
    (ran : runTrace Guards.step Guards.start moves = some (trace, w)) {t : τ} {g : γ} (waiting : w.point t = .spin g) :
    (∃ moves trace w' answer, runTrace Guards.step w moves = some (trace, w') ∧ .acquired t g answer ∈ trace) ↔
      ∀ u, w.initialising u ≠ [] → ∀ h, w.point u ≠ .spin h := by
  obtain ⟨sound, _⟩ := sound_run ran
  constructor
  · intro ⟨later, shown, w', answer, more, member⟩ u within h spin
    obtain ⟨before, after, split⟩ := List.append_of_mem member
    exact Nested.run ⟨within, h, spin⟩ sound more before _ after split
  · intro simple
    obtain ⟨holder, held⟩ := sound.held
    cases holder with
    | none => exact answered (held.mutex.mpr rfl) waiting
    | some u =>
      have free : ¬ Nested w u := fun ⟨within, h, spin⟩ => simple u within h spin
      obtain ⟨first, shown, w1, ran1, free1, others⟩ := held.inside.frees free
      have other : t ≠ u := by
        intro same
        subst same
        have stands := held.inside
        rw [waiting] at stands
        exact simple t stands.nested_within g waiting
      obtain ⟨second, shown', w', answer, ran2, member⟩ := answered free1 ((others t other).trans waiting)
      exact ⟨first ++ second, shown ++ shown', w', answer, runTrace_append ran1 ran2, List.mem_append_right _ member⟩

/-- One initialiser comes to another guard, and a second thread to the first one. -/
def nestedThreads : List (Move Bool Bool) :=
  [.acquire false false, .go false, .go false, .go false, .acquire true false, .acquire false true, .go false]

theorem acquire_returns_iff_witness :
    ∃ trace w, runTrace Guards.step Guards.start nestedThreads = some (trace, w) ∧ w.point true = .spin false ∧
      ((∃ moves trace w' answer, runTrace Guards.step w moves = some (trace, w') ∧
          .acquired true false answer ∈ trace) ↔
        ∀ u, w.initialising u ≠ [] → ∀ h, w.point u ≠ .spin h) := by
  refine ⟨_, _, rfl, rfl, ?_⟩
  exact acquire_returns_iff (rfl : runTrace Guards.step Guards.start nestedThreads = some (_, _)) rfl

end Hotarubi.Lib.Guard
