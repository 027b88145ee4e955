import Hotarubi.Base.Trace
import Mathlib.Logic.Function.Basic

/-! Threads that share data and one lock. A call is a sequence of single accesses,
and a scheduler may switch threads between any two of them. If every call works on
the data only while it holds the lock, all interleavings together show nothing that
an object whose calls take effect at once does not show. -/

namespace Hotarubi.Base

variable {σ ν α β τ ι : Type}

/-- What is left of a call. One `act` is one access of the shared data. -/
inductive Code (σ α : Type) where
  | ret (answer : α)
  | act (effect : σ → σ) (next : σ → Code σ α)
  | lock (next : Code σ α)
  | unlock (next : Code σ α)

namespace Code

def bind : Code σ α → (α → Code σ β) → Code σ β
  | ret answer, rest => rest answer
  | act effect next, rest => act effect fun s => (next s).bind rest
  | lock next, rest => lock (next.bind rest)
  | unlock next, rest => unlock (next.bind rest)

instance : Monad (Code σ) where
  pure := ret
  bind := bind

def read (look : σ → α) : Code σ α := act id fun s => ret (look s)

def write (effect : σ → σ) : Code σ Unit := act effect fun _ => ret ()

def acquire : Code σ Unit := lock (ret ())

def release : Code σ Unit := unlock (ret ())

/-- A counting loop that leaves at its first hit. -/
def firstHit (probe : ι → Code σ (Option α)) : List ι → Code σ (Option α)
  | [] => pure none
  | i :: rest => do
    match ← probe i with
    | some hit => pure (some hit)
    | none => firstHit probe rest

/-- The call with no other thread around. -/
def run : Code σ α → σ → α × σ
  | ret answer, s => (answer, s)
  | act effect next, s => (next s).run (effect s)
  | lock next, s => next.run s
  | unlock next, s => next.run s

@[simp] theorem run_pure (answer : α) (s : σ) : (pure answer : Code σ α).run s = (answer, s) := rfl

@[simp] theorem run_read (look : σ → α) (s : σ) : (read look).run s = (look s, s) := rfl

@[simp] theorem run_write (effect : σ → σ) (s : σ) : (write effect).run s = ((), effect s) := rfl

@[simp] theorem run_acquire (s : σ) : acquire.run s = ((), s) := rfl

@[simp] theorem run_release (s : σ) : release.run s = ((), s) := rfl

@[simp] theorem run_bind (code : Code σ α) (rest : α → Code σ β) (s : σ) :
    (code >>= rest).run s = (rest (code.run s).1).run (code.run s).2 := by
  induction code generalizing s with
  | ret answer => rfl
  | act effect next ih => exact ih s (effect s)
  | lock next ih => exact ih s
  | unlock next ih => exact ih s

@[simp] theorem run_ite {condition : Prop} [Decidable condition] (yes no : Code σ α) (s : σ) :
    (if condition then yes else no).run s = if condition then yes.run s else no.run s := by
  split
  · rfl
  · rfl

theorem run_firstHit {probe : ι → Code σ (Option α)} {s : σ} (found : ι → Option α)
    (each : ∀ i, (probe i).run s = (found i, s)) (items : List ι) :
    (firstHit probe items).run s = (items.findSome? found, s) := by
  induction items with
  | nil => rfl
  | cons i rest ih =>
    rw [firstHit, run_bind, each, List.findSome?_cons]
    cases found i with
    | none => exact ih
    | some hit => rfl

end Code

/-- Where a call is with respect to its one section under the lock. -/
inductive Stage where
  | before
  | inside
  | after
  deriving DecidableEq, Repr

namespace Code

/-- The accesses of a call from a stage on: inside the section any that keep the
view, outside only reads of the view. -/
def Follows (view : σ → ν) : Stage → Code σ α → (Stage → Prop) → Prop
  | stage, ret _, final => final stage
  | .inside, act effect next, final =>
    (∀ s, view (effect s) = view s) ∧ ∀ s, Follows view .inside (next s) final
  | .before, act effect next, final =>
    (∀ s, effect s = s) ∧ (∀ s s', view s = view s' → next s = next s') ∧ ∀ s, Follows view .before (next s) final
  | .after, act effect next, final =>
    (∀ s, effect s = s) ∧ (∀ s s', view s = view s' → next s = next s') ∧ ∀ s, Follows view .after (next s) final
  | stage, lock next, final => stage = .before ∧ Follows view .inside next final
  | stage, unlock next, final => stage = .inside ∧ Follows view .after next final

variable {view : σ → ν} {stage : Stage} {final middle : Stage → Prop} {code : Code σ α}

theorem follows_pure {answer : α} : Follows view stage (pure answer : Code σ α) final ↔ final stage := by
  cases stage <;> rfl

theorem follows_bind {rest : α → Code σ β} (first : Follows view stage code middle)
    (later : ∀ answer stage, middle stage → Follows view stage (rest answer) final) :
    Follows view stage (code >>= rest) final := by
  change Follows view stage (code.bind rest) final
  induction code generalizing stage with
  | ret answer =>
    have reached : middle stage := by
      cases stage <;> exact first
    exact later answer stage reached
  | act effect next ih =>
    cases stage with
    | before =>
      obtain ⟨still, same, each⟩ := first
      refine ⟨still, ?_, fun s => ih s (each s)⟩
      intro s s' alike
      exact congrArg (fun code : Code σ α => code.bind rest) (same s s' alike)
    | inside => exact ⟨first.1, fun s => ih s (first.2 s)⟩
    | after =>
      obtain ⟨still, same, each⟩ := first
      refine ⟨still, ?_, fun s => ih s (each s)⟩
      intro s s' alike
      exact congrArg (fun code : Code σ α => code.bind rest) (same s s' alike)
  | lock next ih =>
    cases stage with
    | before => exact ⟨rfl, ih first.2⟩
    | inside => exact absurd first.1 (by decide)
    | after => exact absurd first.1 (by decide)
  | unlock next ih =>
    cases stage with
    | before => exact absurd first.1 (by decide)
    | inside => exact ⟨rfl, ih first.2⟩
    | after => exact absurd first.1 (by decide)

theorem Follows.mono {weaker : Stage → Prop} (follows : Follows view stage code final)
    (implies : ∀ stage, final stage → weaker stage) : Follows view stage code weaker := by
  induction code generalizing stage with
  | ret answer =>
    cases stage <;> exact implies _ follows
  | act effect next ih =>
    cases stage with
    | before => exact ⟨follows.1, follows.2.1, fun s => ih s (follows.2.2 s)⟩
    | inside => exact ⟨follows.1, fun s => ih s (follows.2 s)⟩
    | after => exact ⟨follows.1, follows.2.1, fun s => ih s (follows.2.2 s)⟩
  | lock next ih =>
    cases stage <;> exact ⟨follows.1, ih follows.2⟩
  | unlock next ih =>
    cases stage <;> exact ⟨follows.1, ih follows.2⟩

theorem follows_read {look : σ → α} : Follows view .inside (read look) (· = .inside) :=
  ⟨fun _ => rfl, fun _ => rfl⟩

theorem follows_write {effect : σ → σ} (keeps : ∀ s, view (effect s) = view s) :
    Follows view .inside (write effect) (· = .inside) :=
  ⟨keeps, fun _ => rfl⟩

/-- A read of the view needs no lock. -/
theorem follows_look (look : ν → α) : Follows view stage (read fun s => look (view s)) (· = stage) := by
  have same (s s' : σ) (alike : view s = view s') : (ret (look (view s)) : Code σ α) = ret (look (view s')) := by
    rw [alike]
  cases stage with
  | before => exact ⟨fun _ => rfl, same, fun _ => rfl⟩
  | inside => exact follows_read
  | after => exact ⟨fun _ => rfl, same, fun _ => rfl⟩

theorem follows_acquire : Follows view .before acquire (· = .inside) := ⟨rfl, rfl⟩

theorem follows_release : Follows view .inside release (· = .after) := ⟨rfl, rfl⟩

/-- A part of a call that stays in its stage, and the rest. -/
theorem follows_then {rest : α → Code σ β} (first : Follows view stage code (· = stage))
    (later : ∀ answer, Follows view stage (rest answer) final) : Follows view stage (code >>= rest) final := by
  apply follows_bind first
  intro answer _ same
  subst same
  exact later answer

theorem follows_ite {condition : Prop} [Decidable condition] {yes no : Code σ α}
    (first : condition → Follows view stage yes final) (second : ¬ condition → Follows view stage no final) :
    Follows view stage (if condition then yes else no) final := by
  split
  next holds => exact first holds
  next fails => exact second fails

theorem follows_firstHit {probe : ι → Code σ (Option α)} (each : ∀ i, Follows view stage (probe i) (· = stage))
    (items : List ι) : Follows view stage (firstHit probe items) (· = stage) := by
  induction items with
  | nil => exact follows_pure.mpr rfl
  | cons i rest ih =>
    apply follows_bind (each i)
    intro answer _ same
    subst same
    cases answer with
    | none => exact ih
    | some hit => exact follows_pure.mpr rfl

/-- A section from the lock to the unlock. -/
theorem follows_section {body : Code σ α} {rest : α → Code σ β} (inner : Follows view .inside body (· = .inside))
    (later : ∀ answer, Follows view .after (rest answer) final) :
    Follows view .before (do acquire; let answer ← body; release; rest answer) final := by
  apply follows_bind follows_acquire
  rintro _ _ rfl
  apply follows_bind inner
  rintro answer _ rfl
  apply follows_bind follows_release
  rintro _ _ rfl
  exact later answer

theorem Follows.view_run (follows : Follows view stage code final) (s : σ) : view (code.run s).2 = view s := by
  induction code generalizing stage s with
  | ret answer => rfl
  | act effect next ih =>
    cases stage with
    | before =>
      obtain ⟨still, _, each⟩ := follows
      rw [run, ih s (each s), still s]
    | inside => rw [run, ih s (follows.2 s), follows.1 s]
    | after =>
      obtain ⟨still, _, each⟩ := follows
      rw [run, ih s (each s), still s]
  | lock next ih =>
    cases stage <;> exact ih follows.2 s
  | unlock next ih =>
    cases stage <;> exact ih follows.2 s

/-- Behind the section a call reads the view alone. -/
theorem Follows.run_after (follows : Follows view .after code final) {s s' : σ} (alike : view s = view s') :
    code.run s' = ((code.run s).1, s') := by
  induction code generalizing s s' with
  | ret answer => rfl
  | act effect next ih =>
    obtain ⟨still, same, each⟩ := follows
    rw [run, run, still s, still s', same s' s alike.symm]
    exact ih s (each s) alike
  | lock next ih => exact absurd follows.1 (by decide)
  | unlock next ih => exact absurd follows.1 (by decide)

end Code

/-- The shared data, the lock and what is left of each thread's call. -/
structure Threads (τ σ α : Type) where
  taken : Bool
  data : σ
  running : τ → Option (Code σ α)

/-- A thread enters a call, or takes its next step in one. -/
inductive Move (τ ι : Type) where
  | call (thread : τ) (op : ι)
  | go (thread : τ)
  deriving DecidableEq, Repr

/-- What the callers of an object see. -/
inductive Shown (τ ι α : Type) where
  | call (thread : τ) (op : ι)
  | ret (thread : τ) (answer : α)
  deriving DecidableEq, Repr

variable [DecidableEq τ]

namespace Threads

def set (w : Threads τ σ α) (thread : τ) (code : Option (Code σ α)) : Threads τ σ α :=
  { w with running := Function.update w.running thread code }

/-- A thread that finds the lock taken stays where it is. -/
def step (code : ι → Code σ α) (w : Threads τ σ α) : Move τ ι → Option (List (Shown τ ι α) × Threads τ σ α)
  | .call thread op =>
    match w.running thread with
    | none => some ([.call thread op], w.set thread (some (code op)))
    | some _ => none
  | .go thread =>
    match w.running thread with
    | none => none
    | some (.ret answer) => some ([.ret thread answer], w.set thread none)
    | some (.act effect next) => some ([], { w.set thread (some (next w.data)) with data := effect w.data })
    | some (.lock next) =>
      if w.taken then some ([], w) else some ([], { w.set thread (some next) with taken := true })
    | some (.unlock next) => some ([], { w.set thread (some next) with taken := false })

def start (s : σ) : Threads τ σ α := ⟨false, s, fun _ => none⟩

end Threads

/-- A thread of an atomic object: its call takes effect between entry and return. -/
inductive Session (ι α : Type) where
  | idle
  | called (op : ι)
  | done (op : ι) (answer : α)
  deriving DecidableEq, Repr

structure Object (τ ι σ α : Type) where
  data : σ
  sessions : τ → Session ι α

inductive Turn (τ ι : Type) where
  | call (thread : τ) (op : ι)
  | fire (thread : τ)
  | ret (thread : τ)
  deriving DecidableEq, Repr

namespace Object

def set (o : Object τ ι σ α) (thread : τ) (session : Session ι α) : Object τ ι σ α :=
  { o with sessions := Function.update o.sessions thread session }

def step (exec : ι → σ → α × σ) (o : Object τ ι σ α) : Turn τ ι → Option (List (Shown τ ι α) × Object τ ι σ α)
  | .call thread op =>
    match o.sessions thread with
    | .idle => some ([.call thread op], o.set thread (.called op))
    | .called _ => none
    | .done _ _ => none
  | .fire thread =>
    match o.sessions thread with
    | .idle => none
    | .called op => some ([], { o.set thread (.done op (exec op o.data).1) with data := (exec op o.data).2 })
    | .done _ _ => none
  | .ret thread =>
    match o.sessions thread with
    | .idle => none
    | .called _ => none
    | .done _ answer => some ([.ret thread answer], o.set thread .idle)

def start (s : σ) : Object τ ι σ α := ⟨s, fun _ => .idle⟩

variable {exec : ι → σ → α × σ} {o o' : Object τ ι σ α} {thread : τ} {op : ι}

@[simp] theorem set_self (session : Session ι α) : (o.set thread session).sessions thread = session :=
  Function.update_self ..

@[simp] theorem set_other {other : τ} (different : other ≠ thread) (session : Session ι α) :
    (o.set thread session).sessions other = o.sessions other :=
  Function.update_of_ne different ..

theorem step_call {shown : List (Shown τ ι α)} (moved : o.step exec (.call thread op) = some (shown, o')) :
    o.sessions thread = .idle ∧ shown = [.call thread op] ∧ o' = o.set thread (.called op) := by
  cases here : o.sessions thread with
  | idle =>
    rw [step, here] at moved
    cases moved
    exact ⟨rfl, rfl, rfl⟩
  | called op => simp [step, here] at moved
  | done op answer => simp [step, here] at moved

theorem step_fire {shown : List (Shown τ ι α)} (moved : o.step exec (.fire thread) = some (shown, o')) :
    ∃ op, o.sessions thread = .called op ∧ shown = [] ∧
      o' = { o.set thread (.done op (exec op o.data).1) with data := (exec op o.data).2 } := by
  cases here : o.sessions thread with
  | idle => simp [step, here] at moved
  | called op =>
    rw [step, here] at moved
    cases moved
    exact ⟨op, rfl, rfl, rfl⟩
  | done op answer => simp [step, here] at moved

theorem step_ret {shown : List (Shown τ ι α)} (moved : o.step exec (.ret thread) = some (shown, o')) :
    ∃ op answer, o.sessions thread = .done op answer ∧ shown = [.ret thread answer] ∧ o' = o.set thread .idle := by
  cases here : o.sessions thread with
  | idle => simp [step, here] at moved
  | called op => simp [step, here] at moved
  | done op answer =>
    rw [step, here] at moved
    cases moved
    exact ⟨op, answer, rfl, rfl, rfl⟩

/-- What every call keeps of the data holds along all runs. -/
theorem run_kept {invariant : σ → Prop} (kept : ∀ op s, invariant s → invariant (exec op s).2) {turns : List (Turn τ ι)}
    {trace : List (Shown τ ι α)} (start : invariant o.data)
    (ran : runTrace (step exec) o turns = some (trace, o')) : invariant o'.data := by
  refine runTrace_kept (fun o : Object τ ι σ α => invariant o.data) ?_ start ran
  intro o turn shown o' holds moved
  cases turn with
  | call thread op =>
    obtain ⟨_, _, rfl⟩ := step_call moved
    exact holds
  | fire thread =>
    obtain ⟨op, _, _, rfl⟩ := step_fire moved
    exact kept op o.data holds
  | ret thread =>
    obtain ⟨_, _, _, _, rfl⟩ := step_ret moved
    exact holds

end Object

section Refinement

variable {exec : ι → σ → α × σ} {view : σ → ν}

/-- One thread and its session: what is left of the call gives the session's answer
and, inside the section, turns the data into the object's. -/
inductive Agrees (exec : ι → σ → α × σ) (view : σ → ν) (data data' : σ) :
    Stage → Option (Code σ α) → Session ι α → Prop where
  | idle : Agrees exec view data data' .before none .idle
  | before {code : Code σ α} {op : ι} (follows : code.Follows view .before (· ≠ .inside))
      (same : ∀ s, view s = view data → code.run s = exec op s) :
      Agrees exec view data data' .before (some code) (.called op)
  | inside {code : Code σ α} {op : ι} {answer : α} (follows : code.Follows view .inside (· ≠ .inside))
      (same : code.run data = (answer, data')) :
      Agrees exec view data data' .inside (some code) (.done op answer)
  | after {code : Code σ α} {op : ι} {answer : α} (follows : code.Follows view .after (· ≠ .inside))
      (same : ∀ s, view s = view data → code.run s = (answer, s)) :
      Agrees exec view data data' .after (some code) (.done op answer)

/-- The object runs ahead of the data while a thread is inside its section. -/
structure Refines (exec : ι → σ → α × σ) (view : σ → ν) (w : Threads τ σ α) (o : Object τ ι σ α)
    (stage : τ → Stage) : Prop where
  agrees : ∀ thread, Agrees exec view w.data o.data (stage thread) (w.running thread) (o.sessions thread)
  view : view o.data = view w.data
  free : w.taken = false → o.data = w.data
  taken : ∀ thread, stage thread = .inside → w.taken = true
  held : w.taken = true → ∃ thread, stage thread = .inside
  alone : ∀ thread other, stage thread = .inside → stage other = .inside → thread = other

/-- Outside its section a thread does not notice what the others do to the data. -/
theorem Agrees.frame {s s' : σ} {stage : Stage} {code : Option (Code σ α)} {session : Session ι α} (t t' : σ)
    (agrees : Agrees exec view s s' stage code session) (outside : stage ≠ .inside) (alike : view t = view s) :
    Agrees exec view t t' stage code session := by
  cases agrees with
  | idle => exact .idle
  | before follows same => exact .before follows fun s seen => same s (seen.trans alike)
  | inside follows same => exact absurd rfl outside
  | after follows same => exact .after follows fun s seen => same s (seen.trans alike)

namespace Refines
variable {w w' : Threads τ σ α} {o : Object τ ι σ α} {stage : τ → Stage} {thread : τ} {code : ι → Code σ α}

omit [DecidableEq τ] in
theorem start (s : σ) : Refines exec view (Threads.start s : Threads τ σ α)
    (Object.start s : Object τ ι σ α) fun _ => .before where
  agrees _ := .idle
  view := rfl
  free _ := rfl
  taken _ inside := absurd inside (by decide)
  held taken := Bool.noConfusion taken
  alone _ _ inside := absurd inside (by decide)

/-- A step of one thread that leaves the data, the lock and the section alone. -/
theorem outside (refines : Refines exec view w o stage) {rest : Option (Code σ α)} {session : Session ι α} {next : Stage}
    (was : stage thread ≠ .inside) (will : next ≠ .inside)
    (agrees : Agrees exec view w.data o.data next rest session) :
    Refines exec view (w.set thread rest) (o.set thread session) (Function.update stage thread next) := by
  have inside_iff (other : τ) : Function.update stage thread next other = .inside ↔ stage other = .inside := by
    by_cases same : other = thread
    · subst same
      rw [Function.update_self]
      exact iff_of_false will was
    · rw [Function.update_of_ne same]
  constructor
  case agrees =>
    intro other
    by_cases same : other = thread
    · subst same
      simpa only [Threads.set, Object.set, Function.update_self] using agrees
    · simpa only [Threads.set, Object.set, Function.update_of_ne same] using refines.agrees other
  case view => exact refines.view
  case free => exact refines.free
  case taken =>
    intro other inside
    exact refines.taken other ((inside_iff other).mp inside)
  case held =>
    intro taken
    obtain ⟨other, inside⟩ := refines.held taken
    exact ⟨other, (inside_iff other).mpr inside⟩
  case alone =>
    intro first second inside inside'
    exact refines.alone first second ((inside_iff first).mp inside) ((inside_iff second).mp inside')

/-- A step of the thread that is or will be the only one in its section. -/
theorem within (refines : Refines exec view w o stage) {rest : Code σ α} (session : Session ι α) (next : Stage)
    (data data' : σ) (others : ∀ other, other ≠ thread → stage other ≠ .inside)
    (agrees : Agrees exec view data data' next (some rest) session)
    (alike : view data = view w.data) (alike' : view data' = view data) (free : next ≠ .inside → data' = data) :
    Refines exec view { w.set thread (some rest) with data := data, taken := decide (next = .inside) }
      { o.set thread session with data := data' } (Function.update stage thread next) := by
  have inside_iff (other : τ) : Function.update stage thread next other = .inside ↔ other = thread ∧ next = .inside := by
    by_cases same : other = thread
    · subst same
      rw [Function.update_self]
      exact (and_iff_right rfl).symm
    · rw [Function.update_of_ne same]
      exact iff_of_false (others other same) fun both => same both.1
  constructor
  case agrees =>
    intro other
    by_cases same : other = thread
    · subst same
      simpa only [Threads.set, Object.set, Function.update_self] using agrees
    · have frame := (refines.agrees other).frame data data' (others other same) alike
      simpa only [Threads.set, Object.set, Function.update_of_ne same] using frame
  case view => exact alike'
  case free =>
    intro unheld
    exact free (of_decide_eq_false unheld)
  case taken =>
    intro other inside
    exact decide_eq_true ((inside_iff other).mp inside).2
  case held =>
    intro taken
    exact ⟨thread, (inside_iff thread).mpr ⟨rfl, of_decide_eq_true taken⟩⟩
  case alone =>
    intro first second inside inside'
    exact ((inside_iff first).mp inside).1.trans ((inside_iff second).mp inside').1.symm

omit [DecidableEq τ] in
theorem others_outside (refines : Refines exec view w o stage) (inside : stage thread = .inside) {other : τ}
    (different : other ≠ thread) : stage other ≠ .inside :=
  fun also => different (refines.alone other thread also inside)

omit [DecidableEq τ] in
theorem all_outside (refines : Refines exec view w o stage) (free : w.taken = false) (other : τ) :
    stage other ≠ .inside := by
  intro inside
  rw [refines.taken other inside] at free
  cases free

/-- One access of a thread outside its section. -/
theorem step_look (refines : Refines exec view w o stage) {effect : σ → σ} {next : σ → Code σ α}
    (here : w.running thread = some (.act effect next)) (out : stage thread ≠ .inside) :
    effect w.data = w.data ∧ Refines exec view (w.set thread (some (next w.data))) o stage := by
  have agrees := refines.agrees thread
  rw [here] at agrees
  have unmoved : o.set thread (o.sessions thread) = o := by
    rw [Object.set, Function.update_eq_self]
  have same_stage : Function.update stage thread (stage thread) = stage := Function.update_eq_self ..
  have moved (rest : Agrees exec view w.data o.data (stage thread) (some (next w.data)) (o.sessions thread)) :
      Refines exec view (w.set thread (some (next w.data))) o stage := by
    have all := refines.outside out out rest
    rwa [unmoved, same_stage] at all
  generalize at_eq : stage thread = at' at agrees out
  generalize session_eq : o.sessions thread = session at agrees
  rw [at_eq, session_eq] at moved
  cases agrees with
  | before follows same =>
    obtain ⟨still, alike, each⟩ := follows
    refine ⟨still w.data, moved (.before (each w.data) ?_)⟩
    intro s seen
    have := same s seen
    rwa [Code.run, still s, alike s w.data seen] at this
  | inside follows same => exact absurd rfl out
  | after follows same =>
    obtain ⟨still, alike, each⟩ := follows
    refine ⟨still w.data, moved (.after (each w.data) ?_)⟩
    intro s seen
    have := same s seen
    rwa [Code.run, still s, alike s w.data seen] at this

/-- One access of the thread that holds the lock. -/
theorem step_act (refines : Refines exec view w o stage) {effect : σ → σ} {next : σ → Code σ α}
    (here : w.running thread = some (.act effect next)) (inside : stage thread = .inside) :
    Refines exec view { w.set thread (some (next w.data)) with data := effect w.data } o stage := by
  have agrees := refines.agrees thread
  rw [here, inside] at agrees
  generalize session_eq : o.sessions thread = session at agrees
  cases agrees with
  | @inside _ op answer follows same =>
    have all := refines.within (.done op answer) .inside (effect w.data) o.data
      (fun other different => refines.others_outside inside different) (.inside (follows.2 w.data) same)
      (follows.1 w.data) (refines.view.trans (follows.1 w.data).symm) (fun out => absurd rfl out)
    have held := refines.taken thread inside
    rw [← session_eq, Object.set, Function.update_eq_self, ← inside, Function.update_eq_self, inside] at all
    simpa only [Threads.set, held, decide_true] using all

/-- The call takes effect in the object when its thread gets the lock. -/
theorem step_lock (refines : Refines exec view w o stage) {next : Code σ α}
    (here : w.running thread = some (.lock next)) (free : w.taken = false) :
    ∃ o' : Object τ ι σ α, o.step exec (.fire thread) = some ([], o') ∧
      Refines exec view { w.set thread (some next) with taken := true } o' (Function.update stage thread .inside) := by
  have agrees := refines.agrees thread
  have out := refines.all_outside free
  have same_data := refines.free free
  have outside := out thread
  rw [here] at agrees
  generalize stage thread = at' at agrees outside
  generalize session_eq : o.sessions thread = session at agrees
  cases agrees with
  | @before _ op follows same =>
    refine ⟨{ o.set thread (.done op (exec op o.data).1) with data := (exec op o.data).2 }, ?_, ?_⟩
    · rw [Object.step, session_eq]
    · have effect : next.run w.data = exec op o.data := by
        rw [same_data]
        exact same w.data rfl
      have kept : view (exec op o.data).2 = view w.data := by
        rw [← effect]
        exact follows.2.view_run w.data
      exact refines.within _ .inside w.data _ (fun other _ => out other)
        (.inside follows.2 effect) rfl kept (fun out => absurd rfl out)
  | inside follows same => exact absurd rfl outside
  | after follows same => exact absurd follows.1 (by decide)

theorem step_unlock (refines : Refines exec view w o stage) {next : Code σ α}
    (here : w.running thread = some (.unlock next)) :
    Refines exec view { w.set thread (some next) with taken := false } o (Function.update stage thread .after) := by
  have agrees := refines.agrees thread
  rw [here] at agrees
  generalize at_eq : stage thread = at' at agrees
  generalize session_eq : o.sessions thread = session at agrees
  cases agrees with
  | before follows same => exact absurd follows.1 (by decide)
  | @inside _ op answer follows same =>
    have last := follows.2.run_after (rfl : view w.data = view w.data)
    rw [Code.run] at same
    rw [same] at last
    have settled : o.data = w.data := congrArg Prod.snd last
    have rest (s : σ) (seen : view s = view w.data) : next.run s = (answer, s) := by
      have := follows.2.run_after seen.symm
      rwa [same] at this
    have all := refines.within (.done op answer) .after w.data o.data
      (fun other different => refines.others_outside at_eq different) (.after follows.2 rest) rfl refines.view
      (fun _ => settled)
    rw [← session_eq, Object.set, Function.update_eq_self] at all
    exact all
  | after follows same => exact absurd follows.1 (by decide)

/-- A call that returns without the lock takes effect just before. -/
theorem step_ret (refines : Refines exec view w o stage) {answer : α}
    (here : w.running thread = some (.ret answer)) :
    ∃ turns o', runTrace (Object.step exec) o turns = some ([.ret thread answer], o') ∧
      Refines exec view (w.set thread none) o' (Function.update stage thread .before) := by
  have agrees := refines.agrees thread
  rw [here] at agrees
  generalize at_eq : stage thread = at' at agrees
  generalize session_eq : o.sessions thread = session at agrees
  cases agrees with
  | @before _ op follows same =>
    have effect : exec op o.data = (answer, o.data) := (same o.data refines.view).symm
    have fired : o.step exec (.fire thread) = some ([], o.set thread (.done op answer)) := by
      rw [Object.step, session_eq]
      simp only [effect, Object.set]
    have returned : (o.set thread (.done op answer)).step exec (.ret thread) =
        some ([.ret thread answer], o.set thread .idle) := by
      simp only [Object.step, Object.set, Function.update_self, Function.update_idem]
    refine ⟨[.fire thread, .ret thread], o.set thread .idle, ?_, ?_⟩
    · exact runTrace_append (runTrace_single fired) (runTrace_single returned)
    · refine refines.outside ?_ (by decide) .idle
      rw [at_eq]
      decide
  | inside follows same => exact absurd rfl follows
  | @after _ op last follows same =>
    have equal : answer = last := congrArg Prod.fst (same w.data rfl)
    subst equal
    refine ⟨[.ret thread], o.set thread .idle, runTrace_single ?_, ?_⟩
    · rw [Object.step, session_eq]
    · refine refines.outside ?_ (by decide) .idle
      rw [at_eq]
      decide

/-- Each step of a thread is matched by turns of the object that show the same. -/
theorem step (refines : Refines exec view w o stage) (follows : ∀ op, (code op).Follows view .before (· ≠ .inside))
    (same : ∀ op s, (code op).run s = exec op s) {move : Move τ ι} {shown : List (Shown τ ι α)}
    (moved : w.step code move = some (shown, w')) :
    ∃ turns o' stage', runTrace (Object.step exec) o turns = some (shown, o') ∧ Refines exec view w' o' stage' := by
  cases move with
  | call thread op =>
    cases here : w.running thread with
    | some rest => simp [Threads.step, here] at moved
    | none =>
      simp only [Threads.step, here, Option.some.injEq, Prod.mk.injEq] at moved
      obtain ⟨rfl, rfl⟩ := moved
      have agrees := refines.agrees thread
      rw [here] at agrees
      generalize at_eq : stage thread = at' at agrees
      generalize session_eq : o.sessions thread = session at agrees
      cases agrees with
      | idle =>
        refine ⟨[.call thread op], o.set thread (.called op), Function.update stage thread .before, runTrace_single ?_, ?_⟩
        · rw [Object.step, session_eq]
        · refine refines.outside ?_ (by decide) (.before (follows op) fun s _ => same op s)
          rw [at_eq]
          decide
  | go thread =>
    cases here : w.running thread with
    | none => simp [Threads.step, here] at moved
    | some rest =>
      cases rest with
      | ret answer =>
        simp only [Threads.step, here, Option.some.injEq, Prod.mk.injEq] at moved
        obtain ⟨rfl, rfl⟩ := moved
        obtain ⟨turns, o', ran, refines'⟩ := refines.step_ret here
        exact ⟨turns, o', _, ran, refines'⟩
      | act effect next =>
        simp only [Threads.step, here, Option.some.injEq, Prod.mk.injEq] at moved
        obtain ⟨rfl, rfl⟩ := moved
        by_cases inside : stage thread = .inside
        · exact ⟨[], o, stage, rfl, refines.step_act here inside⟩
        · obtain ⟨still, refines'⟩ := refines.step_look here inside
          rw [still]
          exact ⟨[], o, stage, rfl, refines'⟩
      | lock next =>
        cases free : w.taken with
        | true =>
          simp only [Threads.step, here, free, if_true, Option.some.injEq, Prod.mk.injEq] at moved
          obtain ⟨rfl, rfl⟩ := moved
          exact ⟨[], o, stage, rfl, refines⟩
        | false =>
          simp only [Threads.step, here, free, Bool.false_eq_true, if_false, Option.some.injEq, Prod.mk.injEq] at moved
          obtain ⟨rfl, rfl⟩ := moved
          obtain ⟨o', fired, refines'⟩ := refines.step_lock here free
          exact ⟨[.fire thread], o', _, runTrace_single fired, refines'⟩
      | unlock next =>
        simp only [Threads.step, here, Option.some.injEq, Prod.mk.injEq] at moved
        obtain ⟨rfl, rfl⟩ := moved
        exact ⟨[], o, _, rfl, refines.step_unlock here⟩

/-- Whatever the schedule, the threads show what the object shows. -/
theorem run (follows : ∀ op, (code op).Follows view .before (· ≠ .inside))
    (same : ∀ op s, (code op).run s = exec op s) {s : σ} {moves : List (Move τ ι)} {trace : List (Shown τ ι α)}
    (ran : runTrace (Threads.step code) (Threads.start s) moves = some (trace, w)) :
    ∃ turns o stage, runTrace (Object.step exec) (Object.start s) turns = some (trace, o) ∧
      Refines exec view w o stage := by
  obtain ⟨turns, o, shown, stage, refines⟩ := runTrace_simulated
    (fun (w : Threads τ σ α) o => ∃ stage, Refines exec view w o stage)
    (fun w o move shown w' ⟨_, refines⟩ moved => by
      obtain ⟨turns, o', stage', ran, refines'⟩ := refines.step follows same moved
      exact ⟨turns, o', ran, stage', refines'⟩)
    ⟨_, (Refines.start s : Refines exec view _ _ _)⟩ ran
  exact ⟨turns, o, stage, shown, refines⟩

omit [DecidableEq τ] in
/-- Two threads are never both about to access the data in a way that collides: if one
step may change it, any other reads no more than the view, which the step keeps. -/
theorem no_race (refines : Refines exec view w o stage) {other : τ} {effect effect' : σ → σ} {next next' : σ → Code σ α}
    (here : w.running thread = some (.act effect next)) (there : w.running other = some (.act effect' next'))
    (different : other ≠ thread) (writes : ∃ s, effect s ≠ s) :
    (∀ s, view (effect s) = view s) ∧ (∀ s, effect' s = s) ∧ ∀ s s', view s = view s' → next' s = next' s' := by
  have agrees := refines.agrees thread
  have agrees' := refines.agrees other
  rw [here] at agrees
  rw [there] at agrees'
  obtain ⟨s, changed⟩ := writes
  generalize at_eq : stage thread = at' at agrees
  generalize o.sessions thread = session at agrees
  cases agrees with
  | before follows same => exact absurd (follows.1 s) changed
  | after follows same => exact absurd (follows.1 s) changed
  | inside follows same =>
    have out := refines.others_outside at_eq different
    generalize stage other = there' at agrees' out
    generalize o.sessions other = session' at agrees'
    refine ⟨follows.1, ?_⟩
    cases agrees' with
    | before follows' same' => exact ⟨follows'.1, follows'.2.1⟩
    | inside follows' same' => exact absurd rfl out
    | after follows' same' => exact ⟨follows'.1, follows'.2.1⟩

end Refines

omit [DecidableEq τ] in
theorem Code.Follows.early {rest : Code σ α} {stage : Stage} (follows : (Code.lock rest).Follows view stage (· ≠ .inside)) :
    stage = .before ∧ rest.Follows view .inside (· ≠ .inside) := by
  cases stage <;> exact follows

/-- A silent step of a thread before the rest of its call. -/
theorem Threads.run_later {code : ι → Code σ α} {w w1 w' : Threads τ σ α} {thread : τ} {rest : Option (Code σ α)} {n : Nat}
    {trace : List (Shown τ ι α)} (moved : w.step code (.go thread) = some ([], w1))
    (set : w1.running = Function.update w.running thread rest)
    (ran : runTrace (Threads.step code) w1 (List.replicate n (.go thread)) = some (trace, w'))
    (others : ∀ other, other ≠ thread → w'.running other = w1.running other) :
    runTrace (Threads.step code) w (List.replicate (n + 1) (.go thread)) = some (trace, w') ∧
      ∀ other, other ≠ thread → w'.running other = w.running other := by
  refine ⟨runTrace_cons.mpr ⟨[], w1, trace, moved, ran, rfl⟩, fun other different => ?_⟩
  rw [others other different, set, Function.update_of_ne different]

/-- A thread that does not wait for the lock returns by steps of its own, and the
lock is free then if nobody else holds it. -/
theorem Code.Follows.finishes {stage : Stage} {rest : Code σ α} (follows : rest.Follows view stage (· ≠ .inside))
    {w : Threads τ σ α} {thread : τ} (code : ι → Code σ α) (here : w.running thread = some rest)
    (free : stage = .before → w.taken = false) :
    ∃ n answer w', runTrace (Threads.step code) w (List.replicate n (.go thread)) = some ([.ret thread answer], w') ∧
      w'.running thread = none ∧ (∀ other, other ≠ thread → w'.running other = w.running other) ∧
      ((stage = .after → w.taken = false) → w'.taken = false) := by
  induction rest generalizing w stage with
  | ret answer =>
    refine ⟨1, answer, w.set thread none, ?_, Function.update_self .., ?_, ?_⟩
    · exact runTrace_single (by rw [Threads.step, here])
    · exact fun other different => Function.update_of_ne different ..
    · intro last
      cases stage with
      | before => exact free rfl
      | inside => exact absurd rfl follows
      | after => exact last rfl
  | act effect next ih =>
    have each : (next w.data).Follows view stage (· ≠ .inside) := by
      cases stage with
      | before => exact follows.2.2 w.data
      | inside => exact follows.2 w.data
      | after => exact follows.2.2 w.data
    let w1 : Threads τ σ α := { w.set thread (some (next w.data)) with data := effect w.data }
    obtain ⟨n, answer, w', ran, idle, others, given⟩ := ih w.data each (w := w1) (Function.update_self ..) free
    obtain ⟨ran', others'⟩ := Threads.run_later (by rw [Threads.step, here]) rfl ran others
    exact ⟨n + 1, answer, w', ran', idle, others', given⟩
  | lock next ih =>
    obtain ⟨rfl, section'⟩ := follows.early
    let w1 : Threads τ σ α := { w.set thread (some next) with taken := true }
    obtain ⟨n, answer, w', ran, idle, others, given⟩ := ih section' (w := w1) (Function.update_self ..)
      (fun no => absurd no (by decide))
    have moved : w.step code (.go thread) = some ([], w1) := by
      rw [Threads.step, here]
      simp only [free rfl, Bool.false_eq_true, if_false, w1]
    obtain ⟨ran', others'⟩ := Threads.run_later moved rfl ran others
    exact ⟨n + 1, answer, w', ran', idle, others', fun _ => given fun no => absurd no (by decide)⟩
  | unlock next ih =>
    have rest : next.Follows view .after (· ≠ .inside) := by
      cases stage with
      | before => exact follows.2
      | inside => exact follows.2
      | after => exact follows.2
    let w1 : Threads τ σ α := { w.set thread (some next) with taken := false }
    obtain ⟨n, answer, w', ran, idle, others, given⟩ := ih rest (w := w1) (Function.update_self ..)
      (fun no => absurd no (by decide))
    obtain ⟨ran', others'⟩ := Threads.run_later (by rw [Threads.step, here]) rfl ran others
    exact ⟨n + 1, answer, w', ran', idle, others', fun _ => given fun _ => rfl⟩

namespace Refines
variable {w : Threads τ σ α} {o : Object τ ι σ α} {stage : τ → Stage} {thread : τ}

omit [DecidableEq τ] in
theorem follows (refines : Refines exec view w o stage) {rest : Code σ α} (here : w.running thread = some rest) :
    rest.Follows view (stage thread) (· ≠ .inside) := by
  have agrees := refines.agrees thread
  rw [here] at agrees
  generalize stage thread = at' at agrees
  generalize o.sessions thread = session at agrees
  cases agrees with
  | before follows same => exact follows
  | inside follows same => exact follows
  | after follows same => exact follows

/-- No schedule ends in a deadlock: the thread that holds the lock can return, and
then any other one can. -/
theorem returns (refines : Refines exec view w o stage) (code : ι → Code σ α) {rest : Code σ α}
    (here : w.running thread = some rest) :
    ∃ moves trace w', runTrace (Threads.step code) w moves = some (trace, w') ∧ w'.running thread = none := by
  have follows := refines.follows here
  by_cases wait : stage thread = .before → w.taken = false
  · obtain ⟨n, answer, w', ran, idle, _⟩ := follows.finishes code here wait
    exact ⟨_, _, w', ran, idle⟩
  · obtain ⟨early, held⟩ := Classical.not_imp.mp wait
    obtain ⟨holder, inside⟩ := refines.held ((Bool.not_eq_false _).mp held)
    have different : thread ≠ holder := by
      rintro rfl
      rw [early] at inside
      cases inside
    cases there : w.running holder with
    | none =>
      have agrees := refines.agrees holder
      rw [there, inside] at agrees
      cases agrees
    | some section' =>
      have within := refines.follows there
      rw [inside] at within
      obtain ⟨n, answer, w1, first, _, others, given⟩ := within.finishes code there (fun no => absurd no (by decide))
      have free := given fun no => absurd no (by decide)
      obtain ⟨n', answer', w', second, idle, _⟩ := follows.finishes code (w := w1)
        ((others thread different).trans here) (fun _ => free)
      exact ⟨_, _, w', runTrace_append first second, idle⟩

end Refines

end Refinement

end Hotarubi.Base
