import Hotarubi.Base.Trace
import Mathlib.Logic.Function.Basic

/-! The guards of local statics, with `__cxa_guard_acquire` and `__cxa_guard_release`
one access of shared memory at a time. Any number of threads run them. A thread that
is told to initialise an object may come to another guard in its initialiser. -/

namespace Hotarubi.Lib.Guard

variable {τ γ : Type}

/-- Where a thread is in the two functions. -/
inductive Point (γ : Type) where
  | out
  | spin (g : γ)
  | look (g : γ)
  | leave (g : γ)
  | mark (g : γ)
  | finish (g : γ)
  | drop
  deriving DecidableEq, Repr

structure Guards (τ γ : Type) where
  guardMutex : UInt64
  guard : γ → UInt64
  point : τ → Point γ
  /-- The initialisers that a thread is in, the innermost first. -/
  initialising : τ → List γ

/-- All of it is zero before the first thread comes. -/
def Guards.start : Guards τ γ :=
  { guardMutex := 0, guard := fun _ => 0, point := fun _ => .out, initialising := fun _ => [] }

inductive Move (τ γ : Type) where
  | acquire (t : τ) (g : γ)
  | release (t : τ)
  | go (t : τ)

/-- What callers see. An acquire answers `true` to the thread that is to run the initialiser. -/
inductive Event (τ γ : Type) where
  | acquire (t : τ) (g : γ)
  | acquired (t : τ) (g : γ) (answer : Bool)
  | release (t : τ) (g : γ)
  deriving DecidableEq, Repr

variable [DecidableEq τ] [DecidableEq γ]

namespace Guards

def goTo (w : Guards τ γ) (t : τ) (point : Point γ) : Guards τ γ :=
  { w with point := Function.update w.point t point }

/-- The next access of a thread. -/
def go (w : Guards τ γ) (t : τ) : Option (List (Event τ γ) × Guards τ γ) :=
  match w.point t with
  | .out => none
  | .spin g =>
    -- `__sync_lock_test_and_set` stores 1 whatever it finds
    some ([], { w.goTo t (if w.guardMutex ≠ 0 then .spin g else .look g) with guardMutex := 1 })
  | .look g => some ([], w.goTo t (if w.guard g = 2 then .leave g else .mark g))
  | .leave g => some ([.acquired t g false], { w.goTo t .out with guardMutex := 0 })
  | .mark g =>
    -- it keeps `guard_mutex`
    some ([.acquired t g true],
      { w.goTo t .out with
        guard := Function.update w.guard g 1,
        initialising := Function.update w.initialising t (g :: w.initialising t) })
  | .finish g => some ([], { w.goTo t .drop with guard := Function.update w.guard g 2 })
  | .drop => some ([], { w.goTo t .out with guardMutex := 0 })

/-- Calls come from code outside of the two functions; a thread releases the guard
of the initialiser that it has just run. -/
def step (w : Guards τ γ) : Move τ γ → Option (List (Event τ γ) × Guards τ γ)
  | .acquire t g =>
    match w.point t with
    | .out => some ([.acquire t g], w.goTo t (.spin g))
    | _ => none
  | .release t =>
    match w.point t, w.initialising t with
    | .out, g :: outer =>
      some ([.release t g],
        { w.goTo t (.finish g) with initialising := Function.update w.initialising t outer })
    | _, _ => none
  | .go t => w.go t

end Guards

end Hotarubi.Lib.Guard
