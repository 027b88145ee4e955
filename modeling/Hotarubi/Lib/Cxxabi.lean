import Mathlib.Algebra.Group.Nat.Defs

/-! The table of destructors that `__cxa_atexit` fills and `__cxa_finalize` runs. Functions,
objects and handles are of any type, and a null function is `none`. A destructor does
not come back to the table. A result of `none` is a read outside of the table, or more
passes of a loop than the limit allows. -/

namespace Hotarubi.Lib.Cxxabi

variable {φ ω δ : Type} [DecidableEq φ]

def cxxrtMaxAtexitFuncs : Nat := 256

/-- `itanium_cxa_atexit_fn_t` -/
structure AtexitFn (φ ω δ : Type) where
  destructorFunc : Option φ
  pObj : ω
  pDso : δ

structure Atexit (φ ω δ : Type) where
  atexitFuncs : Nat → AtexitFn φ ω δ
  atexitFuncCount : Nat

/-- A slot of the table. -/
def Atexit.slot (s : Atexit φ ω δ) (i : Nat) : Option (AtexitFn φ ω δ) :=
  if i < cxxrtMaxAtexitFuncs then some (s.atexitFuncs i) else none

def Atexit.setSlot (s : Atexit φ ω δ) (i : Nat) (slot : AtexitFn φ ω δ) : Atexit φ ω δ :=
  { s with atexitFuncs := fun j => if j = i then slot else s.atexitFuncs j }

def cxaAtexit (s : Atexit φ ω δ) (destructorFunc : Option φ) (pObj : ω) (pDso : δ) : Int × Atexit φ ω δ :=
  if cxxrtMaxAtexitFuncs ≤ s.atexitFuncCount then (-1, s)
  else
    let s := s.setSlot s.atexitFuncCount { destructorFunc, pObj, pDso }
    (0, { s with atexitFuncCount := s.atexitFuncCount + 1 })

/-- `--i` on a `size_t` -/
def decrement (i : Nat) : Nat := (i + (2 ^ 64 - 1)) % 2 ^ 64

/-- The loop of a request for everything: the slots that it reads and the calls that it makes. -/
def finalizeAll (s : Atexit φ ω δ) : (limit i : Nat) → Option (List Nat × List (φ × ω))
  | 0, _ => none
  | limit + 1, i =>
    let i := decrement i
    if i ≠ 0 then do
      let slot ← s.slot i
      let (reads, calls) ← finalizeAll s limit i
      match slot.destructorFunc with
      | some f => some (i :: reads, (f, slot.pObj) :: calls)
      | none => some (i :: reads, calls)
    else some ([], [])

/-- The loop of a request for one function. -/
def finalizeFunc (f : φ) : (limit i : Nat) → Atexit φ ω δ → Option (List Nat × List (φ × ω) × Atexit φ ω δ)
  | 0, _, _ => none
  | limit + 1, i, s =>
    let i := decrement i
    if i ≠ 0 then do
      let slot ← s.slot i
      if slot.destructorFunc = some f then do
        let (reads, calls, s) ← finalizeFunc f limit i (s.setSlot i { slot with destructorFunc := none })
        some (i :: reads, (f, slot.pObj) :: calls, s)
      else do
        let (reads, calls, s) ← finalizeFunc f limit i s
        some (i :: reads, calls, s)
    else some ([], [], s)

/-- `__cxa_finalize`: the slots that it reads, the calls that it makes, and the table. -/
def cxaFinalize (limit : Nat) (s : Atexit φ ω δ) (destructorFunc : Option φ) :
    Option (List Nat × List (φ × ω) × Atexit φ ω δ) :=
  match destructorFunc with
  | none => (finalizeAll s limit s.atexitFuncCount).map fun (reads, calls) => (reads, calls, s)
  | some f => finalizeFunc f limit s.atexitFuncCount s

end Hotarubi.Lib.Cxxabi
