import Hotarubi.Base.Runs
import Hotarubi.Base.Scan
import Hotarubi.Lib.Cxxabi

/-! Runs of registrations and finalisations. Both loops end before slot 0, so what was
registered first is never finalised, and an empty table sends them around. A request
for everything clears no slot, so what it has called is called again later. -/

namespace Hotarubi.Lib.Cxxabi
open Base

variable {φ ω δ : Type} [DecidableEq φ]

/-- A registration, and the request that has finalised it. -/
structure Registration (φ ω : Type) where
  func : Option φ
  obj : ω
  doneBy : Option (Option φ)
  deriving DecidableEq, Repr

/-- The call that a request asks for, whether or not it has been made. -/
def Registration.asked (target : Option φ) (r : Registration φ ω) : Option (φ × ω) :=
  match r.func with
  | some f => if target = none ∨ target = some f then some (f, r.obj) else none
  | none => none

/-- The call that is still to be made. -/
def Registration.due (target : Option φ) (r : Registration φ ω) : Option (φ × ω) :=
  match r.doneBy with
  | none => r.asked target
  | some _ => none

inductive Event (φ ω δ : Type) where
  | atexit (func : Option φ) (obj : ω) (dso : δ)
  | finalize (target : Option φ)
  deriving DecidableEq, Repr

/-- The calls that an event is to make, in the reverse order of registration. -/
def Event.due (ledger : List (Registration φ ω)) : Event φ ω δ → List (φ × ω)
  | .atexit .. => []
  | .finalize target => (ledger.filterMap (Registration.due target)).reverse

def Event.apply (ledger : List (Registration φ ω)) : Event φ ω δ → List (Registration φ ω)
  | .atexit func obj _ =>
    if ledger.length < cxxrtMaxAtexitFuncs then ledger ++ [{ func, obj, doneBy := none }] else ledger
  | .finalize target =>
    ledger.map fun r => if (r.due target).isSome then { r with doneBy := some target } else r

structure Outcome (φ ω : Type) where
  result : Int
  reads : List Nat
  calls : List (φ × ω)

def Event.exec (limit : Nat) (s : Atexit φ ω δ) : Event φ ω δ → Option (Outcome φ ω × Atexit φ ω δ)
  | .atexit func obj dso =>
    let (result, s) := cxaAtexit s func obj dso
    some ({ result, reads := [], calls := [] }, s)
  | .finalize target =>
    (cxaFinalize limit s target).map fun (reads, calls, s) => ({ result := 0, reads, calls }, s)

abbrev World (φ ω δ : Type) := Atexit φ ω δ × List (Registration φ ω)

def run (limit : Nat) (w : World φ ω δ) (event : Event φ ω δ) : Option (Outcome φ ω × World φ ω δ) :=
  (event.exec limit w.1).map fun (outcome, s) => (outcome, s, event.apply w.2)

/-- A registration is accepted while there is room. A finalisation makes the calls that
are due, in order, and reads no slot without a registration. -/
def Behaves (limit : Nat) (w : World φ ω δ) (event : Event φ ω δ) : Prop :=
  ∃ outcome s, event.exec limit w.1 = some (outcome, s) ∧ outcome.calls = event.due w.2 ∧
    (∀ i ∈ outcome.reads, i < w.2.length) ∧
    (outcome.result = 0 ↔ ∀ func obj dso, event = .atexit func obj dso → w.2.length < cxxrtMaxAtexitFuncs)

/-- There has been a registration, the first one is not to be finalised, and none is asked
for again that a request for everything has finalised. -/
def Reached (ledger : List (Registration φ ω)) : Event φ ω δ → Prop
  | .atexit .. => True
  | .finalize target => ∃ first rest, ledger = first :: rest ∧ first.due target = none ∧
    ∀ r ∈ rest, r.doneBy = some none → r.asked target = none

omit [DecidableEq φ] in
private theorem decrement_succ {i : Nat} (small : i < cxxrtMaxAtexitFuncs) : decrement (i + 1) = i := by
  unfold decrement cxxrtMaxAtexitFuncs at *
  omega

def AtexitFn.call (target : Option φ) (slot : AtexitFn φ ω δ) : Option (φ × ω) :=
  match slot.destructorFunc with
  | some f => if target = none ∨ target = some f then some (f, slot.pObj) else none
  | none => none

/-- A slot after a request: one for everything leaves it as it is. -/
def AtexitFn.after (target : Option φ) (slot : AtexitFn φ ω δ) : AtexitFn φ ω δ :=
  if target ≠ none ∧ slot.destructorFunc = target then { slot with destructorFunc := none } else slot

private theorem range'_calls {α : Type} (call : Nat → Option α) (k : Nat) :
    ((List.range' 1 (k + 1)).filterMap call).reverse =
    (call (k + 1)).toList ++ ((List.range' 1 k).filterMap call).reverse := by
  rw [List.range'_concat, List.filterMap_append, List.reverse_append, Nat.one_mul, Nat.add_comm 1 k]
  cases found : call (k + 1) <;> simp [found]

private theorem range'_reads (k : Nat) : (List.range' 1 (k + 1)).reverse = (k + 1) :: (List.range' 1 k).reverse := by
  rw [List.range'_concat, List.reverse_concat, Nat.one_mul, Nat.add_comm 1 k]

private theorem finalizeAll_eq (s : Atexit φ ω δ) {limit k : Nat} (small : k < cxxrtMaxAtexitFuncs) (enough : k < limit) :
    finalizeAll s limit (k + 1) = some ((List.range' 1 k).reverse,
      ((List.range' 1 k).filterMap fun i => (s.atexitFuncs i).call none).reverse) := by
  induction k generalizing limit with
  | zero =>
    obtain ⟨limit, rfl⟩ := Nat.exists_eq_add_one_of_ne_zero (Nat.ne_of_gt enough)
    rw [finalizeAll, decrement_succ small]
    rfl
  | succ k ih =>
    obtain ⟨limit, rfl⟩ := Nat.exists_eq_add_one_of_ne_zero (Nat.ne_of_gt (Nat.zero_lt_of_lt enough))
    have slot : s.slot (k + 1) = some (s.atexitFuncs (k + 1)) := if_pos small
    have rest := @ih limit (Nat.lt_of_succ_lt small) (Nat.lt_of_succ_lt_succ enough)
    rw [finalizeAll, decrement_succ small, range'_reads, range'_calls]
    simp only [if_pos (Nat.succ_ne_zero k), slot, rest, Option.bind_eq_bind, Option.bind_some]
    cases found : (s.atexitFuncs (k + 1)).destructorFunc <;> simp [AtexitFn.call, found]

omit [DecidableEq φ] in
private theorem setSlot_same (s : Atexit φ ω δ) (i : Nat) : s.setSlot i (s.atexitFuncs i) = s := by
  rw [Atexit.setSlot]
  congr 1
  funext j
  split
  next same => rw [same]
  next => rfl

private theorem AtexitFn.after_missed {f : φ} {slot : AtexitFn φ ω δ} (missed : slot.destructorFunc ≠ some f) :
    slot.after (some f) = slot := if_neg fun both => missed both.2

private theorem AtexitFn.call_missed {f : φ} {slot : AtexitFn φ ω δ} (missed : slot.destructorFunc ≠ some f) :
    slot.call (some f) = none := by
  rw [call]
  split
  next g held =>
    apply if_neg
    intro asked
    rcases asked with absurdity | same
    · cases absurdity
    · exact missed (held.trans same.symm)
  next => rfl

private theorem finalizeFunc_succ (f : φ) (s : Atexit φ ω δ) {limit k : Nat} (small : k + 1 < cxxrtMaxAtexitFuncs) :
    finalizeFunc f (limit + 1) (k + 2) s =
      (finalizeFunc f limit (k + 1) (s.setSlot (k + 1) ((s.atexitFuncs (k + 1)).after (some f)))).map
        fun (reads, calls, s') => ((k + 1) :: reads, ((s.atexitFuncs (k + 1)).call (some f)).toList ++ calls, s') := by
  have slot : s.slot (k + 1) = some (s.atexitFuncs (k + 1)) := if_pos small
  rw [finalizeFunc, decrement_succ small]
  simp only [if_pos (Nat.succ_ne_zero k), slot, Option.bind_eq_bind, Option.bind_some]
  by_cases found : (s.atexitFuncs (k + 1)).destructorFunc = some f
  · have cleared : (s.atexitFuncs (k + 1)).after (some f) = { s.atexitFuncs (k + 1) with destructorFunc := none } :=
      if_pos ⟨Option.some_ne_none f, found⟩
    have call : (s.atexitFuncs (k + 1)).call (some f) = some (f, (s.atexitFuncs (k + 1)).pObj) := by
      simp [AtexitFn.call, found]
    rw [if_pos found, cleared, call]
    cases finalizeFunc f limit (k + 1) _ <;> rfl
  · rw [if_neg found, AtexitFn.after_missed found, AtexitFn.call_missed found, setSlot_same]
    cases finalizeFunc f limit (k + 1) s <;> rfl

private theorem finalizeFunc_eq (f : φ) (s : Atexit φ ω δ) {limit k : Nat} (small : k < cxxrtMaxAtexitFuncs)
    (enough : k < limit) :
    ∃ s', finalizeFunc f limit (k + 1) s = some ((List.range' 1 k).reverse,
        ((List.range' 1 k).filterMap fun i => (s.atexitFuncs i).call (some f)).reverse, s') ∧
      s'.atexitFuncCount = s.atexitFuncCount ∧
      ∀ j, s'.atexitFuncs j = if 1 ≤ j ∧ j ≤ k then (s.atexitFuncs j).after (some f) else s.atexitFuncs j := by
  induction k generalizing limit s with
  | zero =>
    obtain ⟨limit, rfl⟩ := Nat.exists_eq_add_one_of_ne_zero (Nat.ne_of_gt enough)
    refine ⟨s, ?_, rfl, fun j => by rw [if_neg (by omega)]⟩
    rw [finalizeFunc, decrement_succ small]
    rfl
  | succ k ih =>
    obtain ⟨limit, rfl⟩ := Nat.exists_eq_add_one_of_ne_zero (Nat.ne_of_gt (Nat.zero_lt_of_lt enough))
    obtain ⟨s', ran, count, slots⟩ := @ih (s.setSlot (k + 1) ((s.atexitFuncs (k + 1)).after (some f))) limit
      (Nat.lt_of_succ_lt small) (Nat.lt_of_succ_lt_succ enough)
    have below : ∀ i ∈ List.range' 1 k,
        ((s.setSlot (k + 1) ((s.atexitFuncs (k + 1)).after (some f))).atexitFuncs i).call (some f) =
          (s.atexitFuncs i).call (some f) := by
      intro i member
      obtain ⟨_, bound⟩ := List.mem_range'_1.mp member
      rw [Atexit.setSlot]
      simp only [if_neg (show i ≠ k + 1 by omega)]
    refine ⟨s', ?_, count, fun j => ?_⟩
    · rw [finalizeFunc_succ f s small, ran, range'_reads, range'_calls, List.filterMap_congr below]
      rfl
    · rw [slots, Atexit.setSlot]
      by_cases here : j = k + 1
      · subst here
        rw [if_neg (by omega), if_pos ⟨Nat.le_add_left 1 k, Nat.le_refl _⟩]
        exact if_pos rfl
      · have same : (1 ≤ j ∧ j ≤ k + 1) ↔ (1 ≤ j ∧ j ≤ k) := by omega
        simp only [if_neg here, same]

private theorem cxaFinalize_eq (target : Option φ) (s : Atexit φ ω δ) {limit k : Nat} (count : s.atexitFuncCount = k + 1)
    (small : k < cxxrtMaxAtexitFuncs) (enough : k < limit) :
    ∃ s', cxaFinalize limit s target = some ((List.range' 1 k).reverse,
        ((List.range' 1 k).filterMap fun i => (s.atexitFuncs i).call target).reverse, s') ∧
      s'.atexitFuncCount = k + 1 ∧
      ∀ j, s'.atexitFuncs j = if 1 ≤ j ∧ j ≤ k then (s.atexitFuncs j).after target else s.atexitFuncs j := by
  cases target with
  | none =>
    refine ⟨s, ?_, count, fun j => by simp [AtexitFn.after]⟩
    rw [cxaFinalize, count, finalizeAll_eq s small enough]
    rfl
  | some f =>
    obtain ⟨s', ran, count', slots⟩ := finalizeFunc_eq f s small enough
    exact ⟨s', by rw [cxaFinalize, count]; exact ran, count'.trans count, slots⟩

/-- The call that the table still holds: only a request for the function has cleared its slot. -/
def Registration.live (target : Option φ) (r : Registration φ ω) : Option (φ × ω) :=
  match r.doneBy with
  | some (some _) => none
  | _ => r.asked target

private theorem Registration.due_cases (target : Option φ) (r : Registration φ ω) :
    r.due target = none ∨ r.due target = r.live target := by
  obtain ⟨func, obj, doneBy⟩ := r
  cases doneBy with
  | none => exact .inr rfl
  | some by_request => exact .inl rfl

private theorem Registration.live_eq_due (target : Option φ) (r : Registration φ ω) :
    r.live target = r.due target ↔ (r.doneBy = some none → r.asked target = none) := by
  obtain ⟨func, obj, doneBy⟩ := r
  match doneBy with
  | none => simp [live, due]
  | some none => simp [live, due]
  | some (some f) => simp [live, due]

/-- What ties the table to the registrations. The first of them is never finalised, and
it has no function if a request for everything has done its part. -/
structure Kept (s : Atexit φ ω δ) (ledger : List (Registration φ ω)) : Prop where
  count : s.atexitFuncCount = ledger.length
  room : ledger.length ≤ cxxrtMaxAtexitFuncs
  slots : ∀ i r, ledger[i]? = some r → ∀ target, (s.atexitFuncs i).call target = r.live target
  head : ∀ first rest, ledger = first :: rest → first.doneBy = none
  nulled : ∀ first rest, ledger = first :: rest → ∀ r ∈ rest, r.doneBy = some none → first.func = none

variable {s : Atexit φ ω δ} {ledger : List (Registration φ ω)} {limit : Nat}

omit [DecidableEq φ] in
private theorem decrement_zero (s : Atexit φ ω δ) : s.slot (decrement 0) = none := if_neg (by decide)

private theorem cxaFinalize_empty (target : Option φ) (empty : s.atexitFuncCount = 0) : cxaFinalize limit s target =
    none := by
  have around : decrement 0 ≠ 0 := by decide
  cases limit with
  | zero => cases target <;> rfl
  | succ limit =>
    cases target with
    | none => rw [cxaFinalize, empty, finalizeAll, decrement_zero, if_pos around]; rfl
    | some f => rw [cxaFinalize, empty, finalizeFunc, decrement_zero, if_pos around]; rfl

private theorem Kept.finalize {first : Registration φ ω} {rest : List (Registration φ ω)} (kept : Kept s (first :: rest))
    (enough : cxxrtMaxAtexitFuncs ≤ limit) (target : Option φ) :
    ∃ s', (Event.finalize target).exec limit s =
        some (⟨0, (List.range' 1 rest.length).reverse, (rest.filterMap (Registration.live target)).reverse⟩, s') ∧
      s'.atexitFuncCount = rest.length + 1 ∧
      ∀ j, s'.atexitFuncs j = if 1 ≤ j ∧ j ≤ rest.length then (s.atexitFuncs j).after target else s.atexitFuncs j := by
  have room := kept.room
  rw [List.length_cons] at room
  obtain ⟨s', ran, count, slots⟩ := cxaFinalize_eq target s kept.count room (Nat.lt_of_lt_of_le room enough)
  refine ⟨s', ?_, count, slots⟩
  have calls : ((List.range' 1 rest.length).filterMap fun i => (s.atexitFuncs i).call target) =
      rest.filterMap (Registration.live target) := by
    apply filterMap_range'
    intro i r found
    rw [Nat.add_comm]
    exact kept.slots (i + 1) r found target
  rw [Event.exec, ran, calls]
  rfl

private theorem Kept.calls_iff {first : Registration φ ω} {rest : List (Registration φ ω)} (kept : Kept s (first :: rest))
    (target : Option φ) : (rest.filterMap (Registration.live target)).reverse =
      ((first :: rest).filterMap (Registration.due target)).reverse ↔
      first.due target = none ∧ ∀ r ∈ rest, r.doneBy = some none → r.asked target = none := by
  rw [List.reverse_inj]
  cases found : first.due target with
  | none =>
    rw [List.filterMap_cons_none found, filterMap_eq_iff fun r _ => r.due_cases target]
    simp only [Registration.live_eq_due, true_and]
  | some call =>
    refine iff_of_false (fun same => ?_) fun both => by cases both.1
    have named : first.func ≠ none := by
      intro absent
      rw [Registration.due, kept.head first rest rfl, Registration.asked, absent] at found
      cases found
    have agree : rest.filterMap (Registration.live target) = rest.filterMap (Registration.due target) := by
      apply List.filterMap_congr
      intro r member
      apply (r.live_eq_due target).mpr
      intro nulled
      exact absurd (kept.nulled first rest rfl r member nulled) named
    rw [List.filterMap_cons_some found, agree] at same
    have lengths := congrArg List.length same
    rw [List.length_cons] at lengths
    omega

private theorem exec_atexit (kept : Kept s ledger) (func : Option φ) (obj : ω) (dso : δ)
    (room : ledger.length < cxxrtMaxAtexitFuncs) :
    (Event.atexit func obj dso).exec limit s = some ({ result := 0, reads := [], calls := [] },
      { s.setSlot ledger.length { destructorFunc := func, pObj := obj, pDso := dso } with
        atexitFuncCount := ledger.length + 1 }) := by
  have free : ¬cxxrtMaxAtexitFuncs ≤ s.atexitFuncCount := by
    rw [kept.count]
    omega
  rw [Event.exec, cxaAtexit, if_neg free]
  simp only [Atexit.setSlot, kept.count]

private theorem exec_atexit_full (kept : Kept s ledger) (func : Option φ) (obj : ω) (dso : δ)
    (full : ¬ledger.length < cxxrtMaxAtexitFuncs) :
    (Event.atexit func obj dso).exec limit s = some ({ result := -1, reads := [], calls := [] }, s) := by
  have above : cxxrtMaxAtexitFuncs ≤ s.atexitFuncCount := by
    rw [kept.count]
    omega
  rw [Event.exec, cxaAtexit, if_pos above]

private theorem Kept.behaves_iff (kept : Kept s ledger) (enough : cxxrtMaxAtexitFuncs ≤ limit) (event : Event φ ω δ) :
    Behaves limit (s, ledger) event ↔ Reached ledger event := by
  cases event with
  | atexit func obj dso =>
    refine iff_of_true ?_ trivial
    by_cases room : ledger.length < cxxrtMaxAtexitFuncs
    · exact ⟨_, _, exec_atexit kept func obj dso room, rfl, nofun, iff_of_true rfl fun _ _ _ _ => room⟩
    · exact ⟨_, _, exec_atexit_full kept func obj dso room, rfl, nofun,
        iff_of_false (by simp) fun all => room (all func obj dso rfl)⟩
  | finalize target =>
    cases ledger with
    | nil =>
      refine iff_of_false ?_ ?_
      · intro ⟨outcome, s', ran, _⟩
        rw [Event.exec, cxaFinalize_empty target kept.count] at ran
        cases ran
      · intro ⟨first, rest, split, _⟩
        cases split
    | cons first rest =>
      obtain ⟨s', ran, _⟩ := kept.finalize enough target
      constructor
      · intro ⟨outcome, s1, ran1, calls, _⟩
        cases ran.symm.trans ran1
        exact ⟨first, rest, rfl, (kept.calls_iff target).mp calls⟩
      · intro ⟨first', rest', split, condition⟩
        cases split
        refine ⟨_, s', ran, (kept.calls_iff target).mpr condition, ?_, iff_of_true rfl nofun⟩
        intro i member
        rw [List.mem_reverse, List.mem_range'_1] at member
        rw [List.length_cons]
        omega

private theorem AtexitFn.call_some {f : φ} {slot : AtexitFn φ ω δ} : (slot.call (some f)).isSome ↔
    slot.destructorFunc = some f := by
  obtain ⟨func, obj, dso⟩ := slot
  cases func with
  | none => exact iff_of_false Bool.false_ne_true (Option.some_ne_none f).symm
  | some g =>
    simp only [call, reduceCtorEq, false_or]
    by_cases same : some f = some g
    · rw [if_pos same]
      exact iff_of_true rfl same.symm
    · rw [if_neg same]
      exact iff_of_false Bool.false_ne_true (Ne.symm same)

def Registration.after (target : Option φ) (r : Registration φ ω) : Registration φ ω :=
  if (r.due target).isSome then { r with doneBy := some target } else r

/-- What a request leaves in a slot is what is still to be called, if it has not called
again what was finalised before. -/
private theorem call_after {slot : AtexitFn φ ω δ} {r : Registration φ ω}
    (held : ∀ target, slot.call target = r.live target)
    {target : Option φ} (fresh : r.doneBy = some none → r.asked target = none) (other : Option φ) :
    (slot.after target).call other = (r.after target).live other := by
  cases target with
  | none =>
    have kept : slot.after none = slot := if_neg fun both => both.1 rfl
    rw [kept, held other, Registration.after]
    split
    next due =>
      obtain ⟨func, obj, doneBy⟩ := r
      cases doneBy with
      | none => rfl
      | some by_request => cases due
    next => rfl
  | some f =>
    have here : (r.live (some f)).isSome ↔ slot.destructorFunc = some f := by rw [← held, AtexitFn.call_some]
    rw [Registration.after, ← (r.live_eq_due (some f)).mpr fresh]
    by_cases found : slot.destructorFunc = some f
    · rw [if_pos (here.mpr found), AtexitFn.after, if_pos ⟨Option.some_ne_none f, found⟩]
      rfl
    · rw [if_neg (mt here.mp found), AtexitFn.after, if_neg fun both => found both.2]
      exact held other

theorem Kept.register (kept : Kept s ledger) (func : Option φ) (obj : ω) (dso : δ)
    (room : ledger.length < cxxrtMaxAtexitFuncs) :
    Kept { s.setSlot ledger.length { destructorFunc := func, pObj := obj, pDso := dso } with
      atexitFuncCount := ledger.length + 1 } (ledger ++ [{ func, obj, doneBy := none }]) := by
  refine ⟨by simp, by rwa [List.length_append], fun i r found target => ?_, fun first rest split => ?_,
    fun first rest split r member nulled => ?_⟩
  · rw [List.getElem?_append] at found
    simp only [Atexit.setSlot]
    split at found
    next before =>
      rw [if_neg (Nat.ne_of_lt before)]
      exact kept.slots i r found target
    next behind =>
      have here : i = ledger.length := by
        have bound := (List.getElem?_eq_some_iff.mp found).1
        rw [List.length_singleton] at bound
        omega
      subst here
      rw [Nat.sub_self] at found
      cases found
      rw [if_pos rfl]
      rfl
  · cases ledger with
    | nil =>
      cases split
      rfl
    | cons old ledger =>
      obtain ⟨rfl, -⟩ := List.cons.inj split
      exact kept.head old ledger rfl
  · cases ledger with
    | nil =>
      cases split
      cases member
    | cons old ledger =>
      obtain ⟨rfl, rfl⟩ := List.cons.inj split
      rcases List.mem_append.mp member with before | new
      · exact kept.nulled old ledger rfl r before nulled
      · rw [List.mem_singleton.mp new] at nulled
        cases nulled

private theorem Kept.finalized {first : Registration φ ω} {rest : List (Registration φ ω)} {s' :
    Atexit φ ω δ} {target : Option φ}
    (kept : Kept s (first :: rest)) (spared : first.due target = none)
    (fresh : ∀ r ∈ rest, r.doneBy = some none → r.asked target = none) (count : s'.atexitFuncCount = rest.length + 1)
    (slots : ∀ j, s'.atexitFuncs j =
      if 1 ≤ j ∧ j ≤ rest.length then (s.atexitFuncs j).after target else s.atexitFuncs j) :
    Kept s' (first :: rest.map (Registration.after target)) := by
  have untouched : first.doneBy = none := kept.head first rest rfl
  refine ⟨by simpa using count, by simpa using kept.room, fun i r found other => ?_, fun first' rest' split => ?_,
    fun first' rest' split r member nulled => ?_⟩
  · cases i with
    | zero =>
      rw [slots, if_neg (by omega)]
      exact kept.slots 0 r found other
    | succ i =>
      rw [List.getElem?_cons_succ, List.getElem?_map] at found
      obtain ⟨old, before, rfl⟩ := Option.map_eq_some_iff.mp found
      have bound := (List.getElem?_eq_some_iff.mp before).1
      rw [slots, if_pos ⟨Nat.le_add_left 1 i, bound⟩]
      exact call_after (kept.slots (i + 1) old before) (fresh old (List.mem_of_getElem? before)) other
  · cases split
    exact untouched
  · cases split
    obtain ⟨old, before, rfl⟩ := List.mem_map.mp member
    rw [Registration.after] at nulled
    split at nulled
    next =>
      obtain rfl : target = none := Option.some.inj nulled
      rw [Registration.due, untouched, Registration.asked] at spared
      cases absent : first.func with
      | none => rfl
      | some f =>
        rw [absent] at spared
        cases spared
    next => exact kept.nulled first rest rfl old before nulled

theorem Kept.step (kept : Kept s ledger) (enough : cxxrtMaxAtexitFuncs ≤ limit) {event : Event φ ω δ}
    (reached : Reached ledger event) :
    ∃ outcome s', event.exec limit s = some (outcome, s') ∧ Kept s' (event.apply ledger) := by
  cases event with
  | atexit func obj dso =>
    by_cases room : ledger.length < cxxrtMaxAtexitFuncs
    · refine ⟨_, _, exec_atexit kept func obj dso room, ?_⟩
      rw [Event.apply, if_pos room]
      exact kept.register func obj dso room
    · refine ⟨_, _, exec_atexit_full kept func obj dso room, ?_⟩
      rwa [Event.apply, if_neg room]
  | finalize target =>
    obtain ⟨first, rest, rfl, spared, fresh⟩ := reached
    obtain ⟨s', ran, count, slots⟩ := kept.finalize enough target
    have same : (Event.finalize target : Event φ ω δ).apply (first :: rest) =
        first :: rest.map (Registration.after target) := by
      rw [Event.apply, List.map_cons, spared]
      rfl
    refine ⟨_, s', ran, ?_⟩
    rw [same]
    exact kept.finalized spared fresh count slots

private theorem Kept.run_iff (enough : cxxrtMaxAtexitFuncs ≤ limit) (events : List (Event φ ω δ)) (kept : Kept s ledger) :
    EachStep (run limit) (Behaves limit) (s, ledger) events ↔ EachEdit Event.apply Reached ledger events := by
  induction events generalizing s ledger with
  | nil => exact Iff.rfl
  | cons event events ih =>
    rw [EachEdit]
    by_cases reached : Reached ledger event
    · obtain ⟨outcome, s', ran, kept'⟩ := kept.step enough reached
      have step : run limit (s, ledger) event = some (outcome, s', event.apply ledger) := by
        rw [run, ran]
        rfl
      rw [eachStep_cons step, kept.behaves_iff enough event, ih kept']
    · refine iff_of_false (fun all => ?_) fun both => reached both.1
      exact reached ((kept.behaves_iff enough event).mp all.1)

/-- A run behaves as long as no finalisation has to come to the first slot or meets an
empty table, and none comes back to what a request for everything has called. -/
theorem finalizers_run_iff (enough : cxxrtMaxAtexitFuncs ≤ limit) (empty : s.atexitFuncCount = 0)
    (events : List (Event φ ω δ)) :
    EachStep (run limit) (Behaves limit) (s, []) events ↔ EachEdit Event.apply Reached [] events := by
  have start : Kept s [] := ⟨empty, Nat.zero_le _, nofun, nofun, nofun⟩
  exact start.run_iff enough events

/-- The table as it is before the first registration. -/
def blank : Atexit Nat Nat Nat :=
  { atexitFuncs := fun _ => { destructorFunc := none, pObj := 0, pDso := 0 }, atexitFuncCount := 0 }

theorem finalizers_run_iff_witness :
    EachStep (run 256) (Behaves 256) (blank, [])
      [.atexit none 0 0, .atexit (some 1) 10 0, .atexit (some 2) 20 0, .finalize (some 1), .finalize none] := by
  apply (finalizers_run_iff (Nat.le_refl 256) rfl _).mpr
  refine ⟨trivial, trivial, trivial, ⟨_, _, rfl, rfl, ?_⟩, ⟨_, _, rfl, rfl, ?_⟩, trivial⟩ <;>
    · intro r member nulled
      simp [Registration.due, Registration.asked] at member
      rcases member with rfl | rfl <;> cases nulled

/-- The only destructor is not called, and without one the loop leaves the table. -/
theorem cxaFinalize_skips_first :
    ¬EachStep (run 256) (Behaves 256) (blank, []) [.atexit (some 1) 10 0, .finalize none] ∧
      ¬EachStep (run 256) (Behaves 256) (blank, []) [.finalize none] := by
  have start : Kept blank [] := ⟨rfl, Nat.zero_le _, nofun, nofun, nofun⟩
  constructor
  · intro all
    obtain ⟨-, ⟨first, rest, split, spared, -⟩, -⟩ := (start.run_iff (Nat.le_refl 256) _).mp all
    cases split
    cases spared
  · intro all
    obtain ⟨⟨first, rest, split, -⟩, -⟩ := (start.run_iff (Nat.le_refl 256) _).mp all
    cases split

end Hotarubi.Lib.Cxxabi
