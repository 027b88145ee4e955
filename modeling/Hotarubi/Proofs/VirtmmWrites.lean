import Hotarubi.Proofs.VirtmmCapacity

/-! What making an address space writes to: the pages that physmm gives for it and no
others, and these are the lowest that are free. -/

namespace Hotarubi.Memory.Virtmm
open Base Radix

section Writes

variable {σ : Type} {pages : PageSource σ} {base : UInt64} {valid : σ → Prop} {live : σ → UInt64 → Prop}
  {spare : σ → Nat} {root : UInt64} {s s' s'' : State σ}

/-- From one state to the next only pages in use were written. -/
structure Writes (base : UInt64) (live : σ → UInt64 → Prop) (s s' : State σ) : Prop where
  grows : ∀ w, live s.physmm w → live s'.physmm w
  keeps : ∀ w, IsFrame w → ¬ live s'.physmm w → ∀ j, s'.mem (slot (w + base) j) = s.mem (slot (w + base) j)

theorem Writes.refl (s : State σ) : Writes base live s s := ⟨fun _ used => used, fun _ _ _ _ => rfl⟩

theorem Writes.trans (first : Writes base live s s') (second : Writes base live s' s'') : Writes base live s s'' := by
  constructor
  · intro w used
    exact second.grows w (first.grows w used)
  · intro w inside free j
    rw [second.keeps w inside free, first.keeps w inside fun used => free (second.grows w used)]

end Writes

section FirstFit

variable {m0 m : Physmm.State}

/-- physmm with more pages in use than it had: those that were free and come first. -/
structure Lowest (m0 m : Physmm.State) : Prop extends Balanced 0 m where
  extent : m.mapBits = m0.mapBits
  searched : m.searched = m0.searched
  kept : ∀ i, m0.used i = true → m.used i = true
  lowest : ∀ i, m.used i = true → m0.used i = false → i < m0.mapBits ∧ i < m0.searched ∧ ∀ j < i, m.used j = true

/-- A page that was free is in use. -/
def Fresh (m0 m : Physmm.State) (page : UInt64) : Prop := Taken m page ∧ ¬ Taken m0 page

theorem Lowest.start (balanced : Balanced 0 m) : Lowest m m := by
  refine ⟨balanced, rfl, rfl, fun _ used => used, fun i used free => ?_⟩
  rw [used] at free
  cases free

theorem Lowest.keeps (state : Lowest m0 m) (flags : Physmm.Flags) : Lowest m0 (Physmm.allocPage m flags).2 := by
  have counted := physmm_counted 0
  have balanced := counted.keeps m flags state.toBalanced
  cases answer : (Physmm.allocPage m flags).1 with
  | none =>
    rw [Physmm.allocPage_refused answer]
    exact state
  | some ptr =>
    obtain ⟨page, _, inside, free, earlier, _, _, after⟩ := Physmm.allocPage_some state.sound answer
    obtain ⟨i, _, found, clear⟩ :=
      Physmm.spare_pos.mp ((Physmm.allocPage_granted_iff state.accounted state.reserved flags).mp ⟨ptr, answer⟩)
    have first : page ≤ i := by
      by_contra above
      rw [earlier i (by omega)] at clear
      cases clear
    have layout := (Physmm.Call.allocPage flags).exec_layout m
    have extent : (Physmm.allocPage m flags).2.mapBits = m.mapBits := layout.mapBits
    have words : (Physmm.allocPage m flags).2.searched = m.searched :=
      congrArg (fun size : UInt32 => 32 * (size / 4).toNat) layout.size
    refine ⟨balanced, extent.trans state.extent, words.trans state.searched, fun j used => ?_, fun j used new => ?_⟩
    · rw [after, state.kept j used, Bool.true_or]
    · rw [after, Bool.or_eq_true, decide_eq_true_eq] at used
      have below {k : Nat} (used : m.used k = true) : (Physmm.allocPage m flags).2.used k = true := by
        rw [after, used, Bool.true_or]
      rcases used with before | rfl
      · obtain ⟨inside', found', lower⟩ := state.lowest j before new
        exact ⟨inside', found', fun k less => below (lower k less)⟩
      · rw [state.extent] at inside
        rw [state.searched] at found
        exact ⟨inside, by omega, fun k less => below (earlier k less)⟩

end FirstFit

end Hotarubi.Memory.Virtmm
