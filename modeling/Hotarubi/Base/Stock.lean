import Mathlib.Data.Finset.Card
import Mathlib.Data.Set.Basic

/-! Things made from a stock, each of them once: what a task needs is there already or
is taken from the stock. -/

namespace Hotarubi.Base.Stock

variable {α : Type} {made made' made'' : Set α} {need later : Finset α} {stock stock' stock'' : Nat}

open Classical in
/-- How much of a need is still to be made. -/
noncomputable def due (made : Set α) (need : Finset α) : Nat := (need.filter fun x => x ∉ made).card

/-- A task made what it needs and found missing, and nothing else. -/
structure Drawn (need : Finset α) (made made' : Set α) (stock stock' : Nat) : Prop where
  adds : ∀ x, x ∈ made' ↔ x ∈ made ∨ x ∈ need
  spends : stock' + due made need = stock

theorem due_of_none (none : ∀ x, x ∉ made) : due made need = need.card := by
  classical
  rw [due, Finset.filter_true_of_mem fun x _ => none x]

/-- What a task lacks, the task together with others lacks. -/
theorem due_mono (part : need ⊆ later) : due made need ≤ due made later := by
  classical
  exact Finset.card_le_card (Finset.filter_subset_filter _ part)

variable [DecidableEq α]

theorem due_union (adds : ∀ x, x ∈ made' ↔ x ∈ made ∨ x ∈ need) :
    due made (need ∪ later) = due made need + due made' later := by
  classical
  have split : ((need ∪ later).filter fun x => x ∉ made) =
      (need.filter fun x => x ∉ made) ∪ later.filter fun x => x ∉ made' := by
    ext x
    simp only [Finset.mem_filter, Finset.mem_union, adds]
    tauto
  have apart : Disjoint (need.filter fun x => x ∉ made) (later.filter fun x => x ∉ made') := by
    rw [Finset.disjoint_left]
    intro x first second
    exact (Finset.mem_filter.mp second).2 ((adds x).mpr (.inr (Finset.mem_filter.mp first).1))
  rw [due, split, Finset.card_union_of_disjoint apart, due, due]

theorem Drawn.trans (first : Drawn need made made' stock stock') (second : Drawn later made' made'' stock' stock'') :
    Drawn (need ∪ later) made made'' stock stock'' := by
  constructor
  · intro x
    rw [second.adds, first.adds, Finset.mem_union, or_assoc]
  · have spent := first.spends
    have spent' := second.spends
    rw [due_union first.adds]
    omega

/-- After a task that was served, the stock is enough for the rest exactly if it was
enough for both. -/
theorem Drawn.enough_iff (first : Drawn need made made' stock stock') (later : Finset α) :
    due made (need ∪ later) ≤ stock ↔ due made' later ≤ stock' := by
  have spent := first.spends
  rw [due_union first.adds]
  omega

section FirstFit
variable {β : Type} [LinearOrder β] {taken free : Finset β}

end FirstFit

end Hotarubi.Base.Stock
