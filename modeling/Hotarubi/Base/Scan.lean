import Mathlib.Data.List.Basic

/-! Counting loops that leave at their first hit, together with a log of the
memory they read before leaving. -/

namespace Hotarubi.Base

variable {ι α β : Type}

/-- Run `probe` on each item until one of them yields a hit. -/
def scan (probe : ι → Option β × List α) : List ι → Option β × List α
  | [] => (none, [])
  | i :: rest =>
    match probe i with
    | (some hit, reads) => (some hit, reads)
    | (none, reads) =>
      let later := scan probe rest
      (later.1, reads ++ later.2)

theorem scan_cons (probe : ι → Option β × List α) (i : ι) (rest : List ι) :
    scan probe (i :: rest) =
      if (probe i).1.isSome then probe i
      else ((scan probe rest).1, (probe i).2 ++ (scan probe rest).2) := by
  rcases seen : probe i with ⟨_ | hit, reads⟩ <;> simp [scan, seen]

/-- Dropping the log leaves an ordinary search for the first hit. -/
theorem scan_fst (probe : ι → Option β × List α) (items : List ι) :
    (scan probe items).1 = items.findSome? fun i => (probe i).1 := by
  induction items with
  | nil => rfl
  | cons i rest ih =>
    rw [scan_cons, List.findSome?_cons]
    cases seen : (probe i).1 with
    | none => simpa [seen] using ih
    | some hit => simp [seen]

private theorem sorted_before {items before after : List Nat} {i j : Nat}
    (sorted : items.Pairwise (· < ·)) (split : items = before ++ i :: after)
    (member : j ∈ items) (below : j < i) : j ∈ before := by
  subst split
  have later := (List.pairwise_cons.mp (List.pairwise_append.mp sorted).2.1).1
  rcases List.mem_append.mp member with inside | inside
  · exact inside
  · rcases List.mem_cons.mp inside with same | inside
    · omega
    · have := later j inside
      omega

/-- A search over increasing indices finds the least one that hits. -/
theorem findSome?_sorted {f : Nat → Option β} {items : List Nat} {hit : β}
    (sorted : items.Pairwise (· < ·)) (found : items.findSome? f = some hit) :
    ∃ i ∈ items, f i = some hit ∧ ∀ j ∈ items, j < i → f j = none := by
  obtain ⟨before, i, after, split, here, misses⟩ := List.findSome?_eq_some_iff.mp found
  exact ⟨i, by simp [split], here, fun j member below => misses j (sorted_before sorted split member below)⟩

theorem find?_sorted {accepts : Nat → Bool} {items : List Nat} {hit : Nat} (sorted : items.Pairwise (· < ·)) :
    items.find? accepts = some hit ↔ hit ∈ items ∧ accepts hit ∧ ∀ j ∈ items, j < hit → accepts j = false := by
  rw [List.find?_eq_some_iff_append]
  refine ⟨?_, ?_⟩
  · intro found
    obtain ⟨here, before, after, split, misses⟩ := found
    refine ⟨by simp [split], here, ?_⟩
    intro j member below
    have missed := misses j (sorted_before sorted split member below)
    simpa using missed
  · intro first
    obtain ⟨member, here, misses⟩ := first
    obtain ⟨before, after, split⟩ := List.append_of_mem member
    refine ⟨here, before, after, split, ?_⟩
    intro j inside
    rw [split] at sorted
    have below := (List.pairwise_append.mp sorted).2.2 j inside hit List.mem_cons_self
    simp [misses j (by simp [split, inside]) below]

/-- Everything in the log was read by a probe, all of whose predecessors missed. -/
theorem mem_scan_snd {probe : ι → Option β × List α} {items : List ι} {a : α}
    (read : a ∈ (scan probe items).2) :
    ∃ before i after, items = before ++ i :: after ∧ (∀ j ∈ before, (probe j).1 = none) ∧
      a ∈ (probe i).2 := by
  induction items with
  | nil => simp [scan] at read
  | cons i rest ih =>
    rw [scan_cons] at read
    split at read
    next => exact ⟨[], i, rest, rfl, by simp, read⟩
    next missed =>
      rcases List.mem_append.mp read with here | later
      · exact ⟨[], i, rest, rfl, by simp, here⟩
      · obtain ⟨before, j, after, rfl, misses, inside⟩ := ih later
        refine ⟨i :: before, j, after, rfl, ?_, inside⟩
        intro k member
        rcases List.mem_cons.mp member with rfl | member
        · simpa using missed
        · exact misses k member

theorem mem_scan_snd_sorted {probe : Nat → Option β × List α} {items : List Nat} {a : α}
    (sorted : items.Pairwise (· < ·)) (read : a ∈ (scan probe items).2) :
    ∃ i ∈ items, (∀ j ∈ items, j < i → (probe j).1 = none) ∧ a ∈ (probe i).2 := by
  obtain ⟨before, i, after, split, misses, inside⟩ := mem_scan_snd read
  exact ⟨i, by simp [split],
    fun j member below => misses j (sorted_before sorted split member below), inside⟩

theorem length_filterMap_le {f g : α → Option β} {l : List α}
    (part : ∀ i ∈ l, g i = none ∨ g i = f i) : (l.filterMap g).length ≤ (l.filterMap f).length := by
  induction l with
  | nil => exact Nat.le_refl _
  | cons i l ih =>
    have rest := ih fun j member => part j (List.mem_cons_of_mem _ member)
    rcases part i List.mem_cons_self with absent | same
    · rw [List.filterMap_cons_none absent]
      apply Nat.le_trans rest
      cases found : f i with
      | none => exact Nat.le_of_eq (congrArg List.length (List.filterMap_cons_none found).symm)
      | some y => simp [List.filterMap_cons_some found]
    · cases found : f i with
      | none => simpa [List.filterMap_cons, same, found] using rest
      | some y => simpa [List.filterMap_cons, same, found] using rest

/-- A selection that answers with the whole leaves nothing out. -/
theorem filterMap_eq_iff {f g : α → Option β} {l : List α} (part : ∀ i ∈ l, g i = none ∨ g i = f i) :
    l.filterMap f = l.filterMap g ↔ ∀ i ∈ l, f i = g i := by
  refine ⟨fun same => ?_, fun same => List.filterMap_congr same⟩
  induction l with
  | nil => simp
  | cons i l ih =>
    have later := fun j member => part j (List.mem_cons_of_mem i member)
    have fewer := length_filterMap_le later
    have agree : f i = g i ∧ l.filterMap f = l.filterMap g := by
      rcases part i List.mem_cons_self with absent | equal
      · cases found : f i with
        | none => exact ⟨absent.symm, by simpa [List.filterMap_cons, absent, found] using same⟩
        | some y =>
          rw [List.filterMap_cons_none absent, List.filterMap_cons_some found] at same
          have lengths := congrArg List.length same
          rw [List.length_cons] at lengths
          omega
      · refine ⟨equal.symm, ?_⟩
        simp only [List.filterMap_cons, equal] at same
        cases found : f i with
        | none => simpa only [found] using same
        | some y => simpa only [found, List.cons.injEq, true_and] using same
    simp only [List.forall_mem_cons]
    exact ⟨agree.1, ih later agree.2⟩

/-- A selection by places is one of what stands there. -/
theorem filterMap_range' {g : Nat → Option β} {h : α → Option β} {l : List α} {start : Nat}
    (same : ∀ i x, l[i]? = some x → g (start + i) = h x) : (List.range' start l.length).filterMap g = l.filterMap h := by
  induction l generalizing start with
  | nil => rfl
  | cons x l ih =>
    have here : g start = h x := same 0 x rfl
    have later := @ih (start + 1) fun i y found => by
      rw [Nat.add_assoc, Nat.add_comm 1]
      exact same (i + 1) y found
    rw [List.length_cons, List.range'_succ, List.filterMap_cons, List.filterMap_cons, here, later]

end Hotarubi.Base
