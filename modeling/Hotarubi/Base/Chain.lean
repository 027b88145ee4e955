import Mathlib.Data.List.Nodup
import Mathlib.Logic.Function.Basic

/-! Circular chains of singly linked nodes: the sequence of nodes met from a
head until the links lead back to it. -/

namespace Hotarubi.Base.Chain

variable {ν : Type*} {next next' : ν → Option ν} {a b h e : ν} {xs ys : List ν}

/-- The links lead from `a` through `xs` to `b`. -/
def Leads (next : ν → Option ν) : ν → List ν → ν → Prop
  | a, [], b => next a = some b
  | a, x :: xs, b => next a = some x ∧ Leads next x xs b

/-- The head `h` and the nodes `xs` behind it, without repetition. -/
structure IsChain (next : ν → Option ν) (h : ν) (xs : List ν) : Prop where
  leads : Leads next h xs h
  nodup : (h :: xs).Nodup

theorem leads_congr (same : ∀ x ∈ a :: xs, next' x = next x) : Leads next' a xs b ↔ Leads next a xs b := by
  induction xs generalizing a with
  | nil => simp only [Leads, same a List.mem_cons_self]
  | cons x xs ih =>
    rw [Leads, Leads, same a List.mem_cons_self, ih fun y member => same y (List.mem_cons_of_mem _ member)]

theorem IsChain.congr (chain : IsChain next h xs) (same : ∀ x ∈ h :: xs, next' x = next x) : IsChain next' h xs :=
  ⟨(leads_congr same).mpr chain.leads, chain.nodup⟩

theorem leads_append {y : ν} : Leads next a (xs ++ y :: ys) b ↔ Leads next a xs y ∧ Leads next y ys b := by
  induction xs generalizing a with
  | nil => rfl
  | cons x xs ih => rw [List.cons_append, Leads, Leads, ih, and_assoc]

/-- A walk with enough fuel that ends at `h` meets the nodes in front of it. `f` is the
walk from a node on, and `g` what it comes to for the nodes that are met. -/
theorem walk_leads {γ : Type*} {f : Nat → Option ν → γ} {g : List ν → γ} (leads : Leads next a xs h) (outside : h ∉ xs)
    (done : ∀ limit, f (limit + 1) (some h) = g [])
    (more : ∀ limit x rest, x ≠ h → f limit (next x) = g rest → f (limit + 1) (some x) = g (x :: rest))
    {limit : Nat} (enough : xs.length < limit) : f limit (next a) = g xs := by
  induction xs generalizing a limit with
  | nil =>
    obtain ⟨limit, rfl⟩ := Nat.exists_eq_add_one_of_ne_zero (Nat.ne_of_gt enough)
    rw [show next a = some h from leads]
    exact done limit
  | cons x xs ih =>
    obtain ⟨limit, rfl⟩ := Nat.exists_eq_add_one_of_ne_zero (Nat.ne_of_gt (Nat.zero_lt_of_lt enough))
    have other : x ≠ h := fun same => outside (same ▸ List.mem_cons_self)
    rw [leads.1]
    apply more limit x xs other
    exact ih leads.2 (fun member => outside (List.mem_cons_of_mem _ member)) (by simpa using enough)

theorem rotate_perm (h y : ν) (xs ys : List ν) : (y :: (ys ++ h :: xs)).Perm (h :: (xs ++ y :: ys)) := by
  have same := @List.perm_append_comm _ (y :: ys) (h :: xs)
  simpa using same

/-- Every node of a chain can serve as its head. -/
theorem IsChain.rotate {y : ν} (chain : IsChain next h (xs ++ y :: ys)) : IsChain next y (ys ++ h :: xs) := by
  obtain ⟨before, behind⟩ := leads_append.mp chain.leads
  exact ⟨leads_append.mpr ⟨behind, before⟩, (rotate_perm h y xs ys).nodup_iff.mpr chain.nodup⟩

theorem IsChain.first (chain : IsChain next h xs) : next h = some (xs.headD h) := by
  cases xs with
  | nil => exact chain.leads
  | cons x xs => exact chain.leads.1

theorem IsChain.behind {x : ν} (chain : IsChain next h (xs ++ x :: ys)) : x ≠ h ∧ next x = some (ys.headD h) := by
  refine ⟨fun same => (List.nodup_cons.mp chain.nodup).1 (same ▸ List.mem_append_right _ List.mem_cons_self), ?_⟩
  rw [chain.rotate.first]
  cases ys <;> rfl

theorem isChain_nil (loop : next h = some h) : IsChain next h [] := ⟨loop, by simp⟩

theorem IsChain.unique (left : IsChain next h xs) (right : IsChain next h ys) : xs = ys := by
  have meet : ∀ (xs ys : List ν) (a : ν), Leads next a xs h → Leads next a ys h → h ∉ xs → h ∉ ys → xs = ys := by
    intro xs
    induction xs with
    | nil =>
      intro ys a one two _ outside
      cases ys with
      | nil => rfl
      | cons y ys =>
        have same : h = y := Option.some.inj (one.symm.trans two.1)
        exact absurd (same ▸ List.mem_cons_self) outside
    | cons x xs ih =>
      intro ys a one two outside outside'
      cases ys with
      | nil =>
        have same : x = h := Option.some.inj (one.1.symm.trans two)
        exact absurd (same ▸ List.mem_cons_self) outside
      | cons y ys =>
        obtain rfl : x = y := Option.some.inj (one.1.symm.trans two.1)
        rw [ih ys x one.2 two.2 (fun member => outside (List.mem_cons_of_mem _ member))
          fun member => outside' (List.mem_cons_of_mem _ member)]
  exact meet xs ys h left.leads right.leads (List.nodup_cons.mp left.nodup).1 (List.nodup_cons.mp right.nodup).1

variable [DecidableEq ν]

/-- A new node between the head and its successor. -/
theorem IsChain.push (chain : IsChain next h xs) (fresh : e ∉ h :: xs) :
    IsChain (Function.update (Function.update next e (next h)) h (some e)) h (e :: xs) := by
  obtain ⟨other, outside⟩ := not_or.mp (List.mem_cons.not.mp fresh)
  obtain ⟨start, rest⟩ := List.nodup_cons.mp chain.nodup
  refine ⟨⟨by simp, ?_⟩, ?_⟩
  · cases xs with
    | nil =>
      rw [Leads, Function.update_of_ne other, Function.update_self]
      exact chain.leads
    | cons x xs =>
      refine ⟨by rw [Function.update_of_ne other, Function.update_self]; exact chain.leads.1, ?_⟩
      refine (leads_congr fun y member => ?_).mpr chain.leads.2
      rw [Function.update_of_ne (ne_of_mem_of_not_mem member start),
        Function.update_of_ne (ne_of_mem_of_not_mem member outside)]
  · rw [List.nodup_cons, List.mem_cons, List.nodup_cons]
    exact ⟨not_or.mpr ⟨Ne.symm other, start⟩, outside, rest⟩

/-- The node behind the head leaves, whatever its own link is set to. -/
theorem IsChain.pop {x : ν} {value : Option ν} (chain : IsChain next h (x :: xs)) :
    IsChain (Function.update (Function.update next h (next x)) x value) h xs := by
  obtain ⟨start, rest⟩ := List.nodup_cons.mp chain.nodup
  obtain ⟨gone, distinct⟩ := List.nodup_cons.mp rest
  have other : h ≠ x := fun same => start (same ▸ List.mem_cons_self)
  have start' : h ∉ xs := fun member => start (List.mem_cons_of_mem _ member)
  refine ⟨?_, List.nodup_cons.mpr ⟨start', distinct⟩⟩
  have tail := chain.leads.2
  cases xs with
  | nil =>
    rw [Leads, Function.update_of_ne other, Function.update_self]
    exact tail
  | cons y ys =>
    refine ⟨by rw [Function.update_of_ne other, Function.update_self]; exact tail.1, ?_⟩
    refine (leads_congr fun z member => ?_).mpr tail.2
    rw [Function.update_of_ne (ne_of_mem_of_not_mem member gone),
      Function.update_of_ne (ne_of_mem_of_not_mem member start')]

/-- The node behind another one leaves. -/
theorem IsChain.drop {p x : ν} {value : Option ν} (chain : IsChain next h (xs ++ p :: x :: ys)) :
    IsChain (Function.update (Function.update next p (next x)) x value) h (xs ++ p :: ys) := by
  have turned : IsChain next p (x :: (ys ++ h :: xs)) := chain.rotate
  exact turned.pop.rotate

end Hotarubi.Base.Chain
