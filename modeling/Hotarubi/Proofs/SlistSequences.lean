import Hotarubi.Base.Runs
import Hotarubi.Proofs.ListSequences

/-! The singly linked lists of list.h as sequences. `slist_add_tail` looks for a null
link, which no chain has, and so an element is lost unless the list was empty. -/

namespace Hotarubi.Include
open Base Chain

variable {ν : Type*} [DecidableEq ν] {next : ν → Option ν} {h elem : ν} {xs us vs : List ν}

inductive SlistCall (ν : Type*) where
  | add (elem : ν)
  | addTail (elem : ν)
  | del (elem : ν)
  deriving DecidableEq, Repr

def SlistCall.exec (head : ν) (limit : Nat) (next : ν → Option ν) : SlistCall ν → Option (ν → Option ν)
  | .add elem => some (slistAdd next head elem)
  | .addTail elem => slistAddTail next head elem limit
  | .del elem => slistDel next head elem limit

def SlistCall.edit (xs : List ν) : SlistCall ν → List ν
  | .add elem => elem :: xs
  | .addTail elem => xs ++ [elem]
  | .del elem => xs.erase elem

/-- New elements are not in the list yet, the others are. -/
def SlistCall.Permitted (head : ν) (xs : List ν) : SlistCall ν → Prop
  | .add elem | .addTail elem => elem ∉ head :: xs
  | .del elem => elem ∈ xs

/-- An element is added at the tail of an empty list only. -/
def SlistCall.Kept (xs : List ν) : SlistCall ν → Prop
  | .addTail _ => xs = []
  | .add _ | .del _ => True

/-- The list is well formed, and the loop meets the elements of the sequence. -/
structure SlistHolds (next : ν → Option ν) (head : ν) (xs : List ν) : Prop where
  chain : IsChain next head xs
  visits : ∀ limit, xs.length < limit → slistVisit next head gather limit [] = some xs

private theorem initSlist_chain (next : ν → Option ν) (head : ν) : IsChain (initSlist next head) head [] :=
  isChain_nil (Function.update_self ..)

private theorem slistHolds_of_chain (chain : IsChain next h xs) : SlistHolds next h xs := by
  refine ⟨chain, fun limit enough => ?_⟩
  have leads : Leads ({ next, prev := fun _ => none } : Links ν).next h xs h := chain.leads
  have all := visitFrom_leads leads (List.nodup_cons.mp chain.nodup).1 gather enough []
  rw [foldlM_gather, List.nil_append] at all
  exact all

private theorem slistDelFrom_leads {p : ν} {limit : Nat} (leads : Leads next p vs elem) (outside : h ∉ p :: vs)
    (missing : elem ∉ vs) (enough : vs.length < limit) : slistDelFrom next h elem limit (some p) =
      some (Function.update (Function.update next (vs.getLastD p) (next elem)) elem none) := by
  induction vs generalizing p limit with
  | nil =>
    obtain ⟨limit, rfl⟩ := Nat.exists_eq_add_one_of_ne_zero (Nat.ne_of_gt enough)
    have other : p ≠ h := fun same => outside (same ▸ List.mem_cons_self)
    have link : next p = some elem := leads
    rw [slistDelFrom, if_neg other, if_pos link]
    rfl
  | cons v vs ih =>
    obtain ⟨limit, rfl⟩ := Nat.exists_eq_add_one_of_ne_zero (Nat.ne_of_gt (Nat.zero_lt_of_lt enough))
    have other : p ≠ h := fun same => outside (same ▸ List.mem_cons_self)
    have before : next p ≠ some elem := by
      rw [leads.1]
      intro same
      exact missing (Option.some.inj same ▸ List.mem_cons_self)
    rw [slistDelFrom, if_neg other, if_neg before, leads.1, List.getLastD_cons]
    exact ih leads.2 (fun member => outside (List.mem_cons_of_mem _ member))
      (fun member => missing (List.mem_cons_of_mem _ member)) (by simpa using enough)

theorem slistDel_chain {limit : Nat} (chain : IsChain next h (us ++ elem :: vs)) (enough : us.length < limit) :
    ∃ next', slistDel next h elem limit = some next' ∧ IsChain next' h (us ++ vs) := by
  cases us with
  | nil => exact ⟨_, slistDel_first chain limit, chain.pop⟩
  | cons u us =>
    obtain ⟨start, rest⟩ := List.nodup_cons.mp chain.nodup
    have distinct : (u :: us ++ elem :: vs).Nodup := rest
    have missing : elem ∉ u :: us := fun member =>
      (List.nodup_append.mp distinct).2.2 elem member elem List.mem_cons_self rfl
    have outside : h ∉ u :: us := fun member => start (List.mem_append_left _ member)
    have first : next h = some u := chain.first
    have differ : next h ≠ some elem := by
      rw [first]
      intro same
      exact missing (Option.some.inj same ▸ List.mem_cons_self)
    have leads : Leads next u us elem := (leads_append.mp chain.leads.2).1
    refine ⟨Function.update (Function.update next (us.getLastD u) (next elem)) elem none, ?_, ?_⟩
    · rw [slistDel, if_neg differ, first]
      exact slistDelFrom_leads leads outside (fun member => missing (List.mem_cons_of_mem _ member))
        (by simp only [List.length_cons] at enough; omega)
    · rcases List.eq_nil_or_concat us with rfl | ⟨front, p, rfl⟩
      · exact IsChain.drop (show IsChain next h ([] ++ u :: elem :: vs) from chain)
      · have split : u :: (front ++ [p]) ++ elem :: vs = (u :: front) ++ p :: elem :: vs := by simp
        rw [List.concat_eq_append, List.getLastD_concat]
        rw [List.concat_eq_append, split] at chain
        simpa using chain.drop

private theorem slistAddTailFrom_leads {p : ν} {limit : Nat} (leads : Leads next p vs h) (outside : h ∉ p :: vs)
    (enough : vs.length + 1 < limit) : slistAddTailFrom next h elem limit (some p) = some next := by
  induction vs generalizing p limit with
  | nil =>
    obtain ⟨limit, rfl⟩ := Nat.exists_eq_add_of_le' (show 2 ≤ limit from enough)
    have other : p ≠ h := fun same => outside (same ▸ List.mem_cons_self)
    have link : next p = some h := leads
    rw [slistAddTailFrom, if_neg other, link, if_neg (Option.some_ne_none h), slistAddTailFrom, if_pos rfl]
  | cons v vs ih =>
    obtain ⟨limit, rfl⟩ := Nat.exists_eq_add_one_of_ne_zero (Nat.ne_of_gt (Nat.zero_lt_of_lt enough))
    have other : p ≠ h := fun same => outside (same ▸ List.mem_cons_self)
    rw [slistAddTailFrom, if_neg other, leads.1, if_neg (Option.some_ne_none v)]
    exact ih leads.2 (fun member => outside (List.mem_cons_of_mem _ member)) (by simpa using enough)

private theorem slistAddTail_stays {limit : Nat} (chain : IsChain next h xs) (some_element : xs ≠ [])
    (enough : xs.length < limit) : slistAddTail next h elem limit = some next := by
  have filled : ¬slistEmpty next h = true := fun empty => some_element ((slistEmpty_chain chain).mp empty)
  rw [slistAddTail, if_neg filled]
  cases xs with
  | nil => exact absurd rfl some_element
  | cons x xs =>
    rw [chain.leads.1]
    exact slistAddTailFrom_leads chain.leads.2 (List.nodup_cons.mp chain.nodup).1 (by simpa using enough)

private theorem SlistCall.exec_chain {call : SlistCall ν} {limit : Nat} (chain : IsChain next h xs)
    (permitted : call.Permitted h xs) (kept : call.Kept xs) (enough : xs.length < limit) :
    ∃ next', call.exec h limit next = some next' ∧ IsChain next' h (call.edit xs) := by
  cases call with
  | add elem => exact ⟨_, rfl, chain.push permitted⟩
  | addTail elem =>
    obtain rfl : xs = [] := kept
    have empty : slistEmpty next h = true := (slistEmpty_chain chain).mpr rfl
    exact ⟨slistAdd next h elem, if_pos empty, chain.push permitted⟩
  | del elem =>
    obtain ⟨us, vs, rfl⟩ := List.append_of_mem permitted
    have distinct := (List.nodup_cons.mp chain.nodup).2
    have missing : elem ∉ us := fun member =>
      (List.nodup_append.mp distinct).2.2 elem member elem List.mem_cons_self rfl
    have room : us.length < limit := by
      rw [List.length_append] at enough
      omega
    obtain ⟨next', removed, chain'⟩ := slistDel_chain chain room
    refine ⟨next', removed, ?_⟩
    rwa [SlistCall.edit, List.erase_append_right _ missing, List.erase_cons_head]

private theorem SlistCall.edit_length (call : SlistCall ν) : (call.edit xs).length ≤ xs.length + 1 := by
  cases call with
  | add elem => simp [SlistCall.edit]
  | addTail elem => simp [SlistCall.edit]
  | del elem => exact Nat.le_succ_of_le List.length_erase_le

/-- The lists of a run hold the edited sequences as long as every `slist_add_tail`
meets an empty list, and from the first one that does not they no longer do. -/
theorem slist_refines_sequence_iff {limit : Nat} {calls : List (SlistCall ν)} (chain : IsChain next h xs)
    (permitted : EachEdit SlistCall.edit (SlistCall.Permitted h) xs calls) (enough : xs.length + calls.length < limit) :
    (∀ before, before <+: calls → ∃ next', before.foldlM (SlistCall.exec h limit) next = some next' ∧
      SlistHolds next' h (before.foldl SlistCall.edit xs)) ↔ EachEdit SlistCall.edit SlistCall.Kept xs calls := by
  induction calls generalizing next xs with
  | nil =>
    refine ⟨fun _ => trivial, fun _ before part => ?_⟩
    obtain rfl := List.prefix_nil.mp part
    exact ⟨next, rfl, slistHolds_of_chain chain⟩
  | cons call calls ih =>
    rw [List.length_cons] at enough
    have room : xs.length < limit := by omega
    rw [forall_prefix_cons, EachEdit]
    have start : ∃ next', ([] : List (SlistCall ν)).foldlM (SlistCall.exec h limit) next = some next' ∧
        SlistHolds next' h (([] : List (SlistCall ν)).foldl SlistCall.edit xs) :=
      ⟨next, rfl, slistHolds_of_chain chain⟩
    rw [and_iff_right start]
    by_cases kept : call.Kept xs
    · obtain ⟨next', ran, chain'⟩ := call.exec_chain chain permitted.1 kept room
      have length : (call.edit xs).length ≤ xs.length + 1 := call.edit_length
      rw [and_iff_right kept, ← ih chain' permitted.2 (by omega)]
      simp only [List.foldlM_cons, ran, Option.bind_eq_bind, Option.bind_some, List.foldl_cons]
    · refine iff_of_false (fun all => ?_) fun both => kept both.1
      obtain ⟨next', ran, holds⟩ := all [] List.nil_prefix
      cases call with
      | addTail elem =>
        have stays : next = next' := by
          rw [List.foldlM_cons, SlistCall.exec, slistAddTail_stays chain kept room] at ran
          exact Option.some.inj ran
        subst stays
        have same := chain.unique holds.chain
        simp [SlistCall.edit] at same
      | add elem | del elem => exact kept trivial

/-- The second element added at the tail is in no list. -/
theorem slistAddTail_loses :
    EachEdit SlistCall.edit (SlistCall.Permitted 0) [] [SlistCall.addTail 1, .addTail 2] ∧
      ¬∃ next', [SlistCall.addTail 1, .addTail 2].foldlM (SlistCall.exec 0 9) (initSlist (fun _ => none) 0) = some next' ∧
        SlistHolds next' 0 [1, 2] := by
  refine ⟨by simp [EachEdit, SlistCall.Permitted, SlistCall.edit], ?_⟩
  intro ⟨next', ran, holds⟩
  have seen : ([SlistCall.addTail 1, .addTail 2].foldlM (SlistCall.exec 0 9) (initSlist (fun _ => none) 0)).bind
      (fun next => slistVisit next 0 gather 9 []) = some [1] := rfl
  rw [ran, Option.bind_some, holds.visits 9 (by simp)] at seen
  simp at seen

/-- An element at the tail of an empty list, one before it, and the first one removed. -/
theorem slist_refines_sequence_iff_witness :
    (∀ before, before <+: [SlistCall.addTail 1, .add 2, .del 1] →
      ∃ next', before.foldlM (SlistCall.exec 0 9) (initSlist (fun _ => none) 0) = some next' ∧
        SlistHolds next' 0 (before.foldl SlistCall.edit [])) ↔
      EachEdit SlistCall.edit SlistCall.Kept [] [SlistCall.addTail 1, .add 2, .del 1] := by
  apply slist_refines_sequence_iff (initSlist_chain _ 0)
  · simp [EachEdit, SlistCall.Permitted, SlistCall.edit]
  · simp

end Hotarubi.Include
