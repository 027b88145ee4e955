import Hotarubi.Base.Runs
import Hotarubi.Proofs.ListSequences

/-! The doubly linked lists with a single head as sequences. The invariant ties the
`pprev` of a node to the cell that holds the node, in its head or in the node before. -/

namespace Hotarubi.Include
open Base

variable {η ν : Type*} {l l' : Hlists η ν} {cell : HlistCell η ν} {h : η} {xs us vs : List ν}

/-- The nodes behind a cell: each is held by the cell before it, where its `pprev` points. -/
def Segment (l : Hlists η ν) : HlistCell η ν → List ν → Prop
  | _, [] => True
  | cell, x :: xs => l.read cell = some x ∧ l.pprev x = some cell ∧ Segment l (.node x) xs

/-- The cell behind the last of some nodes. -/
def lastCell : HlistCell η ν → List ν → HlistCell η ν
  | cell, [] => cell
  | _, x :: xs => lastCell (.node x) xs

/-- The nodes of the list of `h`, without repetition, up to the null pointer. -/
structure IsHlist (l : Hlists η ν) (h : η) (xs : List ν) : Prop where
  segment : Segment l (.head h) xs
  last : l.read (lastCell (.head h) xs) = none
  nodup : xs.Nodup

private theorem segment_append : Segment l cell (us ++ vs) ↔ Segment l cell us ∧ Segment l (lastCell cell us) vs := by
  induction us generalizing cell with
  | nil => simp [Segment, lastCell]
  | cons u us ih => rw [List.cons_append, Segment, Segment, ih, lastCell, and_assoc, and_assoc]

private theorem lastCell_append : lastCell cell (us ++ vs) = lastCell (lastCell cell us) vs := by
  induction us generalizing cell with
  | nil => rfl
  | cons u us ih => exact ih

private theorem lastCell_cons (cell : HlistCell η ν) (x : ν) (xs : List ν) : ∃ y ∈ x :: xs, lastCell cell
    (x :: xs) = .node y := by
  induction xs generalizing cell x with
  | nil => exact ⟨x, List.mem_cons_self, rfl⟩
  | cons z xs ih =>
    obtain ⟨y, member, last⟩ := ih (.node x) z
    exact ⟨y, List.mem_cons_of_mem _ member, last⟩

private theorem segment_cell {x : ν} (segment : Segment l cell xs) (member : x ∈ xs) :
    ∃ c, l.pprev x = some c ∧ l.read c = some x ∧ (c = cell ∨ ∃ y ∈ xs, c = .node y) := by
  induction xs generalizing cell with
  | nil => cases member
  | cons y xs ih =>
    obtain ⟨held, back, rest⟩ := segment
    rcases List.mem_cons.mp member with rfl | behind
    · exact ⟨cell, back, held, .inl rfl⟩
    · obtain ⟨c, back', held', place⟩ := ih rest behind
      refine ⟨c, back', held', .inr ?_⟩
      rcases place with rfl | ⟨z, inside, rfl⟩
      · exact ⟨y, List.mem_cons_self, rfl⟩
      · exact ⟨z, List.mem_cons_of_mem _ inside, rfl⟩

/-- A segment reads the cells that hold its nodes. -/
theorem Segment.congr (segment : Segment l cell xs) (backs : ∀ x ∈ xs, l'.pprev x = l.pprev x)
    (cells : ∀ x ∈ xs, ∀ c, l.pprev x = some c → l'.read c = l.read c) : Segment l' cell xs := by
  induction xs generalizing cell with
  | nil => trivial
  | cons x xs ih =>
    obtain ⟨held, back, rest⟩ := segment
    refine ⟨(cells x List.mem_cons_self cell back).trans held, (backs x List.mem_cons_self).trans back, ?_⟩
    apply ih rest
    · intro y member
      exact backs y (List.mem_cons_of_mem _ member)
    · intro y member
      exact cells y (List.mem_cons_of_mem _ member)

/-- Pointers that agree on the cells of a list hold the same list. -/
theorem IsHlist.congr (list : IsHlist l h xs) (first : l'.first h = l.first h)
    (nexts : ∀ x ∈ xs, l'.next x = l.next x) (backs : ∀ x ∈ xs, l'.pprev x = l.pprev x) : IsHlist l' h xs := by
  have cells : ∀ c : HlistCell η ν, (c = .head h ∨ ∃ y ∈ xs, c = .node y) → l'.read c = l.read c := by
    intro c place
    rcases place with rfl | ⟨y, inside, rfl⟩
    · exact first
    · exact nexts y inside
  refine ⟨list.segment.congr backs ?_, ?_, list.nodup⟩
  · intro x member c back
    obtain ⟨c', back', _, place⟩ := segment_cell list.segment member
    obtain rfl : c' = c := Option.some.inj (back'.symm.trans back)
    exact cells c' place
  · refine (cells _ ?_).trans list.last
    cases xs with
    | nil => exact .inl rfl
    | cons x xs => exact .inr (lastCell_cons _ x xs)

theorem IsHlist.first (list : IsHlist l h xs) : l.first h = xs.head? := by
  cases xs with
  | nil => exact list.last
  | cons x xs => exact list.segment.1

theorem IsHlist.behind {x : ν} (list : IsHlist l h (us ++ x :: vs)) : l.next x = vs.head? := by
  cases vs with
  | nil =>
    have last := list.last
    rw [lastCell_append] at last
    exact last
  | cons v vs => exact (segment_append.mp list.segment).2.2.2.1

variable [DecidableEq ν]

@[simp] theorem setPprev_read (l : Hlists η ν) (node : ν) (back : Option (HlistCell η ν)) (c : HlistCell η ν) :
    (l.setPprev node back).read c = l.read c := by
  cases c <;> rfl

@[simp] theorem setPprevOf_read (l : Hlists η ν) (ptr : Option ν) (back c : HlistCell η ν) :
    (l.setPprevOf ptr back).read c = l.read c := by
  cases ptr <;> simp [Hlists.setPprevOf]

private theorem setPprevOf_pprev (l : Hlists η ν) (ptr : Option ν) (back : HlistCell η ν) (x : ν) :
    (l.setPprevOf ptr back).pprev x = if ptr = some x then some back else l.pprev x := by
  cases ptr with
  | none => simp [Hlists.setPprevOf]
  | some node => simp [Hlists.setPprevOf, Hlists.setPprev, Function.update_apply, eq_comm]

section Cells

variable [DecidableEq η] {elem : ν}

private theorem write_read (l : Hlists η ν) (cell c : HlistCell η ν) (value : Option ν) :
    (l.write cell value).read c = if c = cell then value else l.read c := by
  cases cell with
  | head head => cases c <;> simp [Hlists.write, Hlists.read, Function.update_apply]
  | node node => cases c <;> simp [Hlists.write, Hlists.read, Function.update_apply]

@[simp] theorem write_pprev (l : Hlists η ν) (cell : HlistCell η ν) (value : Option ν) :
    (l.write cell value).pprev = l.pprev := by
  cases cell <;> rfl

private theorem hlistAdd_read (l : Hlists η ν) (h : η) (elem : ν) (c : HlistCell η ν) : (hlistAdd l h elem).read c =
    if c = .head h then some elem else if c = .node elem then l.first h else l.read c := by
  simp [hlistAdd, write_read]

private theorem hlistAdd_pprev (l : Hlists η ν) (h : η) (elem x : ν) : (hlistAdd l h elem).pprev x =
    if x = elem then some (.head h) else if l.first h = some x then some (.node elem) else l.pprev x := by
  simp [hlistAdd, Hlists.setPprev, Function.update_apply, setPprevOf_pprev]

/-- What `hlist_del` leaves behind, when the `pprev` of the node is `back`. -/
structure Unlinked (l l' : Hlists η ν) (elem : ν) (back : HlistCell η ν) : Prop where
  read : ∀ c, l'.read c = if c = .node elem then none else if c = back then l.next elem else l.read c
  pprev : ∀ x, l'.pprev x = if x = elem then none else if l.next elem = some x then some back else l.pprev x

private theorem hlistDel_eq {back : HlistCell η ν} (held : l.pprev elem = some back) :
    ∃ l', hlistDel l elem = some l' ∧ Unlinked l l' elem back := by
  refine ⟨_, by rw [hlistDel, held]; rfl, fun c => ?_, fun x => ?_⟩
  · simp [write_read]
  · simp [Hlists.setPprev, Function.update_apply, setPprevOf_pprev]

/-- What changes lies in the list of one head and in one element. -/
structure HlistEdited (l l' : Hlists η ν) (h : η) (elem : ν) (xs : List ν) : Prop where
  first : ∀ other, other ≠ h → l'.first other = l.first other
  next : ∀ x ∉ elem :: xs, l'.next x = l.next x
  pprev : ∀ x ∉ elem :: xs, l'.pprev x = l.pprev x

private theorem hlistAdd_list (list : IsHlist l h xs) (fresh : elem ∉ xs) :
    IsHlist (hlistAdd l h elem) h (elem :: xs) ∧ HlistEdited l (hlistAdd l h elem) h elem xs := by
  have first := list.first
  have inner : Segment (hlistAdd l h elem) (.node elem) xs := by
    cases xs with
    | nil => trivial
    | cons x xs =>
      obtain ⟨held, back, rest⟩ := list.segment
      obtain ⟨other, outside⟩ := not_or.mp (List.mem_cons.not.mp fresh)
      refine ⟨by simp [hlistAdd_read, first], by simp [hlistAdd_pprev, first, Ne.symm other], ?_⟩
      have behind : ∀ y ∈ xs, y ≠ x ∧ y ≠ elem := by
        intro y member
        exact ⟨ne_of_mem_of_not_mem member (List.nodup_cons.mp list.nodup).1, ne_of_mem_of_not_mem member outside⟩
      apply rest.congr
      · intro y member
        simp [hlistAdd_pprev, first, (behind y member).2, (behind y member).1.symm]
      · intro y member c back'
        obtain ⟨c', same, held', place⟩ := segment_cell rest member
        obtain rfl : c' = c := Option.some.inj (same.symm.trans back')
        have away : c' ≠ .head h ∧ c' ≠ .node elem := by
          rcases place with rfl | ⟨z, inside, rfl⟩
          · simpa using Ne.symm other
          · simpa using (behind z inside).2
        rw [hlistAdd_read, if_neg away.1, if_neg away.2]
  have ends : (hlistAdd l h elem).read (lastCell (.node elem) xs) = none := by
    cases xs with
    | nil => simp [lastCell, hlistAdd_read, first]
    | cons x xs =>
      obtain ⟨y, member, place⟩ := lastCell_cons (.head h : HlistCell η ν) x xs
      have other : y ≠ elem := ne_of_mem_of_not_mem member fresh
      have last := list.last
      rw [place] at last
      change (hlistAdd l h elem).read (lastCell (.head h) (x :: xs)) = none
      simpa [place, hlistAdd_read, other] using last
  refine ⟨⟨⟨by simp [hlistAdd_read], by simp [hlistAdd_pprev], inner⟩, ends, List.nodup_cons.mpr ⟨fresh, list.nodup⟩⟩,
    fun other differ => ?_, fun x outside => ?_, fun x outside => ?_⟩
  · simpa [Hlists.read, differ] using hlistAdd_read l h elem (.head other)
  · simpa [Hlists.read, (List.ne_of_not_mem_cons outside)] using hlistAdd_read l h elem (.node x)
  · have differ : l.first h ≠ some x := by
      rw [first]
      intro same
      exact (List.not_mem_of_not_mem_cons outside) (List.mem_of_mem_head? same)
    simp [hlistAdd_pprev, List.ne_of_not_mem_cons outside, differ]

omit [DecidableEq ν] [DecidableEq η] in
theorem IsHlist.apart (list : IsHlist l h (us ++ elem :: vs)) : elem ∉ us ++ vs ∧ (us ++ vs).Nodup :=
  List.nodup_cons.mp (List.perm_middle.nodup_iff.mp list.nodup)

/-- Nodes other than `elem` and the one behind it are held as before. -/
theorem Unlinked.segment {back : HlistCell η ν} {ys : List ν} (unlinked : Unlinked l l' elem back)
    (held : l.read back = some elem) (segment : Segment l cell ys)
    (apart : ∀ y ∈ ys, y ≠ elem ∧ l.next elem ≠ some y) : Segment l' cell ys := by
  apply segment.congr
  · intro y member
    rw [unlinked.pprev, if_neg (apart y member).1, if_neg (apart y member).2]
  · intro y member c back'
    obtain ⟨other, later⟩ := apart y member
    obtain ⟨c', same, holds, _⟩ := segment_cell segment member
    obtain rfl : c' = c := Option.some.inj (same.symm.trans back')
    have not_elem : c' ≠ .node elem := by
      intro here
      rw [here] at holds
      exact later holds
    have not_back : c' ≠ back := by
      intro here
      rw [here] at holds
      exact other (Option.some.inj (holds.symm.trans held))
    rw [unlinked.read, if_neg not_elem, if_neg not_back]

/-- The nodes behind `elem` stand behind the cell that has held it. -/
theorem Unlinked.joined (list : IsHlist l h (us ++ elem :: vs)) (unlinked : Unlinked l l' elem (lastCell (.head h) us)) :
    Segment l' (lastCell (.head h) us) vs := by
  obtain ⟨missing, nodup⟩ := list.apart
  obtain ⟨_, held, _, behind⟩ := segment_append.mp list.segment
  cases vs with
  | nil => trivial
  | cons v vs =>
    have next : l.next elem = some v := list.behind
    have other : v ≠ elem := by
      intro same
      rw [same] at missing
      exact missing (List.mem_append_right _ List.mem_cons_self)
    have not_elem : lastCell (.head h) us ≠ .node elem := by
      intro same
      rw [same] at held
      exact other (Option.some.inj (next.symm.trans held))
    refine ⟨?_, ?_, unlinked.segment held behind.2.2 ?_⟩
    · rw [unlinked.read, if_neg not_elem, if_pos rfl]
      exact next
    · rw [unlinked.pprev, if_neg other, if_pos next]
    · intro y member
      have first : v ≠ y := by
        intro same
        rw [same] at nodup
        exact (List.nodup_cons.mp (List.nodup_append.mp nodup).2.1).1 member
      refine ⟨?_, by rw [next]; simpa using first⟩
      intro same
      rw [same] at member
      exact missing (List.mem_append_right _ (List.mem_cons_of_mem _ member))

theorem Unlinked.last (list : IsHlist l h (us ++ elem :: vs)) (unlinked : Unlinked l l' elem (lastCell (.head h) us)) :
    l'.read (lastCell (.head h) (us ++ vs)) = none := by
  have next := list.behind
  obtain ⟨_, held, _⟩ := segment_append.mp list.segment
  have last := list.last
  rw [lastCell_append] at last
  rw [lastCell_append, unlinked.read]
  cases vs with
  | nil =>
    split
    next => rfl
    next => exact (if_pos rfl).trans next
  | cons v vs =>
    have behind : l.read (lastCell (lastCell (.head h) us) (v :: vs)) = none := last
    split
    next => rfl
    next =>
      rw [if_neg, behind]
      intro same
      rw [same, held] at behind
      cases behind

theorem Unlinked.edited (list : IsHlist l h (us ++ elem :: vs)) (unlinked : Unlinked l l' elem (lastCell (.head h) us)) :
    HlistEdited l l' h elem (us ++ elem :: vs) := by
  have place : lastCell (.head h) us = .head h ∨ ∃ u ∈ us, lastCell (.head h : HlistCell η ν) us = .node u := by
    cases us with
    | nil => exact .inl rfl
    | cons u us => exact .inr (lastCell_cons _ u us)
  refine ⟨fun other differ => ?_, fun x outside => ?_, fun x outside => ?_⟩
  · refine (unlinked.read (.head other)).trans ?_
    rw [if_neg (by simp), if_neg]
    · rfl
    · intro same
      rcases place with here | ⟨u, _, here⟩
      · exact differ (by simpa using same.trans here)
      · simp [here] at same
  · refine (unlinked.read (.node x)).trans ?_
    rw [if_neg (by simpa using List.ne_of_not_mem_cons outside), if_neg]
    · rfl
    · intro same
      rcases place with here | ⟨u, member, here⟩
      · simp [here] at same
      · obtain rfl : x = u := by simpa [here] using same
        exact outside (List.mem_cons_of_mem _ (List.mem_append_left _ member))
  · rw [unlinked.pprev, if_neg (List.ne_of_not_mem_cons outside), if_neg]
    intro same
    have later := List.mem_of_mem_head? (list.behind.symm.trans same)
    exact outside (List.mem_cons_of_mem _ (List.mem_append_right _ (List.mem_cons_of_mem _ later)))

/-- A node leaves the list without a look at its head. -/
theorem hlistDel_list (list : IsHlist l h (us ++ elem :: vs)) : ∃ l', hlistDel l elem = some l' ∧
    IsHlist l' h (us ++ vs) ∧ l'.next elem = none ∧ l'.pprev elem = none ∧
      HlistEdited l l' h elem (us ++ elem :: vs) := by
  obtain ⟨before, held, back, _⟩ := segment_append.mp list.segment
  obtain ⟨l', ran, unlinked⟩ := hlistDel_eq back
  obtain ⟨missing, nodup⟩ := list.apart
  have front : Segment l' (.head h) us := by
    apply unlinked.segment held before
    intro u member
    refine ⟨ne_of_mem_of_not_mem member fun inside => missing (List.mem_append_left _ inside), fun same => ?_⟩
    have later := List.mem_of_mem_head? (list.behind.symm.trans same)
    exact (List.nodup_append.mp nodup).2.2 u member u later rfl
  refine ⟨l', ran, ⟨segment_append.mpr ⟨front, unlinked.joined list⟩, unlinked.last list, nodup⟩, ?_, ?_,
    unlinked.edited list⟩
  · exact (unlinked.read (.node elem)).trans (if_pos rfl)
  · exact (unlinked.pprev elem).trans (if_pos rfl)

end Cells

inductive HlistCall (η ν : Type*) where
  | add (head : η) (elem : ν)
  | del (elem : ν)
  deriving DecidableEq, Repr

def HlistCall.elem : HlistCall η ν → ν
  | .add _ elem | .del elem => elem

variable [DecidableEq η]

def HlistCall.exec (l : Hlists η ν) : HlistCall η ν → Option (Hlists η ν)
  | .add head elem => some (hlistAdd l head elem)
  | .del elem => hlistDel l elem

def HlistCall.apply (seq : η → List ν) : HlistCall η ν → η → List ν
  | .add head elem => Function.update seq head (elem :: seq head)
  | .del elem => fun head => (seq head).erase elem

variable {heads : Set η} {seq : η → List ν}

/-- A heap on which every head has a list, and no two lists share a node. -/
structure HlistsHold (l : Hlists η ν) (heads : Set η) (seq : η → List ν) : Prop where
  list : ∀ head ∈ heads, IsHlist l head (seq head)
  apart : ∀ head ∈ heads, ∀ other ∈ heads, head ≠ other → ∀ x ∈ seq head, x ∉ seq other

/-- New nodes are in no list yet, the others are in one. -/
def HlistCall.Permitted (heads : Set η) (seq : η → List ν) : HlistCall η ν → Prop
  | .add head elem => head ∈ heads ∧ ∀ other ∈ heads, elem ∉ seq other
  | .del elem => ∃ head ∈ heads, elem ∈ seq head

/-- The head of the list that a call works on. -/
def HlistCall.Affects (seq : η → List ν) (head : η) : HlistCall η ν → Prop
  | .add head' _ => head = head'
  | .del elem => elem ∈ seq head

/-- What holds after a call: each loop meets the sequence, every `pprev` points to the
cell that holds its node, and the other lists are as before. -/
structure HlistRefines (l l' : Hlists η ν) (heads : Set η) (seq : η → List ν) (call : HlistCall η ν) : Prop where
  lists : HlistsHold l' heads (call.apply seq)
  visits : ∀ head ∈ heads, ∀ limit, (call.apply seq head).length ≤ limit →
    hlistVisit l' head gather limit [] = some (call.apply seq head)
  pprev : ∀ head ∈ heads, ∀ us x vs, call.apply seq head = us ++ x :: vs →
    l'.pprev x = some (lastCell (.head head) us) ∧ l'.read (lastCell (.head head) us) = some x
  empty : ∀ head ∈ heads, hlistEmpty l' head = true ↔ call.apply seq head = []
  removed : ∀ elem, call = .del elem → l'.next elem = none ∧ l'.pprev elem = none
  otherHeads : ∀ head, ¬call.Affects seq head → l'.first head = l.first head
  otherNodes : ∀ x, x ≠ call.elem → (∀ head ∈ heads, call.Affects seq head → x ∉ seq head) →
    l'.next x = l.next x ∧ l'.pprev x = l.pprev x

omit [DecidableEq ν] [DecidableEq η] in
private theorem hlistVisit_list {β : Type*} (list : IsHlist l h xs) (body : β → ν → Option β) {limit : Nat}
    (enough : xs.length ≤ limit) (state : β) : hlistVisit l h body limit state = xs.foldlM body state := by
  have walk : ∀ (xs : List ν) (cell : HlistCell η ν) (limit : Nat) (state : β), Segment l cell xs →
      l.read (lastCell cell xs) = none → xs.length ≤ limit →
      hlistVisitFrom l body limit (l.read cell) state = xs.foldlM body state := by
    intro xs
    induction xs with
    | nil =>
      intro cell limit state _ last _
      rw [show l.read cell = none from last]
      cases limit <;> rfl
    | cons x xs ih =>
      intro cell limit state segment last enough
      obtain ⟨limit, rfl⟩ := Nat.exists_eq_add_one_of_ne_zero
        (Nat.ne_of_gt (Nat.lt_of_lt_of_le (Nat.zero_lt_succ _) enough))
      rw [segment.1, hlistVisitFrom, List.foldlM_cons]
      apply congrArg (Option.bind _)
      funext state
      exact ih (.node x) limit state segment.2.2 last (by simpa using enough)
  exact walk xs (.head h) limit state list.segment list.last enough

omit [DecidableEq η] in
private theorem hlistEmpty_list (list : IsHlist l h xs) : hlistEmpty l h = true ↔ xs = [] := by
  rw [hlistEmpty, beq_iff_eq]
  cases xs with
  | nil => exact iff_of_true list.last rfl
  | cons x xs => exact iff_of_false (fun null => by cases list.segment.1.symm.trans null) (List.cons_ne_nil x xs)

theorem HlistCall.exec_spec {call : HlistCall η ν} (hold : HlistsHold l heads seq) (permitted : call.Permitted heads seq) :
    ∃ l' head, call.exec l = some l' ∧ head ∈ heads ∧ call.Affects seq head ∧ IsHlist l' head (call.apply seq head) ∧
      (∀ x ∈ call.apply seq head, x = call.elem ∨ x ∈ seq head) ∧ HlistEdited l l' head call.elem (seq head) ∧
      ∀ elem, call = .del elem → l'.next elem = none ∧ l'.pprev elem = none := by
  cases call with
  | add head elem =>
    obtain ⟨listed, fresh⟩ := permitted
    obtain ⟨list, edited⟩ := hlistAdd_list (hold.list head listed) (fresh head listed)
    have same : (HlistCall.add head elem).apply seq head = elem :: seq head := Function.update_self ..
    refine ⟨_, head, rfl, listed, rfl, by rwa [same], ?_, edited, nofun⟩
    rw [same]
    intro x member
    exact List.mem_cons.mp member
  | del elem =>
    obtain ⟨head, listed, inside⟩ := permitted
    obtain ⟨us, vs, split⟩ := List.append_of_mem inside
    have list := hold.list head listed
    rw [split] at list
    obtain ⟨l', ran, list', next, back, edited⟩ := hlistDel_list list
    have same : (HlistCall.del elem).apply seq head = us ++ vs := by
      have missing : elem ∉ us := fun early =>
        (List.nodup_append.mp list.nodup).2.2 elem early elem List.mem_cons_self rfl
      change (seq head).erase elem = us ++ vs
      rw [split, List.erase_append_right _ missing, List.erase_cons_head]
    refine ⟨l', head, ran, listed, inside, by rwa [same], ?_, by rwa [split], ?_⟩
    · intro x member
      exact .inr (List.mem_of_mem_erase member)
    · intro elem' del
      cases del
      exact ⟨next, back⟩

private theorem HlistCall.apply_other {call : HlistCall η ν} {head : η} (other : ¬call.Affects seq head) :
    call.apply seq head = seq head := by
  cases call with
  | add head' elem => exact Function.update_of_ne other ..
  | del elem => exact List.erase_of_not_mem other

omit [DecidableEq η] [DecidableEq ν] in
theorem HlistCall.elem_outside {call : HlistCall η ν} {head other : η} (hold : HlistsHold l heads seq)
    (permitted : call.Permitted heads seq) (listed : head ∈ heads) (affected : call.Affects seq head)
    (listed' : other ∈ heads) (differ : head ≠ other) : call.elem ∉ seq other := by
  cases call with
  | add head' elem => exact permitted.2 other listed'
  | del elem => exact hold.apart head listed other listed' differ elem affected

omit [DecidableEq η] [DecidableEq ν] in
theorem HlistCall.affects_unique {call : HlistCall η ν} {head other : η} (hold : HlistsHold l heads seq)
    (listed : head ∈ heads) (affected : call.Affects seq head) (listed' : other ∈ heads)
    (affected' : call.Affects seq other) : other = head := by
  cases call with
  | add head' elem => exact Eq.trans affected' (Eq.symm affected)
  | del elem =>
    by_contra differ
    exact hold.apart other listed' head listed differ elem affected' affected

omit [DecidableEq ν] [DecidableEq η] in
theorem HlistsHold.replace (hold : HlistsHold l heads seq) {seq' : η → List ν} {head : η}
    (list : IsHlist l' head (seq' head)) (others : ∀ other ∈ heads, other ≠ head → seq' other = seq other)
    (kept : ∀ other ∈ heads, other ≠ head → IsHlist l' other (seq other))
    (apart : ∀ other ∈ heads, other ≠ head → ∀ x ∈ seq' head, x ∉ seq other) : HlistsHold l' heads seq' := by
  refine ⟨fun other listed => ?_, fun first listed second listed' differ x member member' => ?_⟩
  · by_cases same : other = head
    · rwa [same]
    · rw [others other listed same]
      exact kept other listed same
  · by_cases same : first = head
    · subst same
      rw [others second listed' (Ne.symm differ)] at member'
      exact apart second listed' (Ne.symm differ) x member member'
    · rw [others first listed same] at member
      by_cases same' : second = head
      · subst same'
        exact apart first listed same x member' member
      · rw [others second listed' same'] at member'
        exact hold.apart first listed second listed' differ x member member'

theorem HlistCall.exec_refines {call : HlistCall η ν} (hold : HlistsHold l heads seq)
    (permitted : call.Permitted heads seq) : ∃ l', call.exec l = some l' ∧ HlistRefines l l' heads seq call := by
  obtain ⟨l', head, ran, listed, affected, list, inside, edited, removed⟩ := call.exec_spec hold permitted
  have others : ∀ other ∈ heads, other ≠ head → call.apply seq other = seq other := by
    intro other listed' differ
    apply HlistCall.apply_other
    intro affected'
    exact differ (call.affects_unique hold listed affected listed' affected')
  have away : ∀ other ∈ heads, other ≠ head → ∀ x ∈ seq other, x ∉ call.elem :: seq head := by
    intro other listed' differ x member
    have apart := hold.apart other listed' head listed differ x member
    exact List.not_mem_cons_of_ne_of_not_mem
      (ne_of_mem_of_not_mem member (call.elem_outside hold permitted listed affected listed' (Ne.symm differ))) apart
  have kept : ∀ other ∈ heads, other ≠ head → IsHlist l' other (seq other) := by
    intro other listed' differ
    apply (hold.list other listed').congr (edited.first other differ)
    · intro x member
      exact edited.next x (away other listed' differ x member)
    · intro x member
      exact edited.pprev x (away other listed' differ x member)
  have apart : ∀ other ∈ heads, other ≠ head → ∀ x ∈ call.apply seq head, x ∉ seq other := by
    intro other listed' differ x member inside'
    apply away other listed' differ x inside'
    rcases inside x member with rfl | old
    · exact List.mem_cons_self
    · exact List.mem_cons_of_mem _ old
  have lists := hold.replace list others kept apart
  refine ⟨l', ran, lists, ?_, ?_, fun head listed => hlistEmpty_list (lists.list head listed), removed, ?_, ?_⟩
  · intro other listed' limit enough
    rw [hlistVisit_list (lists.list other listed') gather enough, foldlM_gather, List.nil_append]
  · intro other listed' us x vs split
    have segment := (lists.list other listed').segment
    rw [split] at segment
    obtain ⟨_, held, back, _⟩ := segment_append.mp segment
    exact ⟨back, held⟩
  · intro other unaffected
    apply edited.first
    intro same
    rw [same] at unaffected
    exact unaffected affected
  · intro x other outside
    have fresh := List.not_mem_cons_of_ne_of_not_mem other (outside head listed affected)
    exact ⟨edited.next x fresh, edited.pprev x fresh⟩

/-- Along any run each call refines the edit of its sequence. -/
theorem hlists_refine_sequences {calls : List (HlistCall η ν)} {call : HlistCall η ν} (hold : HlistsHold l heads seq)
    (permitted : EachEdit HlistCall.apply (HlistCall.Permitted heads) seq (calls ++ [call])) :
    ∃ before after, calls.foldlM HlistCall.exec l = some before ∧ call.exec before = some after ∧
      HlistRefines before after heads (calls.foldl HlistCall.apply seq) call := by
  induction calls generalizing l seq with
  | nil =>
    obtain ⟨after, ran, refined⟩ := call.exec_refines hold permitted.1
    exact ⟨l, after, rfl, ran, refined⟩
  | cons first calls ih =>
    obtain ⟨next, ran, refined⟩ := first.exec_refines hold permitted.1
    obtain ⟨before, after, reached, rest⟩ := ih refined.lists permitted.2
    refine ⟨before, after, ?_, rest⟩
    rw [List.foldlM_cons, ran]
    exact reached

/-- Heads and nodes as `HLIST_HEAD_INIT` and `HLIST_NODE_INIT` leave them. -/
def initHlists : Hlists Bool Nat where
  first _ := none
  next _ := none
  pprev _ := none

theorem initHlists_hold (heads : Set Bool) : HlistsHold initHlists heads fun _ => [] := by
  refine ⟨fun head _ => ⟨trivial, rfl, List.nodup_nil⟩, ?_⟩
  intro head _ other _ _ x member
  cases member

/-- Of two nodes in one list and one in the other the first that was added leaves. -/
theorem hlists_refine_sequences_witness :
    ∃ before after, [HlistCall.add false 5, .add false 6, .add true 7].foldlM HlistCall.exec initHlists = some before ∧
      (HlistCall.del 5).exec before = some after ∧
      HlistRefines before after Set.univ
        ([HlistCall.add false 5, .add false 6, .add true 7].foldl HlistCall.apply fun _ => []) (.del 5) := by
  apply hlists_refine_sequences (initHlists_hold Set.univ)
  refine ⟨⟨trivial, ?_⟩, ⟨trivial, ?_⟩, ⟨trivial, ?_⟩, ⟨false, trivial, ?_⟩, trivial⟩
  all_goals simp [HlistCall.apply, Function.update_apply]

end Hotarubi.Include
