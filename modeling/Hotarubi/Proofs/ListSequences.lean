import Hotarubi.Proofs.List

/-! The doubly linked lists of list.h as sequences: on a heap with any number of
rings each list function edits the sequence behind one head. -/

namespace Hotarubi.Include
open Base Ring

variable {ν : Type*} [DecidableEq ν] {l l' : Links ν} {heads : Set ν} {seq : ν → List ν}

/-- A call of one of the list functions. -/
inductive ListCall (ν : Type*) where
  | add (head elem : ν)
  | addTail (head elem : ν)
  | addBefore (member elem : ν)
  | addAfter (member elem : ν)
  | del (elem : ν)
  deriving DecidableEq, Repr

def ListCall.elem : ListCall ν → ν
  | .add _ elem | .addTail _ elem | .addBefore _ elem | .addAfter _ elem | .del elem => elem

def ListCall.exec (l : Links ν) : ListCall ν → Option (Links ν)
  | .add head elem => listAdd l head elem
  | .addTail head elem => listAddTail l head elem
  | .addBefore member elem => listAddBefore l member elem
  | .addAfter member elem => listAddAfter l member elem
  | .del elem => listDel l elem

/-- What a call does to the sequence behind `head`. -/
def ListCall.edit (head : ν) (xs : List ν) : ListCall ν → List ν
  | .add head' elem => if head = head' then elem :: xs else xs
  | .addTail head' elem => if head = head' then xs ++ [elem] else xs
  | .addBefore member elem => xs.flatMap fun x => if x = member then [elem, x] else [x]
  | .addAfter member elem => xs.flatMap fun x => if x = member then [x, elem] else [x]
  | .del elem => xs.erase elem

/-- All sequences after a call. -/
def ListCall.apply (seq : ν → List ν) (call : ListCall ν) : ν → List ν := fun head => call.edit head (seq head)

/-- A heap of links on which every head has a ring, and no two rings share a node. -/
structure Rings (l : Links ν) (heads : Set ν) (seq : ν → List ν) : Prop where
  ring : ∀ head ∈ heads, IsRing l head (seq head)
  apart : ∀ head ∈ heads, ∀ other ∈ heads, head ≠ other → ∀ x ∈ head :: seq head, x ∉ other :: seq other

/-- The node belongs to no list, neither as its head nor as an element. -/
def Loose (heads : Set ν) (seq : ν → List ν) (x : ν) : Prop := ∀ head ∈ heads, x ∉ head :: seq head

/-- The calls a user of lists makes: new elements are in no list yet, others are in one. -/
def ListCall.Permitted (heads : Set ν) (seq : ν → List ν) : ListCall ν → Prop
  | .add head elem | .addTail head elem => head ∈ heads ∧ Loose heads seq elem
  | .addBefore member elem | .addAfter member elem => (∃ head ∈ heads, member ∈ seq head) ∧ Loose heads seq elem
  | .del elem => ∃ head ∈ heads, elem ∈ seq head

/-- The head of the ring that a call works on. -/
def ListCall.Affects (seq : ν → List ν) (head : ν) : ListCall ν → Prop
  | .add head' _ | .addTail head' _ => head = head'
  | .addBefore member _ | .addAfter member _ => member ∈ seq head
  | .del elem => elem ∈ seq head

omit [DecidableEq ν] in
/-- A member is on one ring only. -/
theorem Rings.unique (rings : Rings l heads seq) {head other x : ν} (listed : head ∈ heads) (listed' : other ∈ heads)
    (member : x ∈ head :: seq head) (member' : x ∈ other :: seq other) : head = other := by
  by_contra differ
  exact rings.apart head listed other listed' differ x member member'

private theorem flatMap_other {m : ν} {edit : ν → List ν} {xs : List ν} (missing : m ∉ xs) :
    (xs.flatMap fun x => if x = m then edit x else [x]) = xs := by
  induction xs with
  | nil => rfl
  | cons x xs ih =>
    simp only [List.mem_cons, not_or] at missing
    rw [List.flatMap_cons, if_neg (Ne.symm missing.1), ih missing.2]
    rfl

private theorem flatMap_member {m : ν} (edit : ν → List ν) {us vs : List ν} (before : m ∉ us) (behind : m ∉ vs) :
    ((us ++ m :: vs).flatMap fun x => if x = m then edit x else [x]) = us ++ edit m ++ vs := by
  rw [List.flatMap_append, List.flatMap_cons, if_pos rfl, flatMap_other before, flatMap_other behind,
    List.append_assoc]

private theorem ListCall.edit_other {call : ListCall ν} {head : ν} (other : ¬call.Affects seq head) :
    call.apply seq head = seq head := by
  cases call with
  | add head' elem | addTail head' elem => exact if_neg other
  | addBefore member elem | addAfter member elem => exact flatMap_other other
  | del elem => exact List.erase_of_not_mem other

/-- What a call does to the ring it works on. -/
structure Edited (l l' : Links ν) (call : ListCall ν) (head : ν) (xs : List ν) : Prop where
  ring : IsRing l' head (call.edit head xs)
  inside : ∀ x ∈ head :: call.edit head xs, x = call.elem ∨ x ∈ head :: xs
  kept : AgreeOff (head :: call.elem :: xs) l l'
  removed : ∀ elem, call = .del elem → l'.next elem = none ∧ l'.prev elem = none

omit [DecidableEq ν] in
private theorem split_member {head m : ν} {xs : List ν} (ring : IsRing l head xs) (listed : m ∈ xs) :
    ∃ us vs, xs = us ++ m :: vs ∧ m ∉ us ∧ m ∉ vs := by
  obtain ⟨us, vs, rfl⟩ := List.append_of_mem listed
  have distinct : (m :: (us ++ vs)).Nodup := List.perm_middle.nodup_iff.mp (List.nodup_cons.mp ring.nodup).2
  have missing := (List.nodup_cons.mp distinct).1
  exact ⟨us, vs, rfl, fun early => missing (List.mem_append_left _ early), fun late =>
    missing (List.mem_append_right _ late)⟩

variable {head elem m : ν} {xs : List ν}

private theorem exec_add (ring : IsRing l head xs) (fresh : elem ∉ head :: xs) :
    ∃ l', (ListCall.add head elem).exec l = some l' ∧ Edited l l' (.add head elem) head xs := by
  obtain ⟨l', added, ring', kept⟩ := listAdd_ring ring fresh
  have same : (ListCall.add head elem).edit head xs = elem :: xs := if_pos rfl
  refine ⟨l', added, by rwa [same], fun x member => ?_, kept, nofun⟩
  rw [same] at member
  simp only [List.mem_cons, ListCall.elem] at member ⊢
  tauto

private theorem exec_addTail (ring : IsRing l head xs) (fresh : elem ∉ head :: xs) :
    ∃ l', (ListCall.addTail head elem).exec l = some l' ∧ Edited l l' (.addTail head elem) head xs := by
  obtain ⟨l', added, ring', kept⟩ := listAddTail_ring ring fresh
  have same : (ListCall.addTail head elem).edit head xs = xs ++ [elem] := if_pos rfl
  refine ⟨l', added, by rwa [same], fun x member => ?_, kept, nofun⟩
  rw [same] at member
  simp only [List.mem_cons, List.mem_append, List.not_mem_nil, or_false, ListCall.elem] at member ⊢
  tauto

private theorem exec_addBefore (ring : IsRing l head xs) (listed : m ∈ xs) (fresh : elem ∉ head :: xs) :
    ∃ l', (ListCall.addBefore m elem).exec l = some l' ∧ Edited l l' (.addBefore m elem) head xs := by
  obtain ⟨us, vs, rfl, before, behind⟩ := split_member ring listed
  obtain ⟨l', added, ring', kept⟩ := listAddTail_member ring fresh
  have same : (ListCall.addBefore m elem).edit head (us ++ m :: vs) = us ++ elem :: m :: vs :=
    (flatMap_member (fun x => [elem, x]) before behind).trans (by simp)
  refine ⟨l', added, by rwa [same], fun x member => ?_, kept, nofun⟩
  rw [same] at member
  simp only [List.mem_cons, List.mem_append, ListCall.elem] at member ⊢
  tauto

private theorem exec_addAfter (ring : IsRing l head xs) (listed : m ∈ xs) (fresh : elem ∉ head :: xs) :
    ∃ l', (ListCall.addAfter m elem).exec l = some l' ∧ Edited l l' (.addAfter m elem) head xs := by
  obtain ⟨us, vs, rfl, before, behind⟩ := split_member ring listed
  obtain ⟨l', added, ring', kept⟩ := listAdd_member ring fresh
  have same : (ListCall.addAfter m elem).edit head (us ++ m :: vs) = us ++ m :: elem :: vs :=
    (flatMap_member (fun x => [x, elem]) before behind).trans (by simp)
  refine ⟨l', added, by rwa [same], fun x member => ?_, kept, nofun⟩
  rw [same] at member
  simp only [List.mem_cons, List.mem_append, ListCall.elem] at member ⊢
  tauto

private theorem exec_del (ring : IsRing l head xs) (listed : elem ∈ xs) :
    ∃ l', (ListCall.del elem).exec l = some l' ∧ Edited l l' (.del elem) head xs := by
  obtain ⟨us, vs, rfl, before, behind⟩ := split_member ring listed
  obtain ⟨l', removed, ring', next, prev, kept⟩ := listDel_at ring
  have same : (ListCall.del elem).edit head (us ++ elem :: vs) = us ++ vs := by
    rw [ListCall.edit, List.erase_append_right _ before, List.erase_cons_head]
  refine ⟨l', removed, by rwa [same], fun x member => ?_, fun x other => kept x ?_, fun elem' del => ?_⟩
  · rw [same] at member
    simp only [List.mem_cons, List.mem_append, ListCall.elem] at member ⊢
    tauto
  · simp only [List.mem_cons, List.mem_append, ListCall.elem, not_or] at other ⊢
    tauto
  · cases del
    exact ⟨next, prev⟩

/-- A permitted call runs and edits one ring. -/
theorem ListCall.exec_spec {call : ListCall ν} (rings : Rings l heads seq) (permitted : call.Permitted heads seq) :
    ∃ l' head, call.exec l = some l' ∧ head ∈ heads ∧ call.Affects seq head ∧ Edited l l' call head (seq head) := by
  cases call with
  | add head elem =>
    obtain ⟨listed, fresh⟩ := permitted
    obtain ⟨l', ran, edited⟩ := exec_add (rings.ring head listed) (fresh head listed)
    exact ⟨l', head, ran, listed, rfl, edited⟩
  | addTail head elem =>
    obtain ⟨listed, fresh⟩ := permitted
    obtain ⟨l', ran, edited⟩ := exec_addTail (rings.ring head listed) (fresh head listed)
    exact ⟨l', head, ran, listed, rfl, edited⟩
  | addBefore member elem =>
    obtain ⟨⟨head, listed, inside⟩, fresh⟩ := permitted
    obtain ⟨l', ran, edited⟩ := exec_addBefore (rings.ring head listed) inside (fresh head listed)
    exact ⟨l', head, ran, listed, inside, edited⟩
  | addAfter member elem =>
    obtain ⟨⟨head, listed, inside⟩, fresh⟩ := permitted
    obtain ⟨l', ran, edited⟩ := exec_addAfter (rings.ring head listed) inside (fresh head listed)
    exact ⟨l', head, ran, listed, inside, edited⟩
  | del elem =>
    obtain ⟨head, listed, inside⟩ := permitted
    obtain ⟨l', ran, edited⟩ := exec_del (rings.ring head listed) inside
    exact ⟨l', head, ran, listed, inside, edited⟩

omit [DecidableEq ν] in
theorem ListCall.affects_unique {call : ListCall ν} {other : ν} (rings : Rings l heads seq) (listed : head ∈ heads)
    (affected : call.Affects seq head) (listed' : other ∈ heads) (affected' : call.Affects seq other) :
    other = head := by
  cases call with
  | add head' elem | addTail head' elem => exact Eq.trans affected' (Eq.symm affected)
  | addBefore member elem | addAfter member elem | del elem =>
    exact rings.unique listed' listed (List.mem_cons_of_mem _ affected') (List.mem_cons_of_mem _ affected)

omit [DecidableEq ν] in
/-- The element of a call is on no other ring. -/
theorem ListCall.elem_outside {call : ListCall ν} {other : ν} (rings : Rings l heads seq)
    (permitted : call.Permitted heads seq) (listed : head ∈ heads) (affected : call.Affects seq head)
    (listed' : other ∈ heads) (differ : other ≠ head) : call.elem ∉ other :: seq other := by
  cases call with
  | add head' elem | addTail head' elem | addBefore member elem | addAfter member elem =>
    exact permitted.2 other listed'
  | del elem => exact rings.apart head listed other listed' differ.symm elem (List.mem_cons_of_mem _ affected)

theorem Rings.edited {call : ListCall ν} (rings : Rings l heads seq) (permitted : call.Permitted heads seq)
    (listed : head ∈ heads) (affected : call.Affects seq head) (edited : Edited l l' call head (seq head)) :
    Rings l' heads (call.apply seq) := by
  have others : ∀ other ∈ heads, other ≠ head → call.apply seq other = seq other := by
    intro other listed' differ
    exact ListCall.edit_other fun affected' => differ (call.affects_unique rings listed affected listed' affected')
  have away : ∀ other ∈ heads, other ≠ head → ∀ x ∈ head :: call.apply seq head, x ∉ other :: seq other := by
    intro other listed' differ x member
    rcases edited.inside x member with rfl | inside
    · exact call.elem_outside rings permitted listed affected listed' differ
    · exact rings.apart head listed other listed' differ.symm x inside
  refine ⟨fun other listed' => ?_, fun first listed₁ second listed₂ differ x member member' => ?_⟩
  · by_cases same : other = head
    · subst same
      exact edited.ring
    · rw [others other listed' same]
      refine (rings.ring other listed').congr fun x member => edited.kept x ?_
      simp only [List.mem_cons, not_or]
      refine ⟨?_, ?_, ?_⟩
      · rintro rfl
        exact away other listed' same x List.mem_cons_self member
      · rintro rfl
        exact call.elem_outside rings permitted listed affected listed' same member
      · intro inside
        exact rings.apart head listed other listed' (Ne.symm same) x (List.mem_cons_of_mem _ inside) member
  · by_cases same : first = head
    · subst same
      rw [others second listed₂ differ.symm] at member'
      exact away second listed₂ differ.symm x member member'
    · rw [others first listed₁ same] at member
      by_cases same' : second = head
      · subst same'
        exact away first listed₁ same x member' member
      · rw [others second listed₂ same'] at member'
        exact rings.apart first listed₁ second listed₂ differ x member member'

/-- A body for the loops that collects the nodes it is run on. -/
def gather (seen : List ν) (x : ν) : Option (List ν) := some (seen ++ [x])

omit [DecidableEq ν] in
theorem foldlM_gather (xs seen : List ν) : xs.foldlM gather seen = some (seen ++ xs) := by
  induction xs generalizing seen with
  | nil => simp
  | cons x xs ih => simp [gather, ih]

private theorem visitReverse_ring {β : Type*} (ring : IsRing l head xs) (body : β → ν → Option β) {limit : Nat}
    (enough : xs.length < limit) (state : β) :
    visitReverse l head body limit state = xs.reverse.foldlM body state :=
  visit_ring ring.flip body (by rwa [List.length_reverse]) state

/-- What holds after a call: it has edited the sequence behind one head, the loops
meet the elements in order and in reverse order, and the other nodes are as before. -/
structure Refines (l l' : Links ν) (heads : Set ν) (seq : ν → List ν) (call : ListCall ν) : Prop where
  rings : Rings l' heads (call.apply seq)
  successor : ∀ head ∈ heads, ∀ x ∈ head :: call.apply seq head,
    ∃ y ∈ head :: call.apply seq head, l'.next x = some y ∧ l'.prev y = some x
  predecessor : ∀ head ∈ heads, ∀ y ∈ head :: call.apply seq head,
    ∃ x ∈ head :: call.apply seq head, l'.prev y = some x ∧ l'.next x = some y
  forward : ∀ head ∈ heads, ∀ limit, (call.apply seq head).length < limit →
    visit l' head gather limit [] = some (call.apply seq head)
  backward : ∀ head ∈ heads, ∀ limit, (call.apply seq head).length < limit →
    visitReverse l' head gather limit [] = some (call.apply seq head).reverse
  empty : ∀ head ∈ heads, listEmpty l' head = true ↔ call.apply seq head = []
  removed : ∀ elem, call = .del elem → l'.next elem = none ∧ l'.prev elem = none
  frame : ∀ x, x ≠ call.elem → (∀ head ∈ heads, call.Affects seq head → x ∉ head :: seq head) →
    l'.next x = l.next x ∧ l'.prev x = l.prev x

theorem ListCall.exec_refines {call : ListCall ν} (rings : Rings l heads seq) (permitted : call.Permitted heads seq) :
    ∃ l', call.exec l = some l' ∧ Refines l l' heads seq call := by
  obtain ⟨l', head, ran, listed, affected, edited⟩ := call.exec_spec rings permitted
  have after := rings.edited permitted listed affected edited
  refine ⟨l', ran, after, fun head listed x member => (after.ring head listed).successor member, ?_, ?_, ?_,
    fun head listed => listEmpty_ring (after.ring head listed), edited.removed, ?_⟩
  · intro head listed y member
    obtain ⟨x, inside, linked⟩ := (after.ring head listed).predecessor member
    exact ⟨x, inside, linked.2, linked.1⟩
  · intro head listed limit enough
    rw [visit_ring (after.ring head listed) gather enough, foldlM_gather, List.nil_append]
  · intro head listed limit enough
    rw [visitReverse_ring (after.ring head listed) gather enough, foldlM_gather, List.nil_append]
  · intro x other outside
    apply edited.kept x
    have away := outside head listed affected
    simp only [List.mem_cons, not_or] at away ⊢
    exact ⟨away.1, other, away.2⟩

/-- Each call is permitted in the state that the calls before it lead to. -/
def PermittedRun (heads : Set ν) (seq : ν → List ν) : List (ListCall ν) → Prop
  | [] => True
  | call :: calls => call.Permitted heads seq ∧ PermittedRun heads (call.apply seq) calls

/-- Along any run each call refines the edit of its sequence. -/
theorem lists_refine_sequences {calls : List (ListCall ν)} {call : ListCall ν} (rings : Rings l heads seq)
    (permitted : PermittedRun heads seq (calls ++ [call])) :
    ∃ before after, calls.foldlM ListCall.exec l = some before ∧ call.exec before = some after ∧
      Refines before after heads (calls.foldl ListCall.apply seq) call := by
  induction calls generalizing l seq with
  | nil =>
    obtain ⟨after, ran, refined⟩ := call.exec_refines rings permitted.1
    exact ⟨l, after, rfl, ran, refined⟩
  | cons first calls ih =>
    obtain ⟨next, ran, refined⟩ := first.exec_refines rings permitted.1
    obtain ⟨before, after, reached, rest⟩ := ih refined.rings permitted.2
    refine ⟨before, after, ?_, rest⟩
    rw [List.foldlM_cons, ran]
    exact reached

/-- Two rings, with the heads 0 and 1 and the elements 2 and 3 in the first. -/
def twoRings : Links Nat where
  next x := [some 2, some 1, some 3, some 0][x]?.join
  prev x := [some 3, some 1, some 0, some 2][x]?.join

private theorem twoRings_rings : Rings twoRings {0, 1} fun head => if head = 0 then [2, 3] else [] := by
  refine ⟨?_, ?_⟩
  · rintro head (rfl | rfl)
    · exact ⟨⟨⟨rfl, rfl⟩, ⟨rfl, rfl⟩, rfl, rfl⟩, by decide⟩
    · exact ⟨⟨rfl, rfl⟩, by decide⟩
  · rintro head (rfl | rfl) other (rfl | rfl) differ <;> first | exact absurd rfl differ | decide

/-- Element 2 moves from one list to the end of the other. -/
theorem lists_refine_sequences_witness :
    ∃ before after, [ListCall.del 2].foldlM ListCall.exec twoRings = some before ∧
      (ListCall.addTail 1 2).exec before = some after ∧
      Refines before after {0, 1} ([ListCall.del 2].foldl ListCall.apply fun head => if head = 0 then [2, 3] else [])
        (.addTail 1 2) := by
  refine lists_refine_sequences twoRings_rings ⟨⟨0, .inl rfl, by decide⟩, ⟨.inr rfl, ?_⟩, trivial⟩
  rintro head (rfl | rfl) <;> decide

end Hotarubi.Include
