import Hotarubi.Proofs.SlistSequences
import Hotarubi.Proofs.HlistSequences

/-! The loops whose bodies delete elements. Each takes the next element before its body
runs, so what the body deletes of the elements visited so far does not matter to it. -/

namespace Hotarubi.Include
open Base Ring Chain

variable {η ν β : Type*} [DecidableEq ν] {h : ν} {doomed : ν → List ν} {xs : List ν} {limit : Nat}

/-- At each element the body deletes some of the elements visited so far, none twice. -/
structure Deletions (doomed : ν → List ν) (xs : List ν) : Prop where
  once : (xs.flatMap doomed).Nodup
  visited : ∀ us x vs, xs = us ++ x :: vs → ∀ y ∈ doomed x, y ∈ us ++ [x]

def leftOver (doomed : ν → List ν) (xs : List ν) : List ν := xs.filter fun x => x ∉ xs.flatMap doomed

/-- The body of a loop: it deletes elements, and what it was run on is noted. -/
def deleting (del : β → ν → Option β) (doomed : ν → List ν) (state : β × List ν) (ptr : ν) : Option (β × List ν) :=
  ((doomed ptr).foldlM del state.1).map fun heap => (heap, state.2 ++ [ptr])

/-- Deleting an element of a list leaves a list of the others. -/
structure Deletes (holds : β → List ν → Prop) (del : β → ν → Option β) : Prop where
  nodup : ∀ heap xs, holds heap xs → xs.Nodup
  del : ∀ heap us x vs, holds heap (us ++ x :: vs) → ∃ heap', del heap x = some heap' ∧ holds heap' (us ++ vs)

variable {holds : β → List ν → Prop} {del : β → ν → Option β}

theorem Deletes.all (deletes : Deletes holds del) {heap : β} {ys : List ν} (start : holds heap xs) (once : ys.Nodup)
    (inside : ∀ y ∈ ys, y ∈ xs) : ∃ heap', ys.foldlM del heap = some heap' ∧ holds heap' (xs.filter (· ∉ ys)) := by
  induction ys generalizing heap xs with
  | nil => exact ⟨heap, rfl, by simpa using start⟩
  | cons y ys ih =>
    obtain ⟨fresh, rest⟩ := List.nodup_cons.mp once
    obtain ⟨us, vs, rfl⟩ := List.append_of_mem (inside y List.mem_cons_self)
    have distinct : (y :: (us ++ vs)).Nodup := List.perm_middle.nodup_iff.mp (deletes.nodup heap _ start)
    have missing := (List.nodup_cons.mp distinct).1
    obtain ⟨heap1, gone, held⟩ := deletes.del heap us y vs start
    have others : ∀ z ∈ ys, z ∈ us ++ vs := by
      intro z member
      have other : z ≠ y := ne_of_mem_of_not_mem member fresh
      have listed := inside z (List.mem_cons_of_mem _ member)
      simpa [other] using listed
    obtain ⟨heap', ran, held'⟩ := ih held rest others
    refine ⟨heap', by rw [List.foldlM_cons, gone]; exact ran, ?_⟩
    have same : (us ++ y :: vs).filter (· ∉ y :: ys) = (us ++ vs).filter (· ∉ ys) := by
      have kept : ∀ zs : List ν, y ∉ zs → zs.filter (· ∉ y :: ys) = zs.filter (· ∉ ys) := by
        intro zs absent
        apply List.filter_congr
        intro z member
        simp [ne_of_mem_of_not_mem member absent]
      rw [List.mem_append, not_or] at missing
      rw [List.filter_append, List.filter_append, List.filter_cons_of_neg (by simp), kept us missing.1, kept vs missing.2]
    rwa [same]

/-- The loop has come to the elements `rest`; of those before it the deleted ones are gone. -/
structure Progress (holds : β → List ν → Prop) (doomed : ν → List ν) (xs rest : List ν) (state : β × List ν) : Prop where
  seen : xs = state.2 ++ rest
  held : holds state.1 (leftOver doomed state.2 ++ rest)

private theorem leftOver_concat {x : ν} {rest : List ν} (deletions : Deletions doomed (xs ++ x :: rest))
    (nodup : (xs ++ x :: rest).Nodup) :
    (leftOver doomed xs ++ x :: rest).filter (· ∉ doomed x) = leftOver doomed (xs ++ [x]) ++ rest := by
  have distinct : (x :: (xs ++ rest)).Nodup := List.perm_middle.nodup_iff.mp nodup
  obtain ⟨fresh, others⟩ := List.nodup_cons.mp distinct
  have later : rest.filter (· ∉ doomed x) = rest := by
    apply List.filter_eq_self.mpr
    intro r member
    simp only [decide_eq_true_eq]
    intro gone
    rcases List.mem_append.mp (deletions.visited xs x rest rfl r gone) with before | here
    · exact (List.nodup_append.mp others).2.2 r before r member rfl
    · obtain rfl := List.mem_singleton.mp here
      exact fresh (List.mem_append_right _ member)
  have early : x ∉ xs.flatMap doomed := by
    intro gone
    obtain ⟨u, member, here⟩ := List.mem_flatMap.mp gone
    obtain ⟨us, vs, rfl⟩ := List.append_of_mem member
    have before := deletions.visited us u (vs ++ x :: rest) (by simp) x here
    apply fresh
    simp only [List.mem_append, List.mem_cons, List.not_mem_nil, or_false] at before ⊢
    tauto
  have first : (leftOver doomed xs).filter (· ∉ doomed x) = xs.filter (· ∉ (xs ++ [x]).flatMap doomed) := by
    rw [leftOver, List.filter_filter]
    apply List.filter_congr
    intro y member
    simp [and_comm, not_or]
  rw [List.filter_append, first, leftOver, List.filter_append, List.append_assoc]
  congr 1
  have same : x ∈ (xs ++ [x]).flatMap doomed ↔ x ∈ doomed x := by
    rw [List.flatMap_append, List.mem_append, or_iff_right early, List.flatMap_singleton]
  rw [List.filter_cons, List.filter_cons, later]
  simp only [same]
  split
  all_goals rfl

theorem Deletes.step (deletes : Deletes holds del) (deletions : Deletions doomed xs) (nodup : xs.Nodup) {x : ν}
    {rest : List ν} {state : β × List ν} (progress : Progress holds doomed xs (x :: rest) state) :
    ∃ state', deleting del doomed state x = some state' ∧ Progress holds doomed xs rest state' := by
  obtain ⟨heap, seen⟩ := state
  obtain ⟨rfl, held⟩ := progress
  have once := deletions.once
  rw [List.flatMap_append, List.flatMap_cons, List.nodup_append] at once
  have inside : ∀ y ∈ doomed x, y ∈ leftOver doomed seen ++ x :: rest := by
    intro y gone
    rcases List.mem_append.mp (deletions.visited seen x rest rfl y gone) with before | here
    · refine List.mem_append_left _ (List.mem_filter.mpr ⟨before, ?_⟩)
      simp only [decide_eq_true_eq]
      intro already
      exact once.2.2 y already y (List.mem_append_left _ gone) rfl
    · obtain rfl := List.mem_singleton.mp here
      exact List.mem_append_right _ List.mem_cons_self
  obtain ⟨heap', ran, held'⟩ := deletes.all held (List.nodup_append.mp once.2.1).1 inside
  rw [leftOver_concat deletions nodup] at held'
  exact ⟨(heap', seen ++ [x]), by rw [deleting, ran]; rfl, by simp, held'⟩

theorem Progress.start {heap : β} (held : holds heap xs) : Progress holds doomed xs xs (heap, []) := ⟨rfl, held⟩

theorem Progress.done {state : β × List ν} (progress : Progress holds doomed xs [] state) :
    ∃ heap, state = (heap, xs) ∧ holds heap (leftOver doomed xs) := by
  obtain ⟨heap, seen⟩ := state
  obtain ⟨rfl, held⟩ := progress
  refine ⟨heap, by simp, ?_⟩
  simpa using held

/-- The circular lists, for any link that the loop follows. -/
theorem Deletes.circular (deletes : Deletes holds del) (next : β → ν → Option ν)
    (first : ∀ heap ys, holds heap ys → next heap h = some (ys.headD h))
    (cursor : ∀ heap us x vs, holds heap (us ++ x :: vs) → x ≠ h ∧ next heap x = some (vs.headD h))
    (deletions : Deletions doomed xs) {heap : β} (held : holds heap xs) (enough : xs.length < limit) :
    ∃ heap', visitMutable (fun state : β × List ν => next state.1) h (deleting del doomed) limit (heap, []) =
      some (heap', xs) ∧ holds heap' (leftOver doomed xs) := by
  have nodup := deletes.nodup heap xs held
  obtain ⟨state', ran, progress⟩ := @visitMutable_induction ν (β × List ν) _ h xs (fun state => next state.1)
    (deleting del doomed) (Progress holds doomed xs)
    (fun x rest state progress => cursor state.1 _ x rest progress.held)
    (fun x rest state progress => deletes.step deletions nodup progress) limit (heap, []) (Progress.start held)
    (first heap xs held) enough
  obtain ⟨heap', rfl, held'⟩ := progress.done
  exact ⟨heap', ran, held'⟩

private theorem leftOver_reverse (doomed : ν → List ν) (xs : List ν) : (leftOver doomed xs.reverse).reverse =
    leftOver doomed xs := by
  rw [leftOver, leftOver, List.filter_reverse, List.reverse_reverse]
  apply List.filter_congr
  intro x _
  simp

section Instances

variable {l : Links ν} {next : ν → Option ν}

private theorem listDel_deletes (h : ν) : Deletes (fun (l : Links ν) xs => IsRing l h xs) listDel := by
  refine ⟨fun l xs ring => (List.nodup_cons.mp ring.nodup).2, fun l us x vs ring => ?_⟩
  obtain ⟨l', removed, ring', _⟩ := listDel_at ring
  exact ⟨l', removed, ring'⟩

private theorem listDel_deletes_flip (h : ν) : Deletes (fun (l : Links ν) xs => IsRing l.flip h xs) listDel := by
  refine ⟨fun l xs ring => (List.nodup_cons.mp ring.nodup).2, fun l us x vs ring => ?_⟩
  have turned : IsRing l h (vs.reverse ++ x :: us.reverse) := by simpa [Links.flip] using ring.flip
  obtain ⟨l', removed, ring', _⟩ := listDel_at turned
  exact ⟨l', removed, by simpa using ring'.flip⟩

private theorem slistDel_deletes (h : ν) (limit : Nat) : Deletes
    (fun (next : ν → Option ν) xs => IsChain next h xs ∧ xs.length < limit)
    fun next elem => slistDel next h elem limit := by
  refine ⟨fun next xs held => (List.nodup_cons.mp held.1.nodup).2, fun next us x vs held => ?_⟩
  obtain ⟨chain, enough⟩ := held
  rw [List.length_append, List.length_cons] at enough
  have room : us.length < limit := by omega
  obtain ⟨next', removed, chain'⟩ := slistDel_chain chain room
  exact ⟨next', removed, chain', by rw [List.length_append]; omega⟩

private theorem visitMutable_list (ring : IsRing l h xs) (deletions : Deletions doomed xs) (enough : xs.length < limit) :
    ∃ l', visitMutable (fun state : Links ν × List ν => state.1.next) h (deleting listDel doomed) limit (l, []) =
      some (l', xs) ∧ IsRing l' h (leftOver doomed xs) :=
  (listDel_deletes h).circular Links.next (fun _ _ ring => ring.chain.first)
    (fun _ _ _ _ ring => ring.chain.behind) deletions ring enough

private theorem visitMutableReverse_list (ring : IsRing l h xs) (deletions : Deletions doomed xs.reverse)
    (enough : xs.length < limit) :
    ∃ l', visitMutableReverse Prod.fst h (deleting listDel doomed) limit (l, []) = some (l', xs.reverse) ∧
      IsRing l' h (leftOver doomed xs) := by
  obtain ⟨l', ran, ring'⟩ := (listDel_deletes_flip h).circular Links.prev (fun _ _ ring => ring.chain.first)
    (fun _ _ _ _ ring => ring.chain.behind) deletions ring.flip
    (by simpa using enough)
  refine ⟨l', ran, ?_⟩
  rw [← leftOver_reverse]
  exact ring'.flip

private theorem visitMutable_slist (chain : IsChain next h xs) (deletions : Deletions doomed xs)
    (enough : xs.length < limit) :
    ∃ next', visitMutable (fun state : (ν → Option ν) × List ν => state.1) h
      (deleting (fun next elem => slistDel next h elem limit) doomed) limit (next, []) = some (next', xs) ∧
      IsChain next' h (leftOver doomed xs) := by
  obtain ⟨next', ran, chain', _⟩ := (slistDel_deletes h limit).circular (fun next => next)
    (fun _ _ held => held.1.first) (fun _ _ _ _ held => held.1.behind) deletions ⟨chain, enough⟩ enough
  exact ⟨next', ran, chain'⟩

private theorem hlistDel_deletes [DecidableEq η] (k : η) : Deletes
    (fun (l : Hlists η ν) xs => IsHlist l k xs) hlistDel := by
  refine ⟨fun l xs list => list.nodup, fun l us x vs list => ?_⟩
  obtain ⟨l', removed, list', _⟩ := hlistDel_list list
  exact ⟨l', removed, list'⟩

private theorem hlistVisitMutableFrom_list [DecidableEq η] {k : η} (deletions : Deletions doomed xs) (nodup : xs.Nodup)
    {rest : List ν} {state : Hlists η ν × List ν} (progress : Progress (IsHlist · k ·) doomed xs rest state)
    (enough : rest.length ≤ limit) :
    ∃ l', hlistVisitMutableFrom Prod.fst (deleting hlistDel doomed) limit rest.head? state = some (l', xs) ∧
      IsHlist l' k (leftOver doomed xs) := by
  induction rest generalizing limit state with
  | nil =>
    obtain ⟨l', rfl, list'⟩ := progress.done
    exact ⟨l', by cases limit <;> rfl, list'⟩
  | cons x rest ih =>
    obtain ⟨limit, rfl⟩ := Nat.exists_eq_add_one_of_ne_zero (Nat.ne_of_gt (Nat.lt_of_lt_of_le (Nat.zero_lt_succ _) enough))
    obtain ⟨state1, ran, progress1⟩ := (hlistDel_deletes k).step deletions nodup progress
    obtain ⟨l', rest', list'⟩ := ih progress1 (by simpa using enough)
    refine ⟨l', ?_, list'⟩
    rw [List.head?_cons, hlistVisitMutableFrom, ran, progress.held.behind]
    exact rest'

private theorem hlistVisitMutable_list [DecidableEq η] {l : Hlists η ν} {k : η} (list : IsHlist l k xs)
    (deletions : Deletions doomed xs) (enough : xs.length ≤ limit) :
    (∃ l', hlistVisitMutable Prod.fst k (deleting hlistDel doomed) limit (l, []) = some (l', xs) ∧
      IsHlist l' k (leftOver doomed xs)) ↔ xs ≠ [] := by
  have first := list.first
  cases xs with
  | nil =>
    refine iff_of_false ?_ (fun filled => filled rfl)
    intro ⟨l', ran, _⟩
    rw [hlistVisitMutable, first] at ran
    cases ran
  | cons x xs =>
    refine iff_of_true ?_ (List.cons_ne_nil x xs)
    obtain ⟨l', ran, list'⟩ := hlistVisitMutableFrom_list deletions list.nodup (Progress.start list) enough
    refine ⟨l', ?_, list'⟩
    rw [hlistVisitMutable, first]
    exact ran

end Instances

/-- The loops over the circular lists meet every element and leave what is not deleted.
The one over a list with a single head does so unless the list is empty. -/
theorem mutable_loops_iff {η : Type*} [DecidableEq η] (doomed : ν → List ν) {xs : List ν} (enough : xs.length < limit) :
    (∀ (l : Links ν) (h : ν), IsRing l h xs → Deletions doomed xs →
      ∃ l', visitMutable (fun state => state.1.next) h (deleting listDel doomed) limit (l, []) = some (l', xs) ∧
        IsRing l' h (leftOver doomed xs)) ∧
    (∀ (l : Links ν) (h : ν), IsRing l h xs → Deletions doomed xs.reverse →
      ∃ l', visitMutableReverse Prod.fst h (deleting listDel doomed) limit (l, []) = some (l', xs.reverse) ∧
        IsRing l' h (leftOver doomed xs)) ∧
    (∀ (next : ν → Option ν) (h : ν), IsChain next h xs → Deletions doomed xs →
      ∃ next', visitMutable (fun state => state.1) h (deleting (fun next elem => slistDel next h elem limit) doomed) limit
        (next, []) = some (next', xs) ∧ IsChain next' h (leftOver doomed xs)) ∧
    (∀ (l : Hlists η ν) (k : η), IsHlist l k xs → Deletions doomed xs →
      ((∃ l', hlistVisitMutable Prod.fst k (deleting hlistDel doomed) limit (l, []) = some (l', xs) ∧
        IsHlist l' k (leftOver doomed xs)) ↔ xs ≠ [])) :=
  ⟨fun _ _ ring deletions => visitMutable_list ring deletions enough,
    fun _ _ ring deletions => visitMutableReverse_list ring deletions enough,
    fun _ _ chain deletions => visitMutable_slist chain deletions enough,
    fun _ _ list deletions => hlistVisitMutable_list list deletions (Nat.le_of_lt enough)⟩

/-- A list just initialised: the loop reads through its null pointer. -/
theorem hlist_mutable_null : IsHlist initHlists false [] ∧ Deletions (fun _ => []) ([] : List Nat) ∧
    ∀ limit, hlistVisitMutable Prod.fst false (deleting hlistDel fun _ => []) limit (initHlists, []) = none :=
  ⟨(initHlists_hold Set.univ).list false trivial, ⟨List.nodup_nil, fun us x vs split => by simp at split⟩, fun _ => rfl⟩

/-- The elements 1 and 2 in a list of each kind, with the head 0. -/
def pairLinks : Links Nat where
  next x := [some 1, some 2, some 0][x]?.join
  prev x := [some 2, some 0, some 1][x]?.join

def pairHlist : Hlists Bool Nat := hlistAdd (hlistAdd initHlists false 2) false 1

private theorem pairLinks_ring : IsRing pairLinks 0 [1, 2] := ⟨⟨⟨rfl, rfl⟩, ⟨rfl, rfl⟩, rfl, rfl⟩, by simp⟩

private theorem pairHlist_list : IsHlist pairHlist false [1, 2] := ⟨⟨rfl, rfl, rfl, rfl, trivial⟩, rfl, by simp⟩

def late (x : Nat) : List Nat := if x = 2 then [1] else []

private theorem late_deletions : Deletions late [1, 2] := by
  refine ⟨by simp [late], ?_⟩
  intro us x vs split y gone
  obtain ⟨rfl, rfl⟩ : x = 2 ∧ y = 1 := by simpa [late] using gone
  rcases us with _ | ⟨u, us⟩ <;> simp_all

omit [DecidableEq ν] in
private theorem each_deletions {xs : List ν} (nodup : xs.Nodup) : Deletions (fun x => [x]) xs := by
  refine ⟨by simpa using nodup, ?_⟩
  intro us x vs _ y gone
  exact List.mem_append_right us gone

/-- Run over the lists that are met from the front, and over one from the back that is emptied. -/
theorem mutable_loops_iff_witness :
    (∃ l', visitMutable (fun state => state.1.next) 0 (deleting listDel late) 3 (pairLinks, []) = some (l', [1, 2]) ∧
      IsRing l' 0 (leftOver late [1, 2])) ∧
    (∃ l', visitMutableReverse Prod.fst 0 (deleting listDel fun x => [x]) 3 (pairLinks, []) = some (l', [2, 1]) ∧
      IsRing l' 0 (leftOver (fun x => [x]) [1, 2])) ∧
    (∃ next', visitMutable (fun state => state.1) 0 (deleting (fun next elem => slistDel next 0 elem 3) late) 3
      (pairLinks.next, []) = some (next', [1, 2]) ∧ IsChain next' 0 (leftOver late [1, 2])) ∧
    ((∃ l', hlistVisitMutable Prod.fst false (deleting hlistDel late) 3 (pairHlist, []) = some (l', [1, 2]) ∧
      IsHlist l' false (leftOver late [1, 2])) ↔ [1, 2] ≠ []) := by
  obtain ⟨list, _, slist, hlist⟩ := @mutable_loops_iff Nat _ 3 Bool _ late [1, 2] (by simp)
  obtain ⟨_, reverse, _⟩ := @mutable_loops_iff Nat _ 3 Bool _ (fun x => [x]) [1, 2] (by simp)
  exact ⟨list pairLinks 0 pairLinks_ring late_deletions, reverse pairLinks 0 pairLinks_ring (each_deletions (by simp)),
    slist pairLinks.next 0 pairLinks_ring.chain late_deletions, hlist pairHlist false pairHlist_list late_deletions⟩

end Hotarubi.Include
