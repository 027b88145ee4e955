import Hotarubi.Proofs.List

/-! `list_splice` over lists of every length. Its test for an empty list compares the two
links of the head, which also agree in a list of one element. -/

namespace Hotarubi.Include
open Base Ring

variable {ν : Type*} [DecidableEq ν] {l : Links ν} {list head h : ν} {xs zs : List ν}

/-- The elements of a list stand in order behind the node `h` of the ring of `head`,
and the list itself is empty. -/
structure Grafted (l' : Links ν) (list head h : ν) (xs zs : List ν) : Prop where
  ring : ∃ us vs joined, head :: zs = us ++ h :: vs ∧ head :: joined = us ++ h :: (xs ++ vs) ∧ IsRing l' head joined
  empty : IsRing l' list []

private theorem listSplice_grafts (ring : IsRing l list xs) (other : IsRing l head zs)
    (apart : ∀ x ∈ list :: xs, x ∉ head :: zs) (member : h ∈ head :: zs) (length : xs.length ≠ 1) :
    ∃ l', listSplice l list h = some l' ∧ Grafted l' list head h xs zs := by
  cases xs with
  | nil =>
    obtain ⟨us, vs, split⟩ := List.append_of_mem member
    have loop : l.next list = l.prev list := ring.path.1.trans ring.path.2.symm
    exact ⟨l, listSplice_same loop, ⟨us, vs, zs, split, split, other⟩, ring⟩
  | cons first xs =>
    cases xs with
    | nil => exact absurd rfl length
    | cons second xs =>
      rcases List.mem_cons.mp member with rfl | inside
      · obtain ⟨l', moved, ring', empty, _⟩ := listSplice_ring ring other apart
        exact ⟨l', moved, ⟨[], zs, _, rfl, rfl, ring'⟩, empty⟩
      · obtain ⟨us, vs, rfl⟩ := List.append_of_mem inside
        obtain ⟨l', moved, ring', empty, _⟩ := listSplice_at ring other apart
        exact ⟨l', moved, ⟨head :: us, vs, _, rfl, rfl, ring'⟩, empty⟩

private theorem listSplice_single {x : ν} (ring : IsRing l list [x]) : listSplice l list h = some l :=
  listSplice_same ((path_next ring.path).trans (path_prev ring.path).symm)

/-- Every list but one of a single element is moved over. -/
theorem listSplice_grafts_iff (ring : IsRing l list xs) (other : IsRing l head zs)
    (apart : ∀ x ∈ list :: xs, x ∉ head :: zs) (member : h ∈ head :: zs) :
    (∃ l', listSplice l list h = some l' ∧ Grafted l' list head h xs zs) ↔ xs.length ≠ 1 := by
  refine ⟨?_, listSplice_grafts ring other apart member⟩
  intro ⟨l', moved, grafted⟩ single
  obtain ⟨x, rfl⟩ := List.length_eq_one_iff.mp single
  obtain rfl : l = l' := Option.some.inj ((listSplice_single ring).symm.trans moved)
  exact List.cons_ne_nil x [] (ring.unique grafted.empty)

/-- A list with the head 0 and the element 1, and one with the head 2 and the elements 3 and 4. -/
def shortRings : Links Nat where
  next x := [some 1, some 0, some 3, some 4, some 2][x]?.join
  prev x := [some 1, some 0, some 4, some 2, some 3][x]?.join

private theorem shortRings_first : IsRing shortRings 0 [1] := ⟨⟨⟨rfl, rfl⟩, rfl, rfl⟩, by simp⟩

private theorem shortRings_second : IsRing shortRings 2 [3, 4] := ⟨⟨⟨rfl, rfl⟩, ⟨rfl, rfl⟩, rfl, rfl⟩, by simp⟩

theorem listSplice_loses : IsRing shortRings 0 [1] ∧ IsRing shortRings 2 [3, 4] ∧ (∀ x ∈ [0, 1], x ∉ [2, 3, 4]) ∧
    ¬∃ l', listSplice shortRings 0 2 = some l' ∧ Grafted l' 0 2 2 [1] [3, 4] := by
  refine ⟨shortRings_first, shortRings_second, by simp, ?_⟩
  intro ⟨l', moved, grafted⟩
  obtain rfl : shortRings = l' := Option.some.inj ((listSplice_single shortRings_first).symm.trans moved)
  exact List.cons_ne_nil 1 [] (shortRings_first.unique grafted.empty)

theorem listSplice_grafts_iff_witness :
    (∃ l', listSplice shortRings 2 1 = some l' ∧ Grafted l' 2 0 1 [3, 4] [1]) ↔ [3, 4].length ≠ 1 :=
  listSplice_grafts_iff shortRings_second shortRings_first (by simp) (by simp)

end Hotarubi.Include
