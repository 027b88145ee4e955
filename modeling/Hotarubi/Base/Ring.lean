import Hotarubi.Base.Chain

/-! Rings of doubly linked nodes, as the sequence of nodes met from one of them.
Any node may serve as the head, so every edit is stated at the head. -/

namespace Hotarubi.Base

/-- The two pointers of every node; a null pointer is `none`. -/
structure Links (ν : Type*) where
  next : ν → Option ν
  prev : ν → Option ν

/-- The same nodes with the two pointers exchanged. -/
def Links.flip {ν : Type*} (l : Links ν) : Links ν := ⟨l.prev, l.next⟩

namespace Ring

variable {ν : Type*} {l l' : Links ν} {a b h : ν} {xs ys : List ν}

/-- Two neighbours that point at each other. -/
def Linked (l : Links ν) (a b : ν) : Prop := l.next a = some b ∧ l.prev b = some a

/-- The nodes between `a` and `b`, each linked to the next. -/
def Path (l : Links ν) : ν → List ν → ν → Prop
  | a, [], b => Linked l a b
  | a, x :: xs, b => Linked l a x ∧ Path l x xs b

theorem path_append {y : ν} : Path l a (xs ++ y :: ys) b ↔ Path l a xs y ∧ Path l y ys b := by
  induction xs generalizing a with
  | nil => rfl
  | cons x xs ih => rw [List.cons_append, Path, Path, ih, and_assoc]

/-- A path reads `next` of all its nodes but the last and `prev` of all but the first. -/
theorem path_congr (forward : ∀ x ∈ a :: xs, l'.next x = l.next x) (backward : ∀ x ∈ xs, l'.prev x = l.prev x)
    (last : l'.prev b = l.prev b) : Path l' a xs b ↔ Path l a xs b := by
  induction xs generalizing a with
  | nil => simp only [Path, Linked, forward a List.mem_cons_self, last]
  | cons x xs ih =>
    rw [Path, Path, ih (fun y member => forward y (List.mem_cons_of_mem _ member))
      (fun y member => backward y (List.mem_cons_of_mem _ member)), Linked, Linked, forward a List.mem_cons_self,
      backward x List.mem_cons_self]

theorem path_next (path : Path l a xs b) : l.next a = some (xs.headD b) := by
  cases xs with
  | nil => exact path.1
  | cons x xs => exact path.1.1

theorem path_prev (path : Path l a xs b) : l.prev b = some (xs.getLastD a) := by
  induction xs generalizing a with
  | nil => exact path.2
  | cons x xs ih =>
    rw [List.getLastD_cons]
    exact ih path.2

theorem headD_mem (h : ν) (ys : List ν) : ys.headD h ∈ h :: ys := by
  cases ys with
  | nil => exact List.mem_cons_self
  | cons y ys => exact List.mem_cons_of_mem _ List.mem_cons_self

theorem getLastD_mem (a : ν) (xs : List ν) : xs.getLastD a ∈ a :: xs := by
  induction xs generalizing a with
  | nil => exact List.mem_cons_self
  | cons x xs ih =>
    rw [List.getLastD_cons]
    exact List.mem_cons_of_mem _ (ih x)

/-- A path whose last node is linked to `c` instead leads to `c`. -/
theorem path_redirect {c : ν} (path : Path l a xs b) (nodup : (a :: xs).Nodup)
    (forward : ∀ x ∈ a :: xs, x ≠ xs.getLastD a → l'.next x = l.next x)
    (backward : ∀ x ∈ xs, l'.prev x = l.prev x) (last : Linked l' (xs.getLastD a) c) : Path l' a xs c := by
  induction xs generalizing a with
  | nil => exact last
  | cons x xs ih =>
    rw [List.getLastD_cons] at last forward
    obtain ⟨fresh, rest⟩ := List.nodup_cons.mp nodup
    have kept : a ≠ xs.getLastD x := by
      rintro same
      exact fresh (same ▸ getLastD_mem x xs)
    exact ⟨⟨(forward a List.mem_cons_self kept).trans path.1.1, (backward x List.mem_cons_self).trans path.1.2⟩,
      ih path.2 rest (fun y member other => forward y (List.mem_cons_of_mem _ member) other)
        (fun y member => backward y (List.mem_cons_of_mem _ member)) last⟩

/-- The head `h` and the nodes `xs` behind it form one ring without repetition. -/
structure IsRing (l : Links ν) (h : ν) (xs : List ν) : Prop where
  path : Path l h xs h
  nodup : (h :: xs).Nodup

theorem leads_of_path (path : Path l a xs b) : Chain.Leads l.next a xs b := by
  induction xs generalizing a with
  | nil => exact path.1
  | cons x xs ih => exact ⟨path.1.1, ih path.2⟩

/-- The rule for the loops that go around a ring. -/
theorem IsRing.walk {γ : Type*} {f : Nat → Option ν → γ} {g : List ν → γ} (ring : IsRing l h xs)
    (done : ∀ limit, f (limit + 1) (some h) = g [])
    (more : ∀ limit x rest, x ≠ h → f limit (l.next x) = g rest → f (limit + 1) (some x) = g (x :: rest))
    {limit : Nat} (enough : xs.length < limit) : f limit (l.next h) = g xs :=
  Chain.walk_leads (leads_of_path ring.path) (List.nodup_cons.mp ring.nodup).1 done more enough

theorem IsRing.chain (ring : IsRing l h xs) : Chain.IsChain l.next h xs := ⟨leads_of_path ring.path, ring.nodup⟩

theorem IsRing.unique (left : IsRing l h xs) (right : IsRing l h ys) : xs = ys := left.chain.unique right.chain

/-- Every node of a ring can serve as its head. -/
theorem IsRing.rotate {y : ν} (ring : IsRing l h (xs ++ y :: ys)) : IsRing l y (ys ++ h :: xs) := by
  obtain ⟨before, behind⟩ := path_append.mp ring.path
  exact ⟨path_append.mpr ⟨behind, before⟩, (Chain.rotate_perm h y xs ys).nodup_iff.mpr ring.nodup⟩

/-- Links that agree on the nodes of a ring hold the same ring. -/
theorem IsRing.congr (ring : IsRing l h xs)
    (same : ∀ x ∈ h :: xs, l'.next x = l.next x ∧ l'.prev x = l.prev x) : IsRing l' h xs :=
  ⟨(path_congr (fun x member => (same x member).1) (fun x member => (same x (List.mem_cons_of_mem _ member)).2)
    (same h List.mem_cons_self).2).mpr ring.path, ring.nodup⟩

/-- A path that leads from the head to its old successor puts its nodes in front. -/
theorem IsRing.graft (ring : IsRing l h ys) (front : Path l' h xs (ys.headD h))
    (forward : ∀ y ∈ ys, l'.next y = l.next y) (backward : ∀ y ∈ h :: ys, y ≠ ys.headD h → l'.prev y = l.prev y)
    (nodup : (h :: (xs ++ ys)).Nodup) : IsRing l' h (xs ++ ys) := by
  refine ⟨?_, nodup⟩
  cases ys with
  | nil => simpa using front
  | cons y ys =>
    obtain ⟨start, rest⟩ := List.nodup_cons.mp ring.nodup
    refine path_append.mpr ⟨front, (path_congr forward (fun x member => ?_) ?_).mpr ring.path.2⟩
    · apply backward x (List.mem_cons_of_mem _ (List.mem_cons_of_mem _ member))
      rintro rfl
      exact (List.nodup_cons.mp rest).1 member
    · apply backward h List.mem_cons_self
      rintro rfl
      exact start List.mem_cons_self

/-- A node whose neighbours are linked to each other is out of the ring. -/
theorem IsRing.bypass (ring : IsRing l h (a :: xs)) (forward : ∀ x ∈ a :: xs, x ≠ xs.getLastD a → l'.next x = l.next x)
    (backward : ∀ x ∈ xs, l'.prev x = l.prev x) (last : Linked l' (xs.getLastD a) a) : IsRing l' a xs :=
  ⟨path_redirect ring.path.2 (List.nodup_cons.mp ring.nodup).2 forward backward last, (List.nodup_cons.mp ring.nodup).2⟩

theorem path_flip (path : Path l a xs b) : Path l.flip b xs.reverse a := by
  induction xs generalizing a with
  | nil => exact ⟨path.2, path.1⟩
  | cons x xs ih =>
    rw [List.reverse_cons]
    exact path_append.mpr ⟨ih path.2, path.1.2, path.1.1⟩

/-- Read backwards, a ring holds its nodes in the opposite order. -/
theorem IsRing.flip (ring : IsRing l h xs) : IsRing l.flip h xs.reverse := by
  refine ⟨path_flip ring.path, ?_⟩
  have same : (h :: xs.reverse).Perm (h :: xs) := (List.reverse_perm xs).cons h
  exact same.nodup_iff.mpr ring.nodup

/-- The successor of a node of a ring is on the ring and points back. -/
theorem IsRing.successor {x : ν} (ring : IsRing l h xs) (member : x ∈ h :: xs) :
    ∃ y ∈ h :: xs, Linked l x y := by
  rcases List.mem_cons.mp member with rfl | inside
  · cases xs with
    | nil => exact ⟨x, member, ring.path⟩
    | cons y ys => exact ⟨y, by simp, ring.path.1⟩
  · obtain ⟨us, vs, rfl⟩ := List.append_of_mem inside
    have behind := (path_append.mp ring.path).2
    cases vs with
    | nil => exact ⟨h, List.mem_cons_self, behind⟩
    | cons y vs => exact ⟨y, by simp, behind.1⟩

theorem IsRing.predecessor {y : ν} (ring : IsRing l h xs) (member : y ∈ h :: xs) :
    ∃ x ∈ h :: xs, Linked l x y := by
  have turned : y ∈ h :: xs.reverse := by simpa using member
  obtain ⟨x, inside, back⟩ := ring.flip.successor turned
  exact ⟨x, by simpa using inside, back.2, back.1⟩

end Ring

end Hotarubi.Base
