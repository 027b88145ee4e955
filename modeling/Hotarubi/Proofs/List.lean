import Hotarubi.Base.Chain
import Hotarubi.Include.List

/-! What the list operations do to a ring, stated at the node they are given.
By rotation that node may stand anywhere in the list. -/

namespace Hotarubi.Include
open Base Ring Chain

variable {ν β : Type*} [DecidableEq ν] {l l' : Links ν} {h elem : ν} {xs ys : List ν}

/-- Two sets of links agree outside of some nodes. -/
def AgreeOff (touched : List ν) (l l' : Links ν) : Prop :=
  ∀ x ∉ touched, l'.next x = l.next x ∧ l'.prev x = l.prev x

theorem initList_ring (l : Links ν) (h : ν) : IsRing (initList l h) h [] ∧ AgreeOff [h] l (initList l h) := by
  refine ⟨⟨⟨by simp [initList, setNext], by simp [initList, setNext, setPrev]⟩, by simp⟩, fun x outside => ?_⟩
  have other : x ≠ h := by simpa using outside
  simp [initList, setNext, setPrev, other]

private theorem listInsert_next (l : Links ν) (elem prev next x : ν) : (listInsert l elem prev next).next x =
    if x = prev then some elem else if x = elem then some next else l.next x := by
  simp [listInsert, setNext, setPrev, Function.update_apply]

private theorem listInsert_prev (l : Links ν) (elem prev next x : ν) : (listInsert l elem prev next).prev x =
    if x = next then some elem else if x = elem then some prev else l.prev x := by
  simp [listInsert, setNext, setPrev, Function.update_apply]

private theorem listInsert_ring (ring : IsRing l h ys) (fresh : elem ∉ h :: ys) :
    IsRing (listInsert l elem h (ys.headD h)) h (elem :: ys) ∧
      AgreeOff (h :: elem :: ys) l (listInsert l elem h (ys.headD h)) := by
  have successor := headD_mem h ys
  have apart : ∀ x ∈ h :: ys, x ≠ elem := by
    rintro x member rfl
    exact fresh member
  obtain ⟨start, rest⟩ := List.nodup_cons.mp ring.nodup
  have front : Path (listInsert l elem h (ys.headD h)) h [elem] (ys.headD h) := by
    refine ⟨⟨?_, ?_⟩, ?_, ?_⟩
    · rw [listInsert_next, if_pos rfl]
    · rw [listInsert_prev, if_neg (apart _ successor).symm, if_pos rfl]
    · rw [listInsert_next, if_neg (apart h List.mem_cons_self).symm, if_pos rfl]
    · rw [listInsert_prev, if_pos rfl]
  refine ⟨ring.graft front (fun y member => ?_) (fun y member other => ?_) ?_, fun x outside => ?_⟩
  · rw [listInsert_next, if_neg (ne_of_mem_of_not_mem member start), if_neg (apart y (List.mem_cons_of_mem h member))]
  · rw [listInsert_prev, if_neg other, if_neg (apart y member)]
  · simp only [List.mem_cons, not_or] at fresh
    simp [start, rest, fresh.2, Ne.symm fresh.1]
  · simp only [List.mem_cons, not_or] at outside successor
    have other : x ≠ ys.headD h := by
      rintro rfl
      exact successor.elim outside.1 outside.2.2
    rw [listInsert_next, listInsert_prev, if_neg outside.1, if_neg outside.2.1, if_neg other, if_neg outside.2.1]
    exact ⟨rfl, rfl⟩

theorem listAdd_ring (ring : IsRing l h ys) (fresh : elem ∉ h :: ys) :
    ∃ l', listAdd l h elem = some l' ∧ IsRing l' h (elem :: ys) ∧ AgreeOff (h :: elem :: ys) l l' := by
  refine ⟨_, ?_, listInsert_ring ring fresh⟩
  rw [listAdd, path_next ring.path]
  rfl

theorem listAddTail_ring (ring : IsRing l h ys) (fresh : elem ∉ h :: ys) :
    ∃ l', listAddTail l h elem = some l' ∧ IsRing l' h (ys ++ [elem]) ∧ AgreeOff (h :: elem :: ys) l l' := by
  have last := path_prev ring.path
  rcases List.eq_nil_or_concat ys with rfl | ⟨front, z, rfl⟩
  · refine ⟨_, ?_, listInsert_ring ring fresh⟩
    rw [listAddTail, last]
    rfl
  · simp only [List.concat_eq_append, List.getLastD_concat] at ring fresh last ⊢
    have turned : IsRing l z (h :: front) := ring.rotate
    have outside : elem ∉ z :: h :: front := by
      simp only [List.mem_cons, List.mem_append, List.not_mem_nil, or_false, not_or] at fresh ⊢
      exact ⟨fresh.2.2, fresh.1, fresh.2.1⟩
    obtain ⟨added, kept⟩ := listInsert_ring turned outside
    refine ⟨_, by rw [listAddTail, last]; rfl, ?_, fun x other => kept x ?_⟩
    · have back : IsRing _ h (front ++ z :: [elem]) := IsRing.rotate (show IsRing _ z ([elem] ++ h :: front) from added)
      simpa using back
    · simp only [List.mem_cons, List.mem_append, List.not_mem_nil, or_false, not_or] at other ⊢
      exact ⟨other.2.2.2, other.2.1, other.1, other.2.2.1⟩

private theorem listDel_ring (ring : IsRing l elem (h :: xs)) :
    ∃ l', listDel l elem = some l' ∧ IsRing l' h xs ∧ l'.next elem = none ∧ l'.prev elem = none ∧
      AgreeOff (elem :: h :: xs) l l' := by
  have next := path_next ring.path
  have prev := path_prev ring.path
  simp only [List.headD_cons] at next
  rw [List.getLastD_cons] at prev
  obtain ⟨start, rest⟩ := List.nodup_cons.mp ring.nodup
  have last := getLastD_mem h xs
  have apart : ∀ x ∈ h :: xs, x ≠ elem := by
    rintro x member rfl
    exact start member
  refine ⟨clearLinks (setPrev (setNext l (xs.getLastD h) h) h (xs.getLastD h)) elem, ?_, ?_, ?_, ?_, ?_⟩
  · rw [listDel, prev, next]
    rfl
  · refine ring.bypass (fun x member other => ?_) (fun x member => ?_) ⟨?_, ?_⟩
    · simp [clearLinks, setNext, setPrev, apart x member, other, -List.getLastD_eq_getLast?]
    · have other : x ≠ h := by
        rintro rfl
        exact (List.nodup_cons.mp rest).1 member
      simp [clearLinks, setNext, setPrev, apart x (List.mem_cons_of_mem _ member), other]
    · simp [clearLinks, setNext, setPrev, apart _ last, -List.getLastD_eq_getLast?]
    · simp [clearLinks, setNext, setPrev, apart h List.mem_cons_self]
  · simp [clearLinks]
  · simp [clearLinks]
  · intro x outside
    have other : x ≠ xs.getLastD h := by
      rintro rfl
      exact outside (List.mem_cons_of_mem _ last)
    simp only [List.mem_cons, not_or] at outside
    simp [clearLinks, setNext, setPrev, outside.1, outside.2.1, other, -List.getLastD_eq_getLast?]

/-- An element added at a node of the ring other than the head. -/
theorem listAddTail_member {n : ν} (ring : IsRing l h (xs ++ n :: ys)) (fresh : elem ∉ h :: (xs ++ n :: ys)) :
    ∃ l', listAddTail l n elem = some l' ∧ IsRing l' h (xs ++ elem :: n :: ys) ∧
      AgreeOff (h :: elem :: (xs ++ n :: ys)) l l' := by
  have turned : IsRing l n (ys ++ h :: xs) := ring.rotate
  have outside : elem ∉ n :: (ys ++ h :: xs) := mt (rotate_perm h n xs ys).mem_iff.mp fresh
  obtain ⟨l', added, ring', kept⟩ := listAddTail_ring turned outside
  have back : IsRing l' h ((xs ++ [elem]) ++ n :: ys) :=
    IsRing.rotate (show IsRing l' n (ys ++ h :: (xs ++ [elem])) by simpa using ring')
  refine ⟨l', added, by simpa using back, fun x other => kept x ?_⟩
  simp only [List.mem_cons, List.mem_append, not_or] at other ⊢
  tauto

theorem listAdd_member {n : ν} (ring : IsRing l h (xs ++ n :: ys)) (fresh : elem ∉ h :: (xs ++ n :: ys)) :
    ∃ l', listAdd l n elem = some l' ∧ IsRing l' h (xs ++ n :: elem :: ys) ∧
      AgreeOff (h :: elem :: (xs ++ n :: ys)) l l' := by
  have turned : IsRing l n (ys ++ h :: xs) := ring.rotate
  have outside : elem ∉ n :: (ys ++ h :: xs) := mt (rotate_perm h n xs ys).mem_iff.mp fresh
  obtain ⟨l', added, ring', kept⟩ := listAdd_ring turned outside
  have back : IsRing l' h (xs ++ n :: (elem :: ys)) :=
    IsRing.rotate (show IsRing l' n ((elem :: ys) ++ h :: xs) from ring')
  refine ⟨l', added, back, fun x other => kept x ?_⟩
  simp only [List.mem_cons, List.mem_append, not_or] at other ⊢
  tauto

theorem listAddTail_at {n : ν} (ring : IsRing l h xs) (member : n ∈ h :: xs) (fresh : elem ∉ h :: xs) :
    ∃ l' us vs, listAddTail l n elem = some l' ∧ xs = us ++ vs ∧ IsRing l' h (us ++ elem :: vs) ∧
      AgreeOff (h :: elem :: xs) l l' := by
  rcases List.mem_cons.mp member with rfl | inside
  · obtain ⟨l', added, ring', kept⟩ := listAddTail_ring ring fresh
    exact ⟨l', xs, [], added, by simp, ring', kept⟩
  · obtain ⟨us, vs, rfl⟩ := List.append_of_mem inside
    obtain ⟨l', added, ring', kept⟩ := listAddTail_member ring fresh
    exact ⟨l', us, n :: vs, added, rfl, ring', kept⟩

theorem listAdd_at {n : ν} (ring : IsRing l h xs) (member : n ∈ h :: xs) (fresh : elem ∉ h :: xs) :
    ∃ l' us vs, listAdd l n elem = some l' ∧ xs = us ++ vs ∧ IsRing l' h (us ++ elem :: vs) ∧
      AgreeOff (h :: elem :: xs) l l' := by
  rcases List.mem_cons.mp member with rfl | inside
  · obtain ⟨l', added, ring', kept⟩ := listAdd_ring ring fresh
    exact ⟨l', [], xs, added, rfl, ring', kept⟩
  · obtain ⟨us, vs, rfl⟩ := List.append_of_mem inside
    obtain ⟨l', added, ring', kept⟩ := listAdd_member ring fresh
    exact ⟨l', us ++ [n], vs, added, by simp, by simpa using ring', kept⟩

theorem listDel_at (ring : IsRing l h (xs ++ elem :: ys)) :
    ∃ l', listDel l elem = some l' ∧ IsRing l' h (xs ++ ys) ∧ l'.next elem = none ∧ l'.prev elem = none ∧
      AgreeOff (h :: (xs ++ elem :: ys)) l l' := by
  have turned : IsRing l elem (ys ++ h :: xs) := ring.rotate
  cases ys with
  | nil =>
    obtain ⟨l', removed, ring', next, prev, kept⟩ := listDel_ring turned
    refine ⟨l', removed, by simpa using ring', next, prev, fun x other => kept x ?_⟩
    simp only [List.mem_cons, List.mem_append, List.not_mem_nil, or_false, not_or] at other ⊢
    tauto
  | cons y ys =>
    have turned : IsRing l elem (y :: (ys ++ h :: xs)) := turned
    obtain ⟨l', removed, ring', next, prev, kept⟩ := listDel_ring turned
    refine ⟨l', removed, ring'.rotate, next, prev, fun x other => kept x ?_⟩
    simp only [List.mem_cons, List.mem_append, not_or] at other ⊢
    tauto

/-- The pointers that `list_splice` writes, the last write of each first. -/
private def spliced (l : Links ν) (list first last head graft : ν) : Links ν :=
  setPrev (setNext (setPrev (setNext (setNext (setPrev l first head) head first) last graft) graft last) list list)
    list list

private theorem spliced_next (l : Links ν) (list first last head graft x : ν) :
    (spliced l list first last head graft).next x = if x = list then some list
      else if x = last then some graft else if x = head then some first else l.next x := by
  simp [spliced, setNext, setPrev, Function.update_apply]

private theorem spliced_prev (l : Links ν) (list first last head graft x : ν) :
    (spliced l list first last head graft).prev x = if x = list then some list
      else if x = graft then some last else if x = first then some head else l.prev x := by
  simp [spliced, setNext, setPrev, Function.update_apply]

section Splice

variable {list first second : ν}

private theorem spliced_front (moved : ∀ x ∈ first :: second :: xs, x ≠ list ∧ x ≠ h ∧ x ∉ ys)
    (stays : ∀ y ∈ h :: ys, y ≠ list ∧ y ∉ first :: second :: xs) (nodup : (first :: second :: xs).Nodup)
    (path : Path l first (second :: xs) list) :
    Path (spliced l list first (xs.getLastD second) h (ys.headD h)) h (first :: second :: xs) (ys.headD h) := by
  have last := moved _ (List.mem_cons_of_mem first (getLastD_mem second xs))
  have firstMoved := moved first List.mem_cons_self
  have seam := stays _ (headD_mem h ys)
  have head : Linked (spliced l list first (xs.getLastD second) h (ys.headD h)) h first := by
    refine ⟨?_, ?_⟩
    · rw [spliced_next, if_neg (stays h List.mem_cons_self).1, if_neg (Ne.symm last.2.1), if_pos rfl]
    · rw [spliced_prev, if_neg firstMoved.1, if_neg (ne_of_mem_of_not_mem List.mem_cons_self seam.2), if_pos rfl]
  refine ⟨head, path_redirect path nodup (fun x member inner => ?_) (fun x member => ?_) ⟨?_, ?_⟩⟩
  · rw [List.getLastD_cons] at inner
    rw [spliced_next, if_neg (moved x member).1, if_neg inner, if_neg (moved x member).2.1]
  · have behind := List.mem_cons_of_mem first member
    rw [spliced_prev, if_neg (moved x behind).1, if_neg (ne_of_mem_of_not_mem behind seam.2),
      if_neg (ne_of_mem_of_not_mem member (List.nodup_cons.mp nodup).1)]
  · rw [List.getLastD_cons, spliced_next, if_neg last.1, if_pos rfl]
  · rw [List.getLastD_cons, spliced_prev, if_neg seam.1, if_pos rfl]

private theorem spliced_ring (moved : ∀ x ∈ first :: second :: xs, x ≠ list ∧ x ≠ h ∧ x ∉ ys)
    (stays : ∀ y ∈ h :: ys, y ≠ list ∧ y ∉ first :: second :: xs) (nodup : (first :: second :: xs).Nodup)
    (path : Path l first (second :: xs) list) (other : IsRing l h ys) :
    IsRing (spliced l list first (xs.getLastD second) h (ys.headD h)) h (first :: second :: xs ++ ys) := by
  have last : xs.getLastD second ∈ first :: second :: xs := List.mem_cons_of_mem first (getLastD_mem second xs)
  refine other.graft (spliced_front moved stays nodup path) (fun y member => ?_) (fun y member inner => ?_) ?_
  · have behind := List.mem_cons_of_mem h member
    rw [spliced_next, if_neg (stays y behind).1, if_neg (ne_of_mem_of_not_mem last (stays y behind).2).symm,
      if_neg (ne_of_mem_of_not_mem member (List.nodup_cons.mp other.nodup).1)]
  · rw [spliced_prev, if_neg (stays y member).1, if_neg inner,
      if_neg (ne_of_mem_of_not_mem List.mem_cons_self (stays y member).2).symm]
  · have joined : (first :: second :: xs ++ (h :: ys)).Nodup :=
      List.nodup_append.mpr ⟨nodup, other.nodup, fun x left y right same => (stays y right).2 (same ▸ left)⟩
    exact (List.perm_middle.nodup_iff).mp joined

private theorem spliced_off (l : Links ν) :
    AgreeOff (list :: first :: second :: xs ++ h :: ys) l
      (spliced l list first (xs.getLastD second) h (ys.headD h)) := by
  intro x outside
  have away : x ≠ list ∧ x ∉ first :: second :: xs ∧ x ∉ h :: ys := by
    simpa [not_or, and_assoc] using outside
  have last : xs.getLastD second ∈ first :: second :: xs := List.mem_cons_of_mem first (getLastD_mem second xs)
  rw [spliced_next, spliced_prev, if_neg away.1, if_neg away.1, if_neg (ne_of_mem_of_not_mem last away.2.1).symm,
    if_neg (ne_of_mem_of_not_mem List.mem_cons_self away.2.2).symm,
    if_neg (ne_of_mem_of_not_mem (headD_mem h ys) away.2.2).symm,
    if_neg (ne_of_mem_of_not_mem List.mem_cons_self away.2.1).symm]
  exact ⟨rfl, rfl⟩

/-- Two elements or more move over, right behind the other list's head. -/
theorem listSplice_ring (ring : IsRing l list (first :: second :: xs)) (other : IsRing l h ys)
    (apart : ∀ x ∈ list :: first :: second :: xs, x ∉ h :: ys) :
    ∃ l', listSplice l list h = some l' ∧ IsRing l' h (first :: second :: xs ++ ys) ∧ IsRing l' list [] ∧
      AgreeOff (list :: first :: second :: xs ++ h :: ys) l l' := by
  have next := path_next ring.path
  have prev := path_prev ring.path
  rw [List.headD_cons] at next
  rw [List.getLastD_cons, List.getLastD_cons] at prev
  obtain ⟨listOut, nodup⟩ := List.nodup_cons.mp ring.nodup
  have several : l.next list ≠ l.prev list := by
    rw [next, prev]
    intro same
    exact (List.nodup_cons.mp nodup).1 (Option.some.inj same ▸ getLastD_mem second xs)
  have moved : ∀ x ∈ first :: second :: xs, x ≠ list ∧ x ≠ h ∧ x ∉ ys := by
    intro x member
    have clear := apart x (List.mem_cons_of_mem _ member)
    simp only [List.mem_cons, not_or] at clear
    refine ⟨?_, clear⟩
    rintro rfl
    exact listOut member
  have stays : ∀ y ∈ h :: ys, y ≠ list ∧ y ∉ first :: second :: xs := by
    intro y member
    refine ⟨?_, fun inside => apart y (List.mem_cons_of_mem _ inside) member⟩
    rintro rfl
    exact apart y List.mem_cons_self member
  refine ⟨spliced l list first (xs.getLastD second) h (ys.headD h), ?_,
    spliced_ring moved stays nodup ring.path.2 other, ⟨⟨?_, ?_⟩, by simp⟩, spliced_off l⟩
  · rw [listSplice, if_pos several, next, prev, path_next other.path]
    rfl
  · rw [spliced_next, if_pos rfl]
  · rw [spliced_prev, if_pos rfl]

end Splice

theorem listSplice_at {list first second n : ν} {zs : List ν} (ring : IsRing l list (first :: second :: zs))
    (other : IsRing l h (xs ++ n :: ys)) (apart : ∀ x ∈ list :: first :: second :: zs, x ∉ h :: (xs ++ n :: ys)) :
    ∃ l', listSplice l list n = some l' ∧ IsRing l' h (xs ++ n :: (first :: second :: zs ++ ys)) ∧
      IsRing l' list [] ∧ AgreeOff (list :: first :: second :: zs ++ h :: (xs ++ n :: ys)) l l' := by
  have turned : IsRing l n (ys ++ h :: xs) := other.rotate
  have clear : ∀ x ∈ list :: first :: second :: zs, x ∉ n :: (ys ++ h :: xs) := by
    intro x member
    exact mt (rotate_perm h n xs ys).mem_iff.mp (apart x member)
  obtain ⟨l', moved, ring', empty, kept⟩ := listSplice_ring ring turned clear
  have back : IsRing l' h (xs ++ n :: (first :: second :: zs ++ ys)) :=
    IsRing.rotate (show IsRing l' n ((first :: second :: zs ++ ys) ++ h :: xs) by simpa using ring')
  refine ⟨l', moved, back, empty, fun x outside => kept x ?_⟩
  simp only [List.cons_append, List.mem_cons, List.mem_append, not_or] at outside ⊢
  tauto

theorem listSplice_same {list : ν} (same : l.next list = l.prev list) : listSplice l list h = some l := by
  rw [listSplice, if_neg (fun differ => differ same)]

/-- The first result the body gives along a list of nodes. -/
def firstSome (body : ν → Option (Option β)) : List ν → Option (Option β)
  | [] => some none
  | x :: xs =>
    match body x with
    | none => none
    | some (some result) => some (some result)
    | some none => firstSome body xs

/-- On a ring the loop meets every element once, in order, and ends. -/
theorem search_ring (ring : IsRing l h xs) (body : ν → Option (Option β)) {limit : Nat} (enough : xs.length < limit) :
    search l h body limit = firstSome body xs := by
  apply ring.walk (f := searchFrom l h body) _ _ enough
  · intro limit
    rw [searchFrom, if_pos rfl, firstSome]
  · intro limit x rest other met
    rw [searchFrom, if_neg other, firstSome]
    cases body x with
    | none => rfl
    | some result =>
      cases result with
      | none => exact met
      | some found => rfl

omit [DecidableEq ν] in
theorem firstSome_cases {body : ν → Option (Option β)} (total : ∀ x ∈ xs, ∃ result, body x = some result) :
    (firstSome body xs = some none ∧ ∀ x ∈ xs, body x = some none) ∨
      ∃ x ∈ xs, ∃ result, body x = some (some result) ∧ firstSome body xs = some (some result) := by
  induction xs with
  | nil => exact .inl ⟨rfl, fun x member => absurd member List.not_mem_nil⟩
  | cons x xs ih =>
    obtain ⟨result, found⟩ := total x List.mem_cons_self
    cases result with
    | some result => exact .inr ⟨x, List.mem_cons_self, result, found, by rw [firstSome, found]⟩
    | none =>
      have next : firstSome body (x :: xs) = firstSome body xs := by rw [firstSome, found]
      rw [next]
      rcases ih fun y member => total y (List.mem_cons_of_mem _ member) with ⟨missing, all⟩ | ⟨y, member, hit⟩
      · refine .inl ⟨missing, fun y member => ?_⟩
        rcases List.mem_cons.mp member with rfl | behind
        · exact found
        · exact all y behind
      · exact .inr ⟨y, List.mem_cons_of_mem _ member, hit⟩

/-- The loop meets the nodes that the links lead through. -/
theorem visitFrom_leads {a : ν} (leads : Leads l.next a xs h) (outside : h ∉ xs) (body : β → ν → Option β) {limit : Nat}
    (enough : xs.length < limit) (state : β) :
    visitFrom l h body limit (l.next a) state = xs.foldlM body state := by
  have walked : visitFrom l h body limit (l.next a) = fun state => xs.foldlM body state := by
    apply walk_leads leads outside _ _ enough
    · intro limit
      funext state
      rw [visitFrom, if_pos rfl]
      rfl
    · intro limit x rest other met
      funext state
      rw [visitFrom, if_neg other, List.foldlM_cons]
      cases body state x with
      | none => rfl
      | some state => exact congrFun met state
  exact congrFun walked state

theorem visit_ring (ring : IsRing l h xs) (body : β → ν → Option β) {limit : Nat} (enough : xs.length < limit)
    (state : β) : visit l h body limit state = xs.foldlM body state :=
  visitFrom_leads (leads_of_path ring.path) (List.nodup_cons.mp ring.nodup).1 body enough state

/-- The result of a search is one that the body gave. -/
theorem search_found {body : ν → Option (Option β)} {limit : Nat} {result : β}
    (found : search l h body limit = some (some result)) : ∃ ptr, body ptr = some (some result) := by
  have walk : ∀ (limit : Nat) (ptr : Option ν), searchFrom l h body limit ptr = some (some result) →
      ∃ ptr, body ptr = some (some result) := by
    intro limit
    induction limit with
    | zero => exact fun _ found => by cases found
    | succ limit ih =>
      intro ptr found
      cases ptr with
      | none => cases found
      | some ptr =>
        rw [searchFrom] at found
        split at found
        next => cases found
        next =>
          split at found
          next => cases found
          next here =>
            rw [found] at here
            exact ⟨ptr, here⟩
          next => exact ih _ found
  exact walk limit _ found

theorem visit_kept {body : β → ν → Option β} {invariant : β → Prop}
    (kept : ∀ state ptr state', invariant state → body state ptr = some state' → invariant state')
    {limit : Nat} {state state' : β} (start : invariant state) (ran : visit l h body limit state = some state') :
    invariant state' := by
  have walk : ∀ (limit : Nat) (ptr : Option ν) (state : β), invariant state →
      visitFrom l h body limit ptr state = some state' → invariant state' := by
    intro limit
    induction limit with
    | zero => exact fun _ _ _ ran => by cases ran
    | succ limit ih =>
      intro ptr state start ran
      cases ptr with
      | none => cases ran
      | some ptr =>
        rw [visitFrom] at ran
        split at ran
        next => exact Option.some.inj ran ▸ start
        next =>
          split at ran
          next => cases ran
          next state1 step => exact ih _ state1 (kept state ptr state1 start step) ran
  exact walk limit _ state start ran

theorem listEmpty_ring (ring : IsRing l h xs) : listEmpty l h = true ↔ xs = [] := by
  rw [listEmpty, path_next ring.path, beq_iff_eq, Option.some.injEq]
  cases xs with
  | nil => simp
  | cons x xs =>
    have other : x ≠ h := fun same => (List.nodup_cons.mp ring.nodup).1 (same ▸ List.mem_cons_self)
    simpa using other

/-- A loop that may take the current element out of the list meets the elements in
order. `invariant` speaks about the elements that are still to come. -/
theorem visitMutable_induction {next : β → ν → Option ν} {body : β → ν → Option β} {invariant : List ν → β → Prop}
    (cursor : ∀ x rest state, invariant (x :: rest) state → x ≠ h ∧ next state x = some (rest.headD h))
    (step : ∀ x rest state, invariant (x :: rest) state → ∃ state', body state x = some state' ∧ invariant rest state')
    {limit : Nat} {state : β} (start : invariant xs state) (first : next state h = some (xs.headD h))
    (enough : xs.length < limit) : ∃ state', visitMutable next h body limit state = some state' ∧ invariant [] state' := by
  have walk : ∀ (rest : List ν) (limit : Nat) (state : β), invariant rest state → rest.length < limit →
      ∃ state', visitMutableFrom next h body limit (rest.headD h) (next state (rest.headD h)) state = some state' ∧
        invariant [] state' := by
    intro rest
    induction rest with
    | nil =>
      intro limit state holds enough
      obtain ⟨limit, rfl⟩ := Nat.exists_eq_add_one_of_ne_zero (Nat.ne_of_gt enough)
      exact ⟨state, by rw [List.headD_nil, visitMutableFrom, if_pos rfl], holds⟩
    | cons x rest ih =>
      intro limit state holds enough
      obtain ⟨limit, rfl⟩ := Nat.exists_eq_add_one_of_ne_zero (Nat.ne_of_gt (Nat.zero_lt_of_lt enough))
      obtain ⟨other, ref⟩ := cursor x rest state holds
      obtain ⟨state1, ran, holds1⟩ := step x rest state holds
      obtain ⟨state', rest', done⟩ := ih limit state1 holds1 (by simpa using enough)
      refine ⟨state', ?_, done⟩
      rw [List.headD_cons, visitMutableFrom, if_neg other, ran, ref]
      exact rest'
  obtain ⟨state', ran, done⟩ := walk xs limit state start enough
  exact ⟨state', by rw [visitMutable, first]; exact ran, done⟩

theorem visitMutable_kept {next : β → ν → Option ν} {body : β → ν → Option β} (invariant : β → Prop)
    (kept : ∀ state ptr state', invariant state → body state ptr = some state' → invariant state')
    {limit : Nat} {state state' : β} (start : invariant state)
    (ran : visitMutable next h body limit state = some state') : invariant state' := by
  have walk : ∀ (limit : Nat) (ptr : ν) (ref : Option ν) (state : β), invariant state →
      visitMutableFrom next h body limit ptr ref state = some state' → invariant state' := by
    intro limit
    induction limit with
    | zero => exact fun _ _ _ _ ran => by cases ran
    | succ limit ih =>
      intro ptr ref state start ran
      rw [visitMutableFrom] at ran
      split at ran
      next => exact Option.some.inj ran ▸ start
      next =>
        obtain ⟨state1, step, ran⟩ := Option.bind_eq_some_iff.mp ran
        obtain ⟨ptr1, _, ran⟩ := Option.bind_eq_some_iff.mp ran
        exact ih _ _ state1 (kept state ptr state1 start step) ran
  obtain ⟨ptr, _, ran⟩ := Option.bind_eq_some_iff.mp ran
  exact walk limit _ _ state start ran

theorem visitMutable_empty {next : β → ν → Option ν} {body : β → ν → Option β} {limit : Nat} {state state' : β}
    (empty : next state h = some h) (ran : visitMutable next h body limit state = some state') : state' = state := by
  rw [visitMutable, empty, Option.bind_some] at ran
  cases limit with
  | zero => cases ran
  | succ limit =>
    rw [visitMutableFrom, if_pos rfl] at ran
    exact (Option.some.inj ran).symm

section Single

variable {next : ν → Option ν}

theorem slistEmpty_chain (chain : IsChain next h xs) : slistEmpty next h = true ↔ xs = [] := by
  rw [slistEmpty, chain.first, beq_iff_eq, Option.some.injEq]
  cases xs with
  | nil => simp
  | cons x xs =>
    have other : x ≠ h := fun same => (List.nodup_cons.mp chain.nodup).1 (same ▸ List.mem_cons_self)
    simpa using other

theorem slistDel_first {x : ν} (chain : IsChain next h (x :: xs)) (limit : Nat) :
    slistDel next h x limit = some (Function.update (Function.update next h (next x)) x none) := by
  have first : next h = some x := chain.first
  rw [slistDel, if_pos first]

end Single

end Hotarubi.Include
