import Mathlib.Data.List.Perm.Subperm
import Hotarubi.Memory.Cache
import Hotarubi.Proofs.List

/-! The three slab lists of a cache and the map of its objects. Sorting moves
slabs between the lists and changes nothing else. -/

namespace Hotarubi.Memory.Cache
open Base Ring Chain Include

/-- The lists that hold slabs. -/
abbrev shelves : List Link := [.free, .used, .full]

/-- The list nodes of some slabs. -/
abbrev nodes (slabs : List Nat) : List Link := slabs.map .slabs

theorem mem_nodes {slabs : List Nat} {slab : Nat} : Link.slabs slab ∈ nodes slabs ↔ slab ∈ slabs := by
  simp [nodes]

/-- The heap holds these slabs on the three lists, each on one of them, and these
descriptors in the object map. -/
structure Shelved (l : Links Link) (lists : Link → List Nat) (mapped : List Nat) : Prop where
  ring : ∀ list ∈ shelves, IsRing l list (nodes (lists list))
  map : IsRing l .objMap (mapped.map .bufctls)
  apart : ∀ list ∈ shelves, ∀ other ∈ shelves, ∀ slab, slab ∈ lists list → slab ∈ lists other → list = other

section Lists

variable {l l' : Links Link} {lists : Link → List Nat} {mapped xs ys : List Nat} {list target : Link} {slab : Nat}

theorem shelf_ne_slabs (member : list ∈ shelves) (slab : Nat) : list ≠ .slabs slab := by
  rintro rfl
  simp [shelves] at member

private theorem shelf_ne_bufctls (member : list ∈ shelves) (bufctl : Nat) : list ≠ .bufctls bufctl := by
  rintro rfl
  simp [shelves] at member

private theorem shelf_ne_objMap (member : list ∈ shelves) : list ≠ .objMap := by
  rintro rfl
  simp [shelves] at member

/-- Nothing on a list of slabs is on the list of the descriptors in use. -/
theorem shelf_apart_objMap (member : list ∈ shelves) {x : Link} (onRing : x ∈ list :: nodes (lists list))
    (bufctls : List Nat) :
    x ∉ .objMap :: bufctls.map Link.bufctls := by
  obtain rfl | node := List.mem_cons.mp onRing
  · simp [shelf_ne_objMap member, (shelf_ne_bufctls member _).symm]
  · obtain ⟨slab, _, rfl⟩ := List.mem_map.mp node
    simp

/-- Links that differ on one list of slabs and on nodes outside of all lists hold
the other lists. -/
theorem Shelved.elsewhere (shelved : Shelved l lists mapped) (member : list ∈ shelves) {touched : List Link}
    (kept : AgreeOff touched l l') (own : ∀ x ∈ touched, x = list ∨ ∃ slab, x = .slabs slab ∧
      ∀ other ∈ shelves, other ≠ list → slab ∉ lists other) :
    (∀ other ∈ shelves, other ≠ list → IsRing l' other (nodes (lists other))) ∧
      IsRing l' .objMap (mapped.map .bufctls) := by
  constructor
  · intro other inside different
    refine (shelved.ring other inside).congr fun x onRing => kept x fun touches => ?_
    rcases own x touches with rfl | ⟨slab, rfl, outside⟩
    · rcases List.mem_cons.mp onRing with same | node
      · exact different same.symm
      · obtain ⟨slab, _, same⟩ := List.mem_map.mp node
        exact shelf_ne_slabs member slab same.symm
    · rcases List.mem_cons.mp onRing with same | node
      · exact shelf_ne_slabs inside slab same.symm
      · exact outside other inside different (mem_nodes.mp node)
  · refine shelved.map.congr fun x onRing => kept x fun touches => ?_
    rcases own x touches with rfl | ⟨slab, rfl, _⟩
    · rcases List.mem_cons.mp onRing with same | node
      · exact shelf_ne_objMap member same
      · obtain ⟨bufctl, _, same⟩ := List.mem_map.mp node
        exact shelf_ne_bufctls member bufctl same.symm
    · simp at onRing

private theorem Shelved.remove (shelved : Shelved l lists mapped) (member : list ∈ shelves)
    (here : lists list = xs ++ slab :: ys) :
    ∃ l', listDel l (.slabs slab) = some l' ∧ Shelved l' (Function.update lists list (xs ++ ys)) mapped ∧
      ∀ other ∈ shelves, slab ∉ Function.update lists list (xs ++ ys) other := by
  have ring := shelved.ring list member
  have distinct : (lists list).Nodup := List.Nodup.of_map _ (List.nodup_cons.mp ring.nodup).2
  rw [here] at ring distinct
  simp only [nodes, List.map_append, List.map_cons] at ring
  obtain ⟨l', removed, ring', _, _, kept⟩ := listDel_at ring
  have outside : ∀ other ∈ shelves, other ≠ list → ∀ x ∈ lists list, x ∉ lists other :=
    fun other inside different x here there => different (shelved.apart other inside list member x there here)
  obtain ⟨others, map⟩ := shelved.elsewhere member kept (fun x touched => by
    rcases List.mem_cons.mp touched with rfl | node
    · exact .inl rfl
    · have node : x ∈ nodes (lists list) := by simpa [nodes, here] using node
      obtain ⟨slab, inside, rfl⟩ := List.mem_map.mp node
      exact .inr ⟨slab, rfl, fun other shelf different => outside other shelf different slab inside⟩)
  have shrunk : ∀ other, ∀ x, x ∈ Function.update lists list (xs ++ ys) other → x ∈ lists other := by
    intro other x inside
    by_cases same : other = list
    · subst same
      rw [Function.update_self] at inside
      rw [here]
      simp only [List.mem_append, List.mem_cons] at inside ⊢
      tauto
    · rwa [Function.update_of_ne same] at inside
  refine ⟨l', removed, ⟨fun other inside => ?_, map, fun one first two second x left right =>
    shelved.apart one first two second x (shrunk one x left) (shrunk two x right)⟩, fun other inside => ?_⟩
  · by_cases same : other = list
    · subst same
      rw [Function.update_self]
      simpa [nodes] using ring'
    · rw [Function.update_of_ne same]
      exact others other inside same
  · by_cases same : other = list
    · subst same
      rw [List.perm_middle.nodup_iff, List.nodup_cons] at distinct
      rw [Function.update_self]
      exact distinct.1
    · rw [Function.update_of_ne same]
      exact outside other inside same slab (by simp [here])

/-- A slab that is on no list joins one, in front or at the end. -/
theorem Shelved.insert (shelved : Shelved l lists mapped) (member : list ∈ shelves)
    (fresh : ∀ other ∈ shelves, slab ∉ lists other) (added : xs = slab :: lists list ∨ xs = lists list ++ [slab])
    (ring' : IsRing l' list (nodes xs)) (kept : AgreeOff (list :: .slabs slab :: nodes (lists list)) l l') :
    Shelved l' (Function.update lists list xs) mapped := by
  have grown : ∀ x, x ∈ xs ↔ x = slab ∨ x ∈ lists list := by
    intro x
    rcases added with rfl | rfl
    · exact List.mem_cons
    · simp [or_comm]
  obtain ⟨others, map⟩ := shelved.elsewhere member kept (fun x touched => by
    rcases List.mem_cons.mp touched with rfl | node
    · exact .inl rfl
    · rcases List.mem_cons.mp node with rfl | old
      · exact .inr ⟨slab, rfl, fun other inside _ => fresh other inside⟩
      · obtain ⟨k, inside, rfl⟩ := List.mem_map.mp old
        exact .inr ⟨k, rfl, fun other shelf different there =>
          different (shelved.apart other shelf list member k there inside)⟩)
  refine ⟨fun other inside => ?_, map, fun one first two second x left right => ?_⟩
  · by_cases same : other = list
    · subst same
      rwa [Function.update_self]
    · rw [Function.update_of_ne same]
      exact others other inside same
  · by_cases one' : one = list
    · subst one'
      by_cases two' : two = one
      · exact two'.symm
      · rw [Function.update_self, grown] at left
        rw [Function.update_of_ne two'] at right
        rcases left with rfl | old
        · exact absurd right (fresh two second)
        · exact shelved.apart one first two second x old right
    · rw [Function.update_of_ne one'] at left
      by_cases two' : two = list
      · subst two'
        rw [Function.update_self, grown] at right
        rcases right with rfl | old
        · exact absurd left (fresh one first)
        · exact shelved.apart one first two second x left old
      · rw [Function.update_of_ne two'] at right
        exact shelved.apart one first two second x left right

theorem slabs_not_mem (member : list ∈ shelves) (outside : ∀ other ∈ shelves, slab ∉ lists other) :
    Link.slabs slab ∉ list :: nodes (lists list) := by
  rw [List.mem_cons, mem_nodes]
  exact not_or.mpr ⟨(shelf_ne_slabs member slab).symm, outside list member⟩

theorem Shelved.add (shelved : Shelved l lists mapped) (member : list ∈ shelves)
    (outside : ∀ other ∈ shelves, slab ∉ lists other) :
    ∃ l', listAdd l list (.slabs slab) = some l' ∧ Shelved l' (Function.update lists list (slab :: lists list)) mapped := by
  obtain ⟨l', added, ring, kept⟩ := listAdd_ring (shelved.ring list member) (slabs_not_mem member outside)
  exact ⟨l', added, shelved.insert member outside (.inl rfl) ring kept⟩

theorem Shelved.nodup (shelved : Shelved l lists mapped) (member : list ∈ shelves) : (lists list).Nodup :=
  List.Nodup.of_map _ (List.nodup_cons.mp (shelved.ring list member).nodup).2

/-- A slab goes from one list to the end of another one. -/
theorem Shelved.move (shelved : Shelved l lists mapped) (member : list ∈ shelves) (other : target ∈ shelves)
    (different : target ≠ list) (here : lists list = xs ++ slab :: ys) :
    ∃ l1 l2 lists', listDel l (.slabs slab) = some l1 ∧ listAddTail l1 target (.slabs slab) = some l2 ∧
      Shelved l2 lists' mapped ∧ lists' list = xs ++ ys ∧
      ∀ h ∈ shelves, ∀ x, x ∈ lists' h ↔ if x = slab then h = target else x ∈ lists h := by
  obtain ⟨l1, removed, shelved1, outside⟩ := shelved.remove member here
  obtain ⟨l2, added, ring, kept⟩ := listAddTail_ring (shelved1.ring target other) (slabs_not_mem other outside)
  have ring : IsRing l2 target (nodes (Function.update lists list (xs ++ ys) target ++ [slab])) := by
    simpa [nodes] using ring
  refine ⟨l1, l2, _, removed, added, shelved1.insert other outside (.inr rfl) ring kept, ?_, fun h shelf x => ?_⟩
  · rw [Function.update_of_ne (Ne.symm different), Function.update_self]
  · by_cases same : x = slab
    · subst same
      rw [if_pos rfl]
      by_cases here' : h = target
      · simp [here']
      · rw [Function.update_of_ne here']
        simp [here', outside h shelf]
    · rw [if_neg same]
      by_cases here' : h = target
      · subst here'
        rw [Function.update_self, Function.update_of_ne different]
        simp [same]
      · rw [Function.update_of_ne here']
        by_cases from' : h = list
        · subst from'
          rw [Function.update_self, here]
          simp [same]
        · rw [Function.update_of_ne from']

theorem Shelved.cursor (shelved : Shelved l lists mapped) (member : list ∈ shelves) {done todo : List Nat} {x : Link}
    {rest : List Link} (here : lists list = done ++ todo) (split : x :: rest = nodes todo) :
    x ≠ list ∧ l.next x = some (rest.headD list) := by
  have ring := shelved.ring list member
  rw [here, nodes, List.map_append, show todo.map Link.slabs = x :: rest from split.symm] at ring
  refine ⟨?_, path_next (path_append.mp ring.path).2⟩
  rintro rfl
  exact (List.nodup_cons.mp ring.nodup).1 (by simp)

end Lists

section Sorting

variable {s : State} {lists : Link → List Nat} {mapped all : List Nat} {list : Link} {limit : Nat}

/-- What a loop of the sort has done to the lists, with `rest` still to come: `dest`
says where a slab goes. -/
def Migrating (s : State) (lists : Link → List Nat) (mapped : List Nat) (list : Link) (dest : Nat → Option Link)
    (rest : List Link) (s' : State) : Prop :=
  ∃ l' lists' done todo, s' = { s with links := l' } ∧ rest = nodes todo ∧ Shelved l' lists' mapped ∧
    lists' list = done ++ todo ∧ (∀ x ∈ todo, x ∈ lists list) ∧
    ∀ h ∈ shelves, ∀ x, x ∈ lists' h ↔ if x ∈ todo then h = list else
      x ∈ lists h ∧ (h = list → dest x = none) ∨ x ∈ lists list ∧ dest x = some h

theorem Shelved.mem_iff (shelved : Shelved s.links lists mapped) (member : list ∈ shelves) {x : Nat}
    (inside : x ∈ lists list)
    {h : Link} (shelf : h ∈ shelves) : x ∈ lists h ↔ h = list := by
  constructor
  · exact fun there => shelved.apart h shelf list member x there inside
  · rintro rfl
    exact inside

private theorem Shelved.migrating (shelved : Shelved s.links lists mapped) (member : list ∈ shelves)
    (dest : Nat → Option Link) :
    Migrating s lists mapped list dest (nodes (lists list)) s := by
  refine ⟨s.links, lists, [], lists list, rfl, rfl, shelved, rfl, fun x inside => inside, fun h shelf x => ?_⟩
  split
  next inside => exact shelved.mem_iff member inside shelf
  next outside =>
    constructor
    · refine fun there => .inl ⟨there, ?_⟩
      rintro rfl
      exact absurd there outside
    · rintro (⟨there, _⟩ | ⟨there, _⟩)
      · exact there
      · exact absurd there outside

/-- One pass moves a slab to the end of its list, or leaves it where it is. -/
theorem Migrating.step (shelved : Shelved s.links lists mapped) (member : list ∈ shelves)
    {target : State → Nat → Option Link} {dest : Nat → Option Link}
    (stable : ∀ l slab, target { s with links := l } slab = dest slab)
    (away : ∀ slab d, dest slab = some d → d ∈ shelves ∧ d ≠ list) {x : Link} {rest : List Link} {s' : State}
    (migrating : Migrating s lists mapped list dest (x :: rest) s') :
    ∃ s'', (do
      let slab ← slabEntry x
      match target s' slab with
      | none => some s'
      | some target => do
        let links ← listDel s'.links x
        let links ← listAddTail links target x
        some { s' with links }) = some s'' ∧ Migrating s lists mapped list dest rest s'' := by
  obtain ⟨l', lists', done, todo, rfl, split, shelved', here, subset, members⟩ := migrating
  obtain ⟨slab, todo, rfl, rfl, rfl⟩ := List.map_eq_cons_iff.mp split.symm
  have inside := subset slab List.mem_cons_self
  have distinct := shelved'.nodup member
  rw [here, List.nodup_append] at distinct
  have gone : slab ∉ todo := (List.nodup_cons.mp distinct.2.1).1
  simp only [slabEntry, Option.bind_eq_bind, Option.bind_some, stable]
  cases goal : dest slab with
  | none =>
    refine ⟨_, rfl, l', lists', done ++ [slab], todo, rfl, rfl, shelved', by simp [here],
      fun y rest => subset y (List.mem_cons_of_mem _ rest), fun h shelf y => (members h shelf y).trans ?_⟩
    by_cases same : y = slab
    · subst same
      simp [gone, goal, shelved.mem_iff member inside shelf]
    · simp [same]
  | some d =>
    obtain ⟨shelfD, different⟩ := away slab d goal
    obtain ⟨l1, l2, lists2, removed, added, shelved2, here2, members2⟩ :=
      shelved'.move member shelfD different here
    refine ⟨{ s with links := l2 }, by simp [removed, added], l2, lists2, done, todo, rfl, rfl, shelved2, here2,
      fun y rest => subset y (List.mem_cons_of_mem _ rest), fun h shelf y => (members2 h shelf y).trans ?_⟩
    by_cases same : y = slab
    · subst same
      rw [if_pos rfl, if_neg gone, goal]
      constructor
      · rintro rfl
        exact .inr ⟨inside, rfl⟩
      · rintro (⟨there, none⟩ | ⟨_, same⟩)
        · cases none ((shelved.mem_iff member inside shelf).mp there)
        · exact (Option.some.inj same).symm
    · rw [if_neg same, members h shelf y]
      simp [same]

private theorem migrate_spec (shelved : Shelved s.links lists mapped) (member : list ∈ shelves)
    {target : State → Nat → Option Link} {dest : Nat → Option Link}
    (stable : ∀ l slab, target { s with links := l } slab = dest slab)
    (away : ∀ slab d, dest slab = some d → d ∈ shelves ∧ d ≠ list) (enough : (lists list).length < limit) :
    ∃ l' lists', migrate limit s list target = some { s with links := l' } ∧ Shelved l' lists' mapped ∧
      ∀ h ∈ shelves, ∀ x, x ∈ lists' h ↔
        x ∈ lists h ∧ (h = list → dest x = none) ∨ x ∈ lists list ∧ dest x = some h := by
  have cursor : ∀ x rest s', Migrating s lists mapped list dest (x :: rest) s' →
      x ≠ list ∧ s'.links.next x = some (rest.headD list) := by
    rintro x rest s' ⟨l', lists', done, todo, rfl, split, shelved', here, _, _⟩
    exact shelved'.cursor member here split
  obtain ⟨s', ran, l', lists', done, todo, rfl, nothing, shelved', _, _, members⟩ := visitMutable_induction
    cursor (fun _ _ _ => Migrating.step shelved member stable away) (shelved.migrating member dest)
    (path_next (shelved.ring list member).path) (by simpa [nodes] using enough)
  obtain rfl : todo = [] := List.map_eq_nil_iff.mp nothing.symm
  exact ⟨l', lists', ran, shelved', by simpa using members⟩

/-- The list a slab belongs on. -/
def place (s : State) (slab : Nat) : Link :=
  if slabFull s slab then .full else if slabEmpty s slab then .free else .used

theorem place_eq_iff {h : Link} {slab : Nat} : h = place s slab ↔ match h with
    | .free => slabFull s slab = false ∧ slabEmpty s slab = true
    | .used => slabFull s slab = false ∧ slabEmpty s slab = false
    | .full => slabFull s slab = true
    | _ => False := by
  unfold place
  cases slabFull s slab <;> cases slabEmpty s slab <;> cases h <;> simp

private theorem three_loops {free used full : Prop} {isFull isEmpty : Bool}
    (once : free ∨ used ∨ full → ¬ (isFull = true ∧ isEmpty = true)) :
    let moved := (used ∨ full ∧ isFull = false) ∨ free ∧ isEmpty = false
    (free ∧ isEmpty = true ∨ moved ∧ isFull = false ∧ isEmpty = true ↔
        (free ∨ used ∨ full) ∧ isFull = false ∧ isEmpty = true) ∧
      (moved ∧ isFull = false ∧ isEmpty = false ↔ (free ∨ used ∨ full) ∧ isFull = false ∧ isEmpty = false) ∧
      (full ∧ isFull = true ∨ moved ∧ isFull = true ↔ (free ∨ used ∨ full) ∧ isFull = true) := by
  cases isFull <;> cases isEmpty <;> simp at once ⊢ <;> tauto

/-- After the three loops every slab is on the list it belongs on. -/
theorem cacheSort_spec (shelved : Shelved s.links lists mapped) (covers : ∀ h ∈ shelves, ∀ x ∈ lists h, x ∈ all)
    (single : ∀ x ∈ all, ¬ (slabFull s x = true ∧ slabEmpty s x = true)) (enough : all.length < limit) :
    ∃ l' lists', cacheSort limit s = some { s with links := l' } ∧ Shelved l' lists' mapped ∧
      ∀ h ∈ shelves, ∀ x, x ∈ lists' h ↔ (∃ k ∈ shelves, x ∈ lists k) ∧ h = place s x := by
  have short {l : Links Link} {lists' : Link → List Nat} (shelved' : Shelved l lists' mapped) {h : Link}
      (shelf : h ∈ shelves) (inside : ∀ x ∈ lists' h, x ∈ all) : (lists' h).length < limit :=
    Nat.lt_of_le_of_lt (List.subperm_of_subset (shelved'.nodup shelf) inside).length_le enough
  obtain ⟨l1, lists1, ran1, shelved1, members1⟩ := @migrate_spec s lists mapped .full limit shelved (by simp)
    (fun s slab => if !slabFull s slab then some .used else none)
      (fun slab => if !slabFull s slab then some .used else none)
    (fun l slab => rfl) (by grind) (short shelved (by simp) (covers _ (by simp)))
  have covers1 : ∀ h ∈ shelves, ∀ x ∈ lists1 h, x ∈ all := by
    intro h shelf x inside
    rcases (members1 h shelf x).mp inside with ⟨old, _⟩ | ⟨old, _⟩
    · exact covers h shelf x old
    · exact covers .full (by simp) x old
  obtain ⟨l2, lists2, ran2, shelved2, members2⟩ := @migrate_spec { s with links := l1 } lists1 mapped .free limit shelved1
    (by simp) (fun s slab => if !slabEmpty s slab then some .used else none)
    (fun slab => if !slabEmpty s slab then some .used else none) (fun l slab => rfl) (by grind)
    (short shelved1 (by simp) (covers1 _ (by simp)))
  have covers2 : ∀ h ∈ shelves, ∀ x ∈ lists2 h, x ∈ all := by
    intro h shelf x inside
    rcases (members2 h shelf x).mp inside with ⟨old, _⟩ | ⟨old, _⟩
    · exact covers1 h shelf x old
    · exact covers1 .free (by simp) x old
  obtain ⟨l3, lists3, ran3, shelved3, members3⟩ := @migrate_spec { s with links := l2 } lists2 mapped .used limit shelved2
    (by simp) (fun s slab => if slabFull s slab then some .full else if slabEmpty s slab then some .free else none)
    (fun slab => if slabFull s slab then some .full else if slabEmpty s slab then some .free else none)
    (fun l slab => rfl) (by grind) (short shelved2 (by simp) (covers2 _ (by simp)))
  refine ⟨l3, lists3, ?_, shelved3, fun h shelf x => ?_⟩
  · rw [cacheSort, ran1]
    simp only [Option.bind_eq_bind, Option.bind_some, ran2]
    exact ran3
  · have once : x ∈ lists .free ∨ x ∈ lists .used ∨ x ∈ lists .full → ¬ (slabFull s x = true ∧ slabEmpty s x = true) := by
      rintro (inside | inside | inside)
      · exact single x (covers .free (by simp) x inside)
      · exact single x (covers .used (by simp) x inside)
      · exact single x (covers .full (by simp) x inside)
    have pass1 : (x ∈ lists1 .free ↔ x ∈ lists .free) ∧ (x ∈ lists1 .full ↔ x ∈ lists .full ∧ slabFull s x = true) ∧
        (x ∈ lists1 .used ↔ x ∈ lists .used ∨ x ∈ lists .full ∧ slabFull s x = false) := by
      rw [members1 _ (by simp), members1 _ (by simp), members1 _ (by simp)]
      cases slabFull s x <;> simp
    have pass2 : (x ∈ lists2 .full ↔ x ∈ lists1 .full) ∧ (x ∈ lists2 .free ↔ x ∈ lists1 .free ∧ slabEmpty s x = true) ∧
        (x ∈ lists2 .used ↔ x ∈ lists1 .used ∨ x ∈ lists1 .free ∧ slabEmpty s x = false) := by
      rw [members2 _ (by simp), members2 _ (by simp), members2 _ (by simp)]
      cases slabEmpty s x <;> simp
    have pass3 : (x ∈ lists3 .free ↔ x ∈ lists2 .free ∨ x ∈ lists2 .used ∧ slabFull s x = false ∧ slabEmpty s x = true) ∧
        (x ∈ lists3 .used ↔ x ∈ lists2 .used ∧ slabFull s x = false ∧ slabEmpty s x = false) ∧
        (x ∈ lists3 .full ↔ x ∈ lists2 .full ∨ x ∈ lists2 .used ∧ slabFull s x = true) := by
      rw [members3 _ (by simp), members3 _ (by simp), members3 _ (by simp)]
      cases slabFull s x <;> cases slabEmpty s x <;> simp
    have anywhere : (∃ k ∈ shelves, x ∈ lists k) ↔ x ∈ lists .free ∨ x ∈ lists .used ∨ x ∈ lists .full := by simp
    have split := three_loops once
    rw [anywhere, place_eq_iff]
    have cases : h = .free ∨ h = .used ∨ h = .full := by simpa using shelf
    rcases cases with rfl | rfl | rfl
    · rw [pass3.1, pass2.2.1, pass2.2.2, pass1.1, pass1.2.2]
      exact split.1
    · rw [pass3.2.1, pass2.2.2, pass1.1, pass1.2.2]
      exact split.2.1
    · rw [pass3.2.2, pass2.1, pass2.2.2, pass1.1, pass1.2.1, pass1.2.2]
      exact split.2.2

private theorem migrate_links {target : State → Nat → Option Link} {s' : State}
    (ran : migrate limit s list target = some s') :
    ∃ links, s' = { s with links } := by
  refine visitMutable_kept (fun state : State => ∃ links, state = { s with links }) ?_ ⟨s.links, rfl⟩ ran
  intro s1 ptr s2 before step
  obtain ⟨links, rfl⟩ := before
  obtain ⟨slab, _, step⟩ := Option.bind_eq_some_iff.mp step
  split at step
  next =>
    cases step
    exact ⟨links, rfl⟩
  next =>
    obtain ⟨l1, _, step⟩ := Option.bind_eq_some_iff.mp step
    obtain ⟨l2, _, step⟩ := Option.bind_eq_some_iff.mp step
    cases step
    exact ⟨l2, rfl⟩

theorem cacheSort_links {s' : State} (ran : cacheSort limit s = some s') : ∃ links, s' = { s with links } := by
  obtain ⟨s1, first, ran⟩ := Option.bind_eq_some_iff.mp ran
  obtain ⟨s2, second, third⟩ := Option.bind_eq_some_iff.mp ran
  obtain ⟨l1, rfl⟩ := migrate_links first
  obtain ⟨l2, rfl⟩ := migrate_links second
  obtain ⟨l3, rfl⟩ := migrate_links third
  exact ⟨l3, rfl⟩

end Sorting

end Hotarubi.Memory.Cache
