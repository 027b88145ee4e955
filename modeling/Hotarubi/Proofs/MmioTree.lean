import Hotarubi.Base.Tree
import Hotarubi.Memory.Mmio
import Hotarubi.Proofs.List

/-! The resources below a root as an ordered tree: the rings hold the children of
each region, and every operation does to the tree what it does to the rings. -/

namespace Hotarubi.Memory.Mmio
open Base Ring Include

/-- The list nodes of the children of a region. -/
abbrev nodes (regions : List Rid) : List Link := regions.map .siblings

theorem mem_nodes {regions : List Rid} {r : Rid} : Link.siblings r ∈ nodes regions ↔ r ∈ regions := by
  simp [nodes]

private theorem children_not_mem_nodes {regions : List Rid} {r : Rid} : Link.children r ∉ nodes regions := by
  simp [nodes]

/-- The heap holds the tree: one ring for each region and parent pointers to match. -/
structure Represents (s : State) (t : Base.Tree Rid) : Prop where
  rings : ∀ p, t.Mem p → IsRing s.links (.children p) (nodes (t.kids p))
  parents : ∀ p k, k ∈ t.kids p → (s.resource k).parent = some p
  top : (s.resource t.root).parent = none

/-- What a walk for the regions that pass a test may answer at `p`. -/
def Answers (s : State) (t : Base.Tree Rid) (test : Resource → Bool) (p : Rid) : Option Rid → Prop
  | none => ∀ x, Reach t.kids p x → test (s.resource x) = false
  | some c => (c = p ∧ test (s.resource p) = true) ∨
      c ∈ t.kids p ∧ ∃ x, Reach t.kids c x ∧ test (s.resource x) = true

section Walk

variable {s : State} {t : Base.Tree Rid} {limit n : Nat}

/-- The walk ends and sees every region below its start. -/
theorem walkResources_spec (represents : Represents s t) (small : t.Small n) (enough : n ≤ limit)
    (test : Resource → Bool) {depth : Nat} {p : Rid} (member : t.Mem p) (shallow : Shallow t.kids depth p) :
    ∃ answer, walkResources limit s test depth p = some answer ∧ Answers s t test p answer := by
  induction depth generalizing p with
  | zero => exact shallow.elim
  | succ depth ih =>
    rw [walkResources]
    by_cases here : test (s.resource p) = true
    · exact ⟨some p, by rw [if_pos here], .inl ⟨rfl, here⟩⟩
    · rw [if_neg here, search_ring (represents.rings p member) _
        (by simpa [nodes] using Nat.lt_of_lt_of_le (small.kids_lt p) enough)]
      have below : ∀ k ∈ t.kids p, ∃ answer, walkResources limit s test depth k = some answer ∧
          Answers s t test k answer := fun k child => ih (Tree.mem_kid child) (shallow k child)
      have total : ∀ ptr ∈ nodes (t.kids p), ∃ result, (do
          let child ← entry ptr
          let hit ← walkResources limit s test depth child
          some (hit.map fun _ => child)) = some result := by
        intro ptr inside
        obtain ⟨k, child, rfl⟩ := List.mem_map.mp inside
        obtain ⟨answer, walked, _⟩ := below k child
        exact ⟨answer.map fun _ => k, by simp [entry, walked]⟩
      rcases firstSome_cases total with ⟨missing, all⟩ | ⟨ptr, inside, c, hit, found⟩
      · refine ⟨none, missing, fun x reach => ?_⟩
        rcases Relation.ReflTransGen.cases_head reach with rfl | ⟨k, child, rest⟩
        · simpa using here
        · obtain ⟨answer, walked, answers⟩ := below k child
          have nothing := all (.siblings k) (mem_nodes.mpr child)
          simp only [entry, walked, Option.bind_eq_bind, Option.bind_some, Option.some.injEq,
            Option.map_eq_none_iff] at nothing
          rw [nothing] at answers
          exact answers x rest
      · obtain ⟨k, child, rfl⟩ := List.mem_map.mp inside
        obtain ⟨answer, walked, answers⟩ := below k child
        simp only [entry, walked, Option.bind_eq_bind, Option.bind_some, Option.some.injEq,
          Option.map_eq_some_iff] at hit
        obtain ⟨d, rfl, rfl⟩ := hit
        refine ⟨some k, found, .inr ⟨child, ?_⟩⟩
        rcases answers with ⟨_, passes⟩ | ⟨deeper, x, reach, passes⟩
        · exact ⟨k, .refl, passes⟩
        · exact ⟨x, .head deeper reach, passes⟩

end Walk

/-- Where `_add_nested` puts a new region when it starts from `p`: the walk stays
with the first child of each region. The second argument is the new parent. -/
inductive Lands (s : State) (t : Base.Tree Rid) (new : Rid) : Rid → Rid → Prop
  | beside {p q : Rid} (sibling : possibleSibling (s.resource p) (s.resource new) = true) (child : p ∈ t.kids q) :
    Lands s t new p q
  | first {p : Rid} (inner : possibleSibling (s.resource p) (s.resource new) = false) (empty : t.kids p = []) :
    Lands s t new p p
  | deeper {p c q : Rid} {rest : List Rid} (inner : possibleSibling (s.resource p) (s.resource new) = false)
    (kids : t.kids p = c :: rest) (lands : Lands s t new c q) : Lands s t new p q

section Add

variable {s : State} {t : Base.Tree Rid} {limit n : Nat} {new q : Rid} {xs ys : List Rid} {l' : Links Link}

/-- Links that differ only on the ring of `q` and on the new node hold every
other ring of the tree. -/
private theorem ring_elsewhere (represents : Represents s t) (fresh : ¬ t.Mem new)
    (kept : AgreeOff (.children q :: .siblings new :: nodes (t.kids q)) s.links l') {p : Rid} (inside : t.Mem p)
    (other : p ≠ q) : IsRing l' (.children p) (nodes (t.kids p)) := by
  refine (represents.rings p inside).congr fun x onRing => kept x ?_
  rcases List.mem_cons.mp onRing with rfl | kid
  · simp [nodes, other]
  · obtain ⟨k, child, rfl⟩ := List.mem_map.mp kid
    have foreign : k ∉ t.kids q := fun shared => other (t.single child shared)
    have old : k ≠ new := fun same => fresh (same ▸ Tree.mem_kid child)
    simp [nodes, foreign, old]

private theorem represents_attach (represents : Represents s t) (fresh : ¬ t.Mem new) (member : t.Mem q)
    (here : t.kids q = xs ++ ys) (empty : IsRing s.links (.children new) [])
    (ring : IsRing l' (.children q) (nodes (xs ++ new :: ys)))
    (kept : AgreeOff (.children q :: .siblings new :: nodes (t.kids q)) s.links l') :
    Represents (State.setParent { s with links := l' } new (some q)) (t.attach q xs ys new here member fresh) := by
  have other : new ≠ q := by
    rintro rfl
    exact fresh member
  refine ⟨fun p inside => ?_, fun p k child => ?_, ?_⟩
  · change IsRing l' (.children p) (nodes (Tree.attachKids t.kids q xs ys new p))
    unfold Tree.attachKids
    by_cases same : p = q
    · subst same
      rwa [Function.update_self]
    · rw [Function.update_of_ne same]
      rcases Tree.mem_attach.mp inside with old | rfl
      · exact ring_elsewhere represents fresh kept old same
      · rw [Tree.kids_of_not_mem fresh]
        refine empty.congr fun x onRing => kept x ?_
        rw [List.mem_singleton.mp onRing]
        simp [nodes, other]
  · simp only [State.setParent, State.setResource]
    rcases Tree.mem_kids_attach.mp child with old | ⟨rfl, rfl⟩
    · have different : k ≠ new := fun same => fresh (same ▸ Tree.mem_kid old)
      rw [Function.update_of_ne different]
      exact represents.parents p k old
    · rw [Function.update_self]
  · simp only [State.setParent, State.setResource]
    have different : t.root ≠ new := fun same => fresh (same ▸ t.mem_root)
    exact (congrArg Resource.parent (Function.update_of_ne different _ _)).trans represents.top

/-- What `_add_nested` leaves behind: the new region among the children of `q`. -/
structure Added (s : State) (t : Base.Tree Rid) (new q : Rid) (xs ys : List Rid) (s' : State) : Prop where
  here : t.kids q = xs ++ ys
  member : t.Mem q
  fresh : ¬ t.Mem new
  represents : Represents s' (t.attach q xs ys new here member fresh)
  resource : s'.resource = (s.setParent new (some q)).resource

/-- Any insertion next to a node on the ring of `q` is an insertion among the
children of `q`. -/
private theorem added_of_ring (represents : Represents s t) (fresh : ¬ t.Mem new) (member : t.Mem q)
    (empty : IsRing s.links (.children new) []) {us vs : List Link} (split : nodes (t.kids q) = us ++ vs)
    (ring : IsRing l' (.children q) (us ++ .siblings new :: vs))
    (kept : AgreeOff (.children q :: .siblings new :: nodes (t.kids q)) s.links l') :
    ∃ xs ys, Added s t new q xs ys (State.setParent { s with links := l' } new (some q)) := by
  obtain ⟨xs, ys, here, rfl, rfl⟩ := List.map_eq_append_iff.mp split
  exact ⟨xs, ys, here, member, fresh,
    represents_attach represents fresh member here empty (by simpa [nodes] using ring) kept, rfl⟩

theorem new_not_on_ring (fresh : ¬ t.Mem new) (q : Rid) : Link.siblings new ∉ .children q :: nodes (t.kids q) := by
  intro onRing
  rcases List.mem_cons.mp onRing with same | kid
  · cases same
  · exact fresh (Tree.mem_kid (mem_nodes.mp kid))

theorem kids_short (small : t.Small n) (enough : n ≤ limit) (q : Rid) : (nodes (t.kids q)).length < limit := by
  simpa [nodes] using Nat.lt_of_lt_of_le (small.kids_lt q) enough

/-- Next to a possible sibling the new region finds its place on the sibling's ring,
which the search goes around starting behind the sibling. -/
theorem addNested_beside (represents : Represents s t) (small : t.Small n) (enough : n ≤ limit) (fresh : ¬ t.Mem new)
    (empty : IsRing s.links (.children new) []) {p : Rid} (above : t.Mem q) (child : p ∈ t.kids q)
    (sibling : possibleSibling (s.resource p) (s.resource new) = true) (depth : Nat) :
    ∃ s' xs ys, addNested limit s new (depth + 1) p = some (some s') ∧ Added s t new q xs ys s' ∧
      AgreeOff (.children q :: .siblings new :: nodes (t.kids q)) s.links s'.links := by
  obtain ⟨as, bs, kids⟩ := List.append_of_mem child
  have ring := represents.rings q above
  have outside := new_not_on_ring fresh q
  have turned : IsRing s.links (.siblings p) (nodes bs ++ .children q :: nodes as) := by
    rw [kids] at ring
    simp only [nodes, List.map_append, List.map_cons] at ring
    exact ring.rotate
  have length : (nodes bs ++ Link.children q :: nodes as).length < limit := by
    have short := kids_short small enough q
    rw [kids] at short
    simp only [nodes, List.length_map, List.length_append, List.length_cons] at short ⊢
    omega
  have onRing : ∀ ptr ∈ .siblings p :: (nodes bs ++ .children q :: nodes as), ptr ∈ .children q :: nodes (t.kids q) := by
    intro ptr inside
    rw [kids]
    simp only [nodes, List.map_append, List.map_cons, List.mem_cons, List.mem_append] at inside ⊢
    tauto
  have total : ∀ ptr ∈ nodes bs ++ .children q :: nodes as, ∃ result,
      some (if s.startAt ptr > (s.resource new).start then some ptr else none) = some result :=
    fun ptr _ => ⟨_, rfl⟩
  have place {links : Links Link} {us vs : List Link} (split : nodes (t.kids q) = us ++ vs)
      (ring' : IsRing links (.children q) (us ++ .siblings new :: vs))
      (kept : AgreeOff (.children q :: .siblings new :: nodes (t.kids q)) s.links links) :
      ∃ s' xs ys, some (some (State.setParent { s with links } new (s.resource p).parent)) = some (some s') ∧
        Added s t new q xs ys s' ∧ AgreeOff (.children q :: .siblings new :: nodes (t.kids q)) s.links s'.links := by
    obtain ⟨xs, ys, added⟩ := added_of_ring represents fresh above empty split ring' kept
    exact ⟨_, xs, ys, by rw [represents.parents q p child], added, kept⟩
  rw [addNested, if_pos sibling, search_ring turned _ length]
  rcases firstSome_cases total with ⟨missing, _⟩ | ⟨ptr, inside, result, hit, found⟩
  · rw [missing]
    have self := onRing (.siblings p) List.mem_cons_self
    by_cases order : (s.resource p).start > (s.resource new).start
    · obtain ⟨links, us, vs, added, split, ring', kept⟩ := listAddTail_at ring self outside
      simp only [Option.bind_eq_bind, Option.bind_some, if_pos order, added]
      exact place split ring' kept
    · obtain ⟨links, us, vs, added, split, ring', kept⟩ := listAdd_at ring self outside
      simp only [Option.bind_eq_bind, Option.bind_some, if_neg order, added]
      exact place split ring' kept
  · have same : result = ptr := by
      simp only [Option.some.injEq] at hit
      split at hit
      next => exact (Option.some.inj hit).symm
      next => cases hit
    obtain ⟨links, us, vs, added, split, ring', kept⟩ :=
      listAddTail_at ring (onRing ptr (List.mem_cons_of_mem _ inside)) outside
    rw [found, same]
    simp only [Option.bind_eq_bind, Option.bind_some, added]
    exact place split ring' kept

/-- `_add_nested` always finds a place, the one the walk along first children leads to. -/
theorem addNested_spec (represents : Represents s t) (small : t.Small n) (enough : n ≤ limit) (fresh : ¬ t.Mem new)
    (empty : IsRing s.links (.children new) []) {depth : Nat} {p : Rid} (member : t.Mem p)
    (inner : p = t.root → possibleSibling (s.resource p) (s.resource new) = false)
    (shallow : Shallow t.kids depth p) :
    ∃ s' q xs ys, addNested limit s new depth p = some (some s') ∧ Lands s t new p q ∧ Added s t new q xs ys s' ∧
      AgreeOff (.children q :: .siblings new :: nodes (t.kids q)) s.links s'.links := by
  induction depth generalizing p with
  | zero => exact shallow.elim
  | succ depth ih =>
    by_cases sibling : possibleSibling (s.resource p) (s.resource new) = true
    · rcases Tree.mem_cases member with rfl | ⟨q, above, child⟩
      · rw [inner rfl] at sibling
        cases sibling
      · obtain ⟨s', xs, ys, ran, added⟩ := addNested_beside represents small enough fresh empty above child sibling depth
        exact ⟨s', q, xs, ys, ran, .beside sibling child, added⟩
    · have within : possibleSibling (s.resource p) (s.resource new) = false := by simpa using sibling
      have ring := represents.rings p member
      rw [addNested, if_neg sibling]
      cases kids : t.kids p with
      | nil =>
        rw [if_pos ((listEmpty_ring ring).mpr (by simp [nodes, kids]))]
        obtain ⟨links, us, vs, added, split, ring', kept⟩ :=
          listAdd_at ring List.mem_cons_self (new_not_on_ring fresh p)
        obtain ⟨xs, ys, result⟩ := added_of_ring represents fresh member empty split ring' kept
        refine ⟨_, p, xs, ys, ?_, .first within kids, result, kept⟩
        simp only [Option.bind_eq_bind, added, Option.bind_some]
      | cons c rest =>
        have full : listEmpty s.links (.children p) = true → False := by
          intro none
          simpa [nodes, kids] using (listEmpty_ring ring).mp none
        have child : c ∈ t.kids p := kids ▸ List.mem_cons_self
        obtain ⟨s', q, xs, ys, ran, lands, added, kept⟩ := ih (Tree.mem_kid child)
          (fun same => absurd (same ▸ child) (t.top p)) (shallow c child)
        refine ⟨s', q, xs, ys, ?_, .deeper within kids lands, added, kept⟩
        rw [if_neg full, search_ring ring _ (kids_short small enough p), kids]
        simp [nodes, firstSome, entry, ran]

end Add

section Release

variable {s : State} {t : Base.Tree Rid} {limit n : Nat} {q r : Rid} {xs ys : List Rid}

/-- The loop of `_release_resource`: every child gets a new parent. -/
def reparent (s : State) (parent : Rid) (kids : List Rid) : State :=
  kids.foldl (fun s k => s.setParent k (some parent)) s

private theorem reparent_links (s : State) (parent : Rid) (kids : List Rid) : (reparent s parent kids).links = s.links := by
  induction kids generalizing s with
  | nil => rfl
  | cons k kids ih => exact ih _

private theorem reparent_resource (s : State) (parent : Rid) (kids : List Rid) (x : Rid) :
    (reparent s parent kids).resource x =
      if x ∈ kids then { s.resource x with parent := some parent } else s.resource x := by
  induction kids generalizing s with
  | nil => simp [reparent]
  | cons k kids ih =>
    rw [reparent, List.foldl_cons, ← reparent, ih]
    simp only [State.setParent, State.setResource, Function.update_apply, List.mem_cons]
    by_cases same : x = k
    · subst same
      simp
    · simp [same]

private theorem visit_reparent (s : State) (parent : Rid) (kids : List Rid) :
    (nodes kids).foldlM (fun s ptr => do
      let child ← entry ptr
      some (s.setParent child (some parent))) s = some (reparent s parent kids) := by
  induction kids generalizing s with
  | nil => rfl
  | cons k kids ih => exact ih _

private theorem splice_children (represents : Represents s t) (here : t.kids q = xs ++ r :: ys)
    (several : (t.kids r).length ≠ 1) :
    ∃ l', listSplice s.links (.children r) (.siblings r) = some l' ∧
      IsRing l' (.children q) (nodes xs ++ .siblings r :: (nodes (t.kids r) ++ nodes ys)) ∧
      AgreeOff (.children r :: nodes (t.kids r) ++ .children q :: nodes (t.kids q)) s.links l' := by
  have child : r ∈ t.kids q := by simp [here]
  have outer := represents.rings q (t.reached child)
  have inner := represents.rings r (Tree.mem_kid child)
  have split : nodes (t.kids q) = nodes xs ++ .siblings r :: nodes ys := by simp [nodes, here]
  cases kids : t.kids r with
  | nil =>
    rw [kids] at inner
    have next := path_next inner.path
    have prev := path_prev inner.path
    exact ⟨s.links, listSplice_same (next.trans prev.symm), by simpa [nodes, split] using outer, fun x _ => ⟨rfl, rfl⟩⟩
  | cons a rest =>
    cases rest with
    | nil => exact absurd (by rw [kids]; rfl) several
    | cons b rest =>
      have apart : ∀ x ∈ Link.children r :: nodes (t.kids r), x ∉ .children q :: nodes (t.kids q) := by
        intro x member onRing
        rcases List.mem_cons.mp member with rfl | kid
        · rcases List.mem_cons.mp onRing with same | wrong
          · cases same
            exact Tree.not_mem_kids_self child
          · exact children_not_mem_nodes wrong
        · obtain ⟨k, own, rfl⟩ := List.mem_map.mp kid
          rcases List.mem_cons.mp onRing with wrong | shared
          · cases wrong
          · exact Tree.not_mem_kids_self (t.single own (mem_nodes.mp shared) ▸ child)
      rw [kids] at inner apart
      rw [split] at outer apart ⊢
      obtain ⟨l', moved, ring, _, kept⟩ := listSplice_at inner outer apart
      exact ⟨l', moved, ring, kept⟩

/-- What the release of a region below `q` comes to where nobody else holds it. -/
theorem releaseResource_eq (represents : Represents s t) (small : t.Small n) (enough : n ≤ limit) (child : r ∈ t.kids q)
    (last : (s.resource r).refcount < 2) : releaseResource limit s r =
      (listSplice s.links (.children r) (.siblings r)).bind fun links => (listDel links (.siblings r)).bind fun links =>
        some (State.setRefcount { reparent s q (t.kids r) with links := links } r 0) := by
  obtain ⟨xs, ys, here⟩ := List.append_of_mem child
  have parent := represents.parents q r child
  have inner := represents.rings r (Tree.mem_kid child)
  have full : ¬ listEmpty s.links (.siblings r) = true := by
    have outer := represents.rings q (t.reached child)
    rw [here, nodes, List.map_append, List.map_cons] at outer
    intro none
    simpa using (listEmpty_ring outer.rotate).mp none
  have visited := visit_ring inner (fun s ptr => do
    let child ← entry ptr
    some (State.setParent s child (some q))) (by simpa [nodes] using Nat.lt_of_lt_of_le (small.kids_lt r) enough) s
  rw [visit_reparent] at visited
  simp only [Option.bind_eq_bind] at visited
  rw [releaseResource, parent]
  simp only [if_pos last, if_neg full, visited, reparent_links, Option.bind_eq_bind, Option.bind_some]

private theorem detach_links (represents : Represents s t) (here : t.kids q = xs ++ r :: ys)
    (several : (t.kids r).length ≠ 1) :
    ∃ l1 l2, listSplice s.links (.children r) (.siblings r) = some l1 ∧ listDel l1 (.siblings r) = some l2 ∧
      IsRing l2 (.children q) (nodes (xs ++ t.kids r ++ ys)) ∧
      AgreeOff (.children r :: nodes (t.kids r) ++ .children q :: nodes (t.kids q)) s.links l2 := by
  have split : nodes (t.kids q) = nodes xs ++ .siblings r :: nodes ys := by simp [nodes, here]
  obtain ⟨l1, moved, ring1, kept1⟩ := splice_children represents here several
  obtain ⟨l2, removed, ring2, _, _, kept2⟩ := listDel_at ring1
  refine ⟨l1, l2, moved, removed, by simpa [nodes] using ring2, fun x away => ?_⟩
  have step1 := kept1 x away
  have step2 := kept2 x (by
    rw [split] at away
    simp only [List.cons_append, List.mem_cons, List.mem_append, not_or] at away ⊢
    tauto)
  exact ⟨step2.1.trans step1.1, step2.2.trans step1.2⟩

private theorem detach_rings {l : Links Link} (represents : Represents s t) (here : t.kids q = xs ++ r :: ys)
    (ring : IsRing l (.children q) (nodes (xs ++ t.kids r ++ ys)))
    (kept : AgreeOff (.children r :: nodes (t.kids r) ++ .children q :: nodes (t.kids q)) s.links l) :
    ∀ p, (t.detach q r xs ys here).Mem p → IsRing l (.children p) (nodes ((t.detach q r xs ys here).kids p)) := by
  intro p inside
  obtain ⟨old, notR⟩ := Tree.mem_detach.mp inside
  change IsRing l (.children p) (nodes (Tree.detachKids t.kids q r xs ys p))
  unfold Tree.detachKids
  by_cases same : p = q
  · subst same
    rwa [Function.update_self]
  · rw [Function.update_of_ne same, Function.update_of_ne notR]
    refine (represents.rings p old).congr fun x onRing => kept x ?_
    rcases List.mem_cons.mp onRing with rfl | kid
    · simp [nodes, same, notR]
    · obtain ⟨k, mine, rfl⟩ := List.mem_map.mp kid
      have first : k ∉ t.kids r := fun shared => notR (t.single mine shared)
      have second : k ∉ t.kids q := fun shared => same (t.single mine shared)
      simp [nodes, first, second]

/-- The final release of a region whose children are none or at least two takes
it out of the tree and moves its children up to its place. -/
theorem releaseResource_spec (represents : Represents s t) (small : t.Small n) (enough : n ≤ limit)
    (child : r ∈ t.kids q) (last : (s.resource r).refcount < 2) (several : (t.kids r).length ≠ 1) :
    ∃ s' xs ys, ∃ here : t.kids q = xs ++ r :: ys, releaseResource limit s r = some s' ∧
      Represents s' (t.detach q r xs ys here) ∧
      AgreeOff (.children r :: nodes (t.kids r) ++ .children q :: nodes (t.kids q)) s.links s'.links ∧
      ∀ x, s'.resource x = if x = r then { s.resource r with refcount := 0 }
        else if x ∈ t.kids r then { s.resource x with parent := some q } else s.resource x := by
  obtain ⟨xs, ys, here⟩ := List.append_of_mem child
  have own : r ∉ t.kids r := Tree.not_mem_kids_self
  obtain ⟨l1, l2, moved, removed, ring, kept⟩ := detach_links represents here several
  refine ⟨State.setRefcount { reparent s q (t.kids r) with links := l2 } r 0, xs, ys, here, ?_,
    ⟨detach_rings represents here ring kept, ?_, ?_⟩, kept, ?_⟩
  · rw [releaseResource_eq represents small enough child last, moved, Option.bind_some, removed, Option.bind_some]
  · intro p k kid
    obtain ⟨_, notR, old | ⟨rfl, grandkid⟩⟩ := Tree.mem_kids_detach.mp kid
    all_goals simp only [State.setRefcount, State.setResource, Function.update_apply, notR, if_false,
      reparent_resource]
    · split
      next grandkid =>
        have : k ∉ t.kids r := by
          intro both
          obtain rfl := t.single old both
          exact (Tree.mem_kids_detach.mp kid).1 rfl
        exact absurd grandkid this
      next => exact represents.parents p k old
    · rw [if_pos grandkid]
  · have rootR : t.root ≠ r := fun same => t.top q (same ▸ child)
    change ((State.setRefcount { reparent s q (t.kids r) with links := l2 } r 0).resource t.root).parent = none
    simp only [State.setRefcount, State.setResource, Function.update_of_ne rootR, reparent_resource,
      if_neg (t.top r)]
    exact represents.top
  · intro x
    simp only [State.setRefcount, State.setResource, Function.update_apply, reparent_resource, if_neg own]

/-- A release changes no other region but for its parent. -/
theorem released_same {s' : State} {kids : List Rid} (fields : ∀ x, s'.resource x =
    if x = r then { s.resource r with refcount := 0 }
    else if x ∈ kids then { s.resource x with parent := some q } else s.resource x) {x : Rid} (other : x ≠ r) :
    (s'.resource x).start = (s.resource x).start ∧ (s'.resource x).range = (s.resource x).range ∧
      (s'.resource x).flags = (s.resource x).flags ∧ (s'.resource x).refcount = (s.resource x).refcount := by
  rw [fields, if_neg other]
  split <;> exact ⟨rfl, rfl, rfl, rfl⟩

end Release

end Hotarubi.Memory.Mmio
