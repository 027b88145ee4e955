import Hotarubi.Proofs.MmioForest

/-! The order of siblings. The loop that looks for a place starts behind the first child,
and after the last one it comes to the head of the list, which is no resource. -/

namespace Hotarubi.Memory.Mmio
open Base Ring Include

section Loops

variable {ν β : Type*} [DecidableEq ν] {l : Links ν} {h a : ν} {xs ys : List ν}

/-- The nodes that `searchFrom` runs its body on. -/
def seenFrom (l : Links ν) (head : ν) (body : ν → Option (Option β)) : Nat → Option ν → List ν
  | 0, _ => []
  | _ + 1, none => []
  | limit + 1, some ptr =>
    if ptr = head then []
    else ptr ::
      match body ptr with
      | some none => seenFrom l head body limit (l.next ptr)
      | _ => []

def seen (l : Links ν) (head : ν) (body : ν → Option (Option β)) (limit : Nat) : List ν :=
  seenFrom l head body limit (l.next head)

/-- A list as far as `firstSome` goes along it. -/
def untilSome (body : ν → Option (Option β)) : List ν → List ν
  | [] => []
  | x :: xs => x ::
    match body x with
    | some none => untilSome body xs
    | _ => []

private theorem seen_ring (ring : IsRing l h xs) (body : ν → Option (Option β)) {limit : Nat} (enough : xs.length < limit) :
    seen l h body limit = untilSome body xs := by
  apply ring.walk (f := seenFrom l h body) _ _ enough
  · intro limit
    rw [seenFrom, if_pos rfl, untilSome]
  · intro limit x rest other met
    rw [seenFrom, if_neg other, untilSome, met]

omit [DecidableEq ν] in
private theorem untilSome_append {body : ν → Option (Option β)} (without : ∀ x ∈ xs, body x = some none) :
    untilSome body (xs ++ ys) = xs ++ untilSome body ys := by
  induction xs with
  | nil => rfl
  | cons x xs ih =>
    rw [List.cons_append, untilSome, without x List.mem_cons_self,
      ih fun y member => without y (List.mem_cons_of_mem x member), List.cons_append]

omit [DecidableEq ν] in
private theorem firstSome_append {body : ν → Option (Option β)} (without : ∀ x ∈ xs, body x = some none) :
    firstSome body (xs ++ ys) = firstSome body ys := by
  induction xs with
  | nil => rfl
  | cons x xs ih =>
    rw [List.cons_append, firstSome, without x List.mem_cons_self]
    exact ih fun y member => without y (List.mem_cons_of_mem x member)

end Loops

/-- The test of the loop over the siblings, where it takes the node for a resource. -/
def laterSibling (s : State) (child : Rid) (ptr : Link) : Option (Option Link) :=
  some (if s.startAt ptr > (s.resource child).start then some ptr else none)

/-- The nodes that the loop over the siblings takes for resources when `_add_nested` runs. -/
def siblingsSeen (limit : Nat) (s : State) (child : Rid) : Nat → Rid → List Link
  | 0, _ => []
  | depth + 1, root =>
    if possibleSibling (s.resource root) (s.resource child) then
      seen s.links (.siblings root) (laterSibling s child) limit
    else if listEmpty s.links (.children root) then []
    else (seen s.links (.children root) (fun ptr => do
      let next ← entry ptr
      addNested limit s child depth next) limit).flatMap fun ptr =>
        match entry ptr with
        | some next => siblingsSeen limit s child depth next
        | none => []

/-- The starts do not decrease along the list. -/
def State.InOrder (s : State) (regions : List Rid) : Prop :=
  regions.Pairwise fun a b => (s.resource a).start ≤ (s.resource b).start

section Add

variable {s : State} {t : Base.Tree Rid} {limit n : Nat} {new q c : Rid} {ys us vs : List Rid}

private theorem addNested_enters (represents : Represents s t) (small : t.Small n) (enough : n ≤ limit)
    (fresh : ¬ t.Mem new)
    (empty : IsRing s.links (.children new) []) {depth : Nat} {p : Rid} (member : t.Mem p)
    (inner : p = t.root ∧ possibleSibling (s.resource p) (s.resource new) = false ∨ ∃ q ys, t.kids q = p :: ys)
    (shallow : Shallow t.kids depth p) :
    ∃ s' q, addNested limit s new depth p = some (some s') ∧ (s'.resource new).parent = some q ∧ t.Mem q ∧
      ∀ c ys, t.kids q = c :: ys → possibleSibling (s.resource c) (s.resource new) = true ∧
        ∃ d, addNested limit s new depth p = addNested limit s new (d + 1) c ∧
          siblingsSeen limit s new depth p = siblingsSeen limit s new (d + 1) c := by
  induction depth generalizing p with
  | zero => exact shallow.elim
  | succ depth ih =>
    by_cases sibling : possibleSibling (s.resource p) (s.resource new) = true
    · rcases inner with ⟨_, within⟩ | ⟨q, rest, kids⟩
      · rw [within] at sibling
        cases sibling
      · have child : p ∈ t.kids q := kids ▸ List.mem_cons_self
        obtain ⟨s', xs, ys, ran, added, _⟩ :=
          addNested_beside represents small enough fresh empty (t.reached child) child sibling depth
        refine ⟨s', q, ran, ?_, t.reached child, fun c ys same => ?_⟩
        · rw [added.resource]
          simp [State.setParent, State.setResource]
        · obtain rfl : p = c := (List.cons.inj (kids.symm.trans same)).1
          exact ⟨sibling, depth, rfl, rfl⟩
    · have ring := represents.rings p member
      cases kids : t.kids p with
      | nil =>
        have none' : listEmpty s.links (.children p) = true := (listEmpty_ring ring).mpr (by simp [nodes, kids])
        obtain ⟨links, us, vs, added, split, ring', kept⟩ :=
          listAdd_at ring List.mem_cons_self (new_not_on_ring fresh p)
        refine ⟨State.setParent { s with links } new (some p), p, ?_, ?_, member, fun c ys same => ?_⟩
        · rw [addNested, if_neg sibling, if_pos none']
          simp only [Option.bind_eq_bind, added, Option.bind_some]
        · simp [State.setParent, State.setResource]
        · rw [kids] at same
          cases same
      | cons c rest =>
        have full : ¬ listEmpty s.links (.children p) = true := by
          intro none'
          simpa [nodes, kids] using (listEmpty_ring ring).mp none'
        have child : c ∈ t.kids p := kids ▸ List.mem_cons_self
        obtain ⟨s', q, ran, parent, above, placed⟩ := ih (Tree.mem_kid child) (.inr ⟨p, rest, kids⟩) (shallow c child)
        have short := kids_short small enough p
        have walked : addNested limit s new (depth + 1) p = addNested limit s new depth c := by
          rw [addNested, if_neg sibling, if_neg full, search_ring ring _ short, kids]
          simp [nodes, firstSome, entry, ran]
        have seenBelow : siblingsSeen limit s new (depth + 1) p = siblingsSeen limit s new depth c := by
          rw [siblingsSeen, if_neg sibling, if_neg full, seen_ring ring _ short, kids]
          simp [nodes, untilSome, entry, ran]
        refine ⟨s', q, walked.trans ran, parent, above, fun d ys same => ?_⟩
        obtain ⟨beside, m, sameRun, sameSeen⟩ := placed d ys same
        exact ⟨beside, m, walked.trans sameRun, seenBelow.trans sameSeen⟩

section Place

variable (represents : Represents s t) (small : t.Small n) (enough : n ≤ limit) (above : t.Mem q)
  (kids : t.kids q = c :: ys)
  (sibling : possibleSibling (s.resource c) (s.resource new) = true)

include represents above kids in
private theorem ring_from_first : IsRing s.links (.siblings c) (nodes ys ++ [.children q]) := by
  have ring : IsRing s.links (.children q) ([] ++ nodes (c :: ys)) := kids ▸ represents.rings q above
  exact ring.rotate

include kids small enough in
private theorem from_first_short : (nodes ys ++ [Link.children q]).length < limit := by
  have short := kids_short small enough q
  rw [kids] at short
  simpa [nodes] using short

include represents small enough above kids sibling

private theorem addNested_later (fresh : ¬ t.Mem new) {y : Rid} (split : ys = us ++ y :: vs)
    (before : ∀ u ∈ us, ¬ (s.resource new).start < (s.resource u).start)
      (later : (s.resource new).start < (s.resource y).start)
    (d : Nat) :
    ∃ s', addNested limit s new (d + 1) c = some (some s') ∧
      IsRing s'.links (.children q) (nodes (c :: us ++ new :: y :: vs)) ∧
      siblingsSeen limit s new (d + 1) c = nodes (us ++ [y]) := by
  have turned := ring_from_first represents above kids
  have short := from_first_short small enough kids
  have ring := represents.rings q above
  have outside := new_not_on_ring fresh q
  have parts : nodes ys ++ [Link.children q] = nodes us ++ .siblings y :: (nodes vs ++ [.children q]) := by
    simp [nodes, split]
  have without : ∀ ptr ∈ nodes us, laterSibling s new ptr = some none := by
    intro ptr inside
    obtain ⟨u, member, rfl⟩ := List.mem_map.mp inside
    simp [laterSibling, State.startAt, before u member]
  have found : laterSibling s new (.siblings y) = some (some (.siblings y)) := by simp [laterSibling, State.startAt, later]
  rw [kids, split] at ring outside
  have shaped : nodes (c :: (us ++ y :: vs)) = nodes (c :: us) ++ .siblings y :: nodes vs := by simp [nodes]
  rw [shaped] at ring outside
  obtain ⟨links, added, ring', _⟩ := listAddTail_member ring outside
  have searched : search s.links (.siblings c) (laterSibling s new) limit = some (some (.siblings y)) := by
    rw [search_ring turned _ short, parts, firstSome_append without, firstSome, found]
  refine ⟨State.setParent { s with links } new (s.resource c).parent, ?_, ?_, ?_⟩
  · change (if possibleSibling (s.resource c) (s.resource new) = true then
      (search s.links (.siblings c) (laterSibling s new) limit).bind _ else _) = _
    rw [if_pos sibling, searched]
    simp only [Option.bind_eq_bind, Option.bind_some, added]
  · simpa [nodes, State.setParent, State.setResource] using ring'
  · rw [siblingsSeen, if_pos sibling, seen_ring turned _ short, parts, untilSome_append without, untilSome, found]
    simp [nodes]

private theorem siblingsSeen_head (least : ∀ y ∈ ys, ¬ (s.resource new).start < (s.resource y).start) (d : Nat) :
    .children q ∈ siblingsSeen limit s new (d + 1) c := by
  have without : ∀ ptr ∈ nodes ys, laterSibling s new ptr = some none := by
    intro ptr inside
    obtain ⟨y, member, rfl⟩ := List.mem_map.mp inside
    simp [laterSibling, State.startAt, least y member]
  rw [siblingsSeen, if_pos sibling, seen_ring (ring_from_first represents above kids) _
    (from_first_short small enough kids),
    untilSome_append without]
  exact List.mem_append_right _ List.mem_cons_self

end Place

end Add

section Sorting

variable {s s' : State} {c new y : Rid} {us vs : List Rid}

/-- What comes before the first later sibling, after the first child, is no later than the
new region; so the first child decides. -/
private theorem inOrder_insert_iff (starts : ∀ r ∈ c :: (us ++ y :: vs), (s'.resource r).start = (s.resource r).start)
    (sorted : s.InOrder (c :: (us ++ y :: vs))) (before : ∀ u ∈ us, ¬ (s'.resource new).start < (s.resource u).start)
    (later : (s'.resource new).start < (s.resource y).start) :
    s'.InOrder (c :: us ++ new :: y :: vs) ↔ (s.resource c).start ≤ (s'.resource new).start := by
  have first := starts c List.mem_cons_self
  have kept : s'.InOrder (c :: (us ++ y :: vs)) := by
    refine List.Pairwise.imp_of_mem (fun left right order => ?_) sorted
    rw [starts _ left, starts _ right]
    exact order
  rw [State.InOrder, ← List.cons_append, List.pairwise_append] at kept
  obtain ⟨front, back, across⟩ := kept
  have behind : ∀ v ∈ y :: vs, (s'.resource new).start ≤ (s'.resource v).start := by
    have least : (s'.resource new).start ≤ (s'.resource y).start := by
      rw [starts y (by simp)]
      exact UInt64.le_of_lt later
    intro v member
    rcases List.mem_cons.mp member with rfl | rest
    · exact least
    · exact UInt64.le_trans least ((List.pairwise_cons.mp back).1 v rest)
  rw [State.InOrder, List.pairwise_append, ← first]
  constructor
  · rintro ⟨_, _, ordered⟩
    exact ordered c List.mem_cons_self new List.mem_cons_self
  · intro order
    refine ⟨front, List.pairwise_cons.mpr ⟨behind, back⟩, fun a left b right => ?_⟩
    rcases List.mem_cons.mp right with rfl | rest
    · rcases List.mem_cons.mp left with rfl | inside
      · exact order
      · rw [starts a (by simp [inside])]
        exact UInt64.not_lt.mp (before a inside)
    · exact across a left b rest

private theorem first_later {start : PhysAddr} {ys : List Rid} (later : ∃ y ∈ ys, start < (s.resource y).start) :
    ∃ us y vs, ys = us ++ y :: vs ∧ (∀ u ∈ us, ¬ start < (s.resource u).start) ∧ start < (s.resource y).start := by
  obtain ⟨y, found⟩ := Option.isSome_iff_exists.mp
    (List.find?_isSome.mpr (by simpa using later) : (ys.find? fun y => start < (s.resource y).start).isSome)
  obtain ⟨passes, us, vs, split, before⟩ := List.find?_eq_some_iff_append.mp found
  exact ⟨us, y, vs, split, fun u member => by simpa using before u member, by simpa using passes⟩

end Sorting

section Order

variable {s s' : State} {t : Base.Tree Rid} {limit n : Nat} {new q c : Rid} {ys : List Rid}

private theorem setParent_start (s : State) (child : Rid) (parent : Option Rid) (r : Rid) :
    ((s.setParent child parent).resource r).start = (s.resource r).start := by
  simp only [State.setParent, State.setResource, Function.update_apply]
  split
  next same => rw [same]
  next => rfl

private theorem addNested_order (represents : Represents s t) (small : t.Small n) (enough : n ≤ limit) (fresh : ¬ t.Mem new)
    (empty : IsRing s.links (.children new) []) (inner : possibleSibling (s.resource t.root) (s.resource new) = false)
    (ran : addNested limit s new limit t.root = some (some s')) (parent : (s'.resource new).parent = some q)
    (starts : ∀ r, (s'.resource r).start = (s.resource r).start) (kids : t.kids q = c :: ys) :
    ∃ zs, IsRing s'.links (.children q) (nodes zs) ∧
      ((∀ ptr ∈ siblingsSeen limit s new limit t.root, (entry ptr).isSome) ∧ (s.InOrder (c :: ys) → s'.InOrder zs) ↔
        (∃ y ∈ ys, (s.resource new).start < (s.resource y).start) ∧
          (s.InOrder (c :: ys) → (s.resource c).start ≤ (s.resource new).start)) := by
  obtain ⟨s1, p, ran', parent', above, entered⟩ := addNested_enters represents small enough fresh empty t.mem_root
    (.inl ⟨rfl, inner⟩) (Tree.shallow_mono enough small.shallow)
  rw [ran] at ran'
  cases ran'
  obtain rfl := Option.some.inj (parent'.symm.trans parent)
  obtain ⟨sibling, d, sameRun, sameSeen⟩ := entered c ys kids
  rw [sameRun] at ran
  rw [sameSeen]
  by_cases later : ∃ y ∈ ys, (s.resource new).start < (s.resource y).start
  · obtain ⟨us, y, vs, rfl, before, behind⟩ := first_later later
    obtain ⟨s1, ran', ring, seenNodes⟩ :=
      addNested_later represents small enough above kids sibling fresh rfl before behind d
    rw [ran] at ran'
    cases ran'
    have embedded : ∀ ptr ∈ siblingsSeen limit s new (d + 1) c, (entry ptr).isSome := by
      intro ptr inside
      rw [seenNodes] at inside
      obtain ⟨r, _, rfl⟩ := List.mem_map.mp inside
      rfl
    refine ⟨_, ring, ?_⟩
    rw [and_iff_right embedded, and_iff_right later]
    apply forall_congr'
    intro sorted
    have order : s'.InOrder (c :: us ++ new :: y :: vs) ↔ (s.resource c).start ≤ (s'.resource new).start :=
      inOrder_insert_iff (fun r _ => starts r) sorted (by rwa [starts]) (by rwa [starts])
    rwa [starts new] at order
  · have least : ∀ y ∈ ys, ¬ (s.resource new).start < (s.resource y).start :=
      fun y member earlier => later ⟨y, member, earlier⟩
    have head := siblingsSeen_head represents small enough above kids sibling least d
    have ring : ∃ zs, IsRing s'.links (.children p) (nodes zs) := by
      obtain ⟨s1, q', xs, zs, ran', lands, added, _⟩ := addNested_spec represents small enough fresh empty t.mem_root
        (fun _ => inner) (Tree.shallow_mono enough small.shallow)
      rw [sameRun, ran] at ran'
      cases ran'
      exact ⟨_, added.represents.rings p (Tree.mem_attach.mpr (.inl above))⟩
    obtain ⟨zs, ring⟩ := ring
    refine ⟨zs, ring, iff_of_false (fun both => ?_) fun both => later both.1⟩
    exact Bool.false_ne_true (both.1 _ head)

private theorem Lands.inner (lands : Lands s t new t.root q) :
    possibleSibling (s.resource t.root) (s.resource new) = false := by
  cases lands with
  | beside _ child => exact absurd child (t.top _)
  | first inner _ => exact inner
  | deeper inner _ _ => exact inner

private theorem kids_of_ring {zs : List Rid} (represents : Represents s t) (inside : t.Mem q)
    (list : IsRing s.links (.children q) (nodes zs)) : t.kids q = zs :=
  List.map_injective_iff.mpr (fun _ _ => Link.siblings.inj) ((represents.rings q inside).unique list)

private theorem inOrder_congr {zs : List Rid} (same : ∀ r ∈ zs, s'.resource r = s.resource r) :
    s'.InOrder zs ↔ s.InOrder zs := by
  apply List.Pairwise.iff_of_mem
  intro a b left right
  rw [same a left, same b right]

private theorem later_congr {zs : List Rid} {start : PhysAddr} (same : ∀ r ∈ zs, s'.resource r = s.resource r) :
    (∃ y ∈ zs, start < (s'.resource y).start) ↔ ∃ y ∈ zs, start < (s.resource y).start := by
  apply exists_congr
  intro y
  apply and_congr_right
  intro member
  rw [same y member]

end Order

section Runs

variable {σ : Type} {pages : Virtmm.PageSource σ} {virt : Virtmm.State σ} {limit : Nat}
  {actions : List Action} {x : System σ}

/-- When a new region joins other children of its parent, the loop keeps to resources
and the list to its order if and only if the region belongs between the first of them and
some other one. -/
theorem sibling_order_iff (clean : EachStep (Action.exec pages limit) Action.Clean ⟨.initial, virt⟩ actions)
    (reached : runCalls (Action.exec pages limit) ⟨.initial, virt⟩ actions = some x) (enough : actions.length < limit)
    {start size : UInt64} {flags : Flags} {addr : Nat} (unused : x.world.held (.heap addr) = 0) {s' : State}
    (ran : requestRegion limit x.world.state start size flags (.heap addr) = some (some (.heap addr), s'))
    {q c : Rid} {ys : List Rid} (parent : (s'.resource (.heap addr)).parent = some q)
    (list : IsRing x.world.state.links (.children q) (nodes (c :: ys))) :
    ∃ zs, IsRing s'.links (.children q) (nodes zs) ∧
      ((∀ ptr ∈ siblingsSeen limit (newResource x.world.state (.heap addr) start (start + size) flags) (.heap addr) limit
            (rootFor flags), (entry ptr).isSome) ∧
          (x.world.state.InOrder (c :: ys) → s'.InOrder zs) ↔
        (∃ y ∈ ys, start < (x.world.state.resource y).start) ∧
          (x.world.state.InOrder (c :: ys) → (x.world.state.resource c).start ≤ start)) := by
  obtain ⟨trees, forest⟩ := run_forest enough clean reached
  have static := rootFor_isRoot flags
  have top := forest.top _ static
  have small := forest.small _ static
  have fresh := forest.fresh unused static
  rcases requestRegion_cases start size (forest.represents _ static) small enough fresh top.symm with
    ⟨_, stuck⟩ | ⟨answer, s1, ran', outcome, _, placed⟩
  · rw [stuck (by rw [top]; exact (forest.ends _ static).1)] at ran
    cases ran
  · rw [ran] at ran'
    cases ran'
    have added' := placed rfl
    cases outcome with
    | shared _ _ answers => exact absurd (Tree.mem_kid (forest.hit static answers).1) fresh
    | granted _ _ lands added =>
      obtain ⟨represents, empty⟩ := represents_new (forest.represents _ static) fresh start (start + size) flags
      have same : ∀ r, (s'.resource r).start =
          ((newResource x.world.state (.heap addr) start (start + size) flags).resource r).start := by
        intro r
        rw [added.resource]
        exact setParent_start ..
      have above : (trees (rootFor flags)).Mem q := by
        have new := added.represents.parents _ _ (Tree.mem_kids_attach.mpr (.inr ⟨rfl, rfl⟩))
        exact Option.some.inj (new.symm.trans parent) ▸ added.member
      have kids := kids_of_ring (forest.represents _ static) above list
      have own : ((newResource x.world.state (.heap addr) start (start + size) flags).resource (.heap addr)).start =
        start := by
        rw [newResource_self]
      have old : ∀ r ∈ c :: ys,
          (newResource x.world.state (.heap addr) start (start + size) flags).resource r = x.world.state.resource r := by
        intro r member
        refine newResource_other ?_ _ _ _
        rintro rfl
        exact fresh (Tree.mem_kid (kids ▸ member))
      obtain ⟨zs, ring, exact⟩ := addNested_order represents small enough fresh empty lands.inner added' parent same kids
      refine ⟨zs, ring, ?_⟩
      rw [own, inOrder_congr old, later_congr fun r member => old r (List.mem_cons_of_mem c member),
        old c List.mem_cons_self, top] at exact
      exact exact

end Runs

section Examples

/-- A region between two others. -/
theorem sibling_order_iff_witness :
    let actions : List Action := [.call (.request 0x1000 0x1000 kIOMem 1), .call (.request 0x5000 0x1000 kIOMem 2)]
    ∃ x, runCalls execPhysmm ⟨.initial, windowTables⟩ actions = some x ∧ ∃ s' zs,
      requestRegion 9 x.world.state 0x3000 0x1000 kIOMem (.heap 3) = some (some (.heap 3), s') ∧
      IsRing s'.links (.children .memRoot) (nodes zs) ∧
      ((∀ ptr ∈ siblingsSeen 9 (newResource x.world.state (.heap 3) 0x3000 (0x3000 + 0x1000) kIOMem) (.heap 3) 9
            (rootFor kIOMem), (entry ptr).isSome) ∧
          (x.world.state.InOrder [.heap 1, .heap 2] → s'.InOrder zs) ↔
        (∃ y ∈ [.heap 2], 0x3000 < (x.world.state.resource y).start) ∧
          (x.world.state.InOrder [.heap 1, .heap 2] → (x.world.state.resource (.heap 1)).start ≤ 0x3000)) := by
  intro actions
  let x := (runCalls execPhysmm ⟨.initial, windowTables⟩ actions).get (by decide +kernel)
  have reached : runCalls execPhysmm ⟨.initial, windowTables⟩ actions = some x := (Option.some_get _).symm
  have clean : EachStep execPhysmm Action.Clean ⟨.initial, windowTables⟩ actions :=
    clean_of_short (fun _ => Nat.le_refl 0) (by decide) (by decide +kernel)
  let after := (requestRegion 9 x.world.state 0x3000 0x1000 kIOMem (.heap 3)).get (by decide +kernel)
  have answered : after.1 = some (.heap 3) := by decide +kernel
  have ran : requestRegion 9 x.world.state 0x3000 0x1000 kIOMem (.heap 3) = some (some (.heap 3), after.2) := by
    rw [← answered]
    exact (Option.some_get _).symm
  have list : IsRing x.world.state.links (.children .memRoot) (nodes [.heap 1, .heap 2]) :=
    ⟨⟨⟨by decide +kernel, by decide +kernel⟩, ⟨by decide +kernel, by decide +kernel⟩, by decide +kernel, by decide +kernel⟩,
      by decide⟩
  obtain ⟨zs, ring, exact⟩ := sibling_order_iff clean reached (by decide) (by decide +kernel) ran (by decide +kernel) list
  exact ⟨x, reached, after.2, zs, ran, ring, exact⟩

/-- A region behind the last one: the head of the list is read as a resource. -/
theorem sibling_head_seen : ¬ ∀ (actions : List Action) (start size : UInt64) (flags : Flags) (addr : Nat) (q c : Rid)
    (ys : List Rid) (x : System Physmm.State) (s' : State), actions.length < 9 →
    EachStep execPhysmm Action.Clean ⟨.initial, windowTables⟩ actions →
    runCalls execPhysmm ⟨.initial, windowTables⟩ actions = some x → x.world.held (.heap addr) = 0 →
    requestRegion 9 x.world.state start size flags (.heap addr) = some (some (.heap addr), s') →
    (s'.resource (.heap addr)).parent = some q → IsRing x.world.state.links (.children q) (nodes (c :: ys)) →
    ∃ zs, IsRing s'.links (.children q) (nodes zs) ∧
      (∀ ptr ∈ siblingsSeen 9 (newResource x.world.state (.heap addr) start (start + size) flags) (.heap addr) 9
        (rootFor flags), (entry ptr).isSome) ∧
      (x.world.state.InOrder (c :: ys) → s'.InOrder zs) := by
  intro claim
  let actions : List Action := [.call (.request 0x1000 0x1000 kIOMem 1)]
  let x := (runCalls execPhysmm ⟨.initial, windowTables⟩ actions).get (by decide +kernel)
  have reached : runCalls execPhysmm ⟨.initial, windowTables⟩ actions = some x := (Option.some_get _).symm
  have clean : EachStep execPhysmm Action.Clean ⟨.initial, windowTables⟩ actions :=
    clean_of_short (fun _ => Nat.le_refl 0) (by decide) (by decide +kernel)
  let after := (requestRegion 9 x.world.state 0x5000 0x1000 kIOMem (.heap 2)).get (by decide +kernel)
  have answered : after.1 = some (.heap 2) := by decide +kernel
  have ran : requestRegion 9 x.world.state 0x5000 0x1000 kIOMem (.heap 2) = some (some (.heap 2), after.2) := by
    rw [← answered]
    exact (Option.some_get _).symm
  have list : IsRing x.world.state.links (.children .memRoot) (nodes [.heap 1]) :=
    ⟨⟨⟨by decide +kernel, by decide +kernel⟩, by decide +kernel, by decide +kernel⟩, by decide⟩
  obtain ⟨_, _, embedded, _⟩ := claim actions 0x5000 0x1000 kIOMem 2 .memRoot (.heap 1) [] x after.2
    (by decide) clean reached
    (by decide +kernel) ran (by decide +kernel) list
  have head : .children .memRoot ∈
      siblingsSeen 9 (newResource x.world.state (.heap 2) 0x5000 (0x5000 + 0x1000) kIOMem) (.heap 2) 9
        (rootFor kIOMem) := by
    decide +kernel
  exact Bool.false_ne_true (embedded _ head)

end Examples

end Hotarubi.Memory.Mmio
