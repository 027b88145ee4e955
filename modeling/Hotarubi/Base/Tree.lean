import Mathlib.Data.List.Nodup
import Mathlib.Data.List.Perm.Subperm
import Mathlib.Logic.Function.Basic
import Mathlib.Logic.Relation

/-! Ordered trees given by the list of children of each node. A tree carries the
proof that it is one: every node with a parent has one parent only, and every
node that has children is reached from the root. -/

namespace Hotarubi.Base

/-- `b` is `a` or below it. -/
def Reach {ν : Type*} (kids : ν → List ν) (a b : ν) : Prop := Relation.ReflTransGen (fun p k => k ∈ kids p) a b

theorem reach_mono {ν : Type*} {kids kids' : ν → List ν} (more : ∀ p k, k ∈ kids p → k ∈ kids' p) {a b : ν}
    (reach : Reach kids a b) : Reach kids' a b := Relation.ReflTransGen.mono more _ _ reach

structure Tree (ν : Type*) where
  root : ν
  kids : ν → List ν
  nodup : ∀ p, (kids p).Nodup
  single : ∀ {p q k}, k ∈ kids p → k ∈ kids q → p = q
  top : ∀ p, root ∉ kids p
  reached : ∀ {p k}, k ∈ kids p → Reach kids root p

/-- No chain of children below the node is longer than `n` nodes, itself included. -/
def Shallow {ν : Type*} (kids : ν → List ν) : Nat → ν → Prop
  | 0, _ => False
  | n + 1, p => ∀ k ∈ kids p, Shallow kids n k

namespace Tree

variable {ν : Type*} {t : Tree ν} {p q r k : ν} {n m : Nat}

protected def Mem (t : Tree ν) (r : ν) : Prop := Reach t.kids t.root r

/-- Only the root. -/
def leaf (root : ν) : Tree ν where
  root := root
  kids _ := []
  nodup _ := List.nodup_nil
  single member := absurd member List.not_mem_nil
  top _ := List.not_mem_nil
  reached member := absurd member List.not_mem_nil

theorem mem_root (t : Tree ν) : t.Mem t.root := .refl

theorem mem_kid (child : k ∈ t.kids p) : t.Mem k := (t.reached child).tail child

theorem mem_cases (member : t.Mem r) : r = t.root ∨ ∃ p, t.Mem p ∧ r ∈ t.kids p := by
  cases member with
  | refl => exact .inl rfl
  | tail above child => exact .inr ⟨_, above, child⟩

theorem kids_of_not_mem (outside : ¬ t.Mem r) : t.kids r = [] := by
  cases found : t.kids r with
  | nil => rfl
  | cons k rest => exact absurd (t.reached (found ▸ List.mem_cons_self : k ∈ t.kids r)) outside

theorem not_mem_kids_self : r ∉ t.kids r := by
  intro loop
  have never : ∀ x, t.Mem x → x ≠ r := by
    intro x member
    induction member with
    | refl =>
      rintro rfl
      exact t.top _ loop
    | tail _ child ih =>
      rintro rfl
      exact ih (t.single child loop)
  exact never r (t.reached loop) rfl

theorem shallow_mono {kids : ν → List ν} (order : n ≤ m) {p : ν} (shallow : Shallow kids n p) : Shallow kids m p := by
  induction n generalizing m p with
  | zero => exact shallow.elim
  | succ n ih =>
    obtain ⟨m, rfl⟩ := Nat.exists_eq_add_one_of_ne_zero (Nat.ne_of_gt (Nat.lt_of_lt_of_le n.succ_pos order))
    exact fun k member => ih (Nat.le_of_succ_le_succ order) (shallow k member)

/-- At most `n` nodes, and no chain longer than that. -/
structure Small (t : Tree ν) (n : Nat) : Prop where
  nodes : ∃ nodes : List ν, nodes.length ≤ n ∧ ∀ r, t.Mem r → r ∈ nodes
  shallow : Shallow t.kids n t.root

theorem Small.mono (small : t.Small n) (order : n ≤ m) : t.Small m := by
  obtain ⟨nodes, few, all⟩ := small.nodes
  exact ⟨⟨nodes, Nat.le_trans few order, all⟩, shallow_mono order small.shallow⟩

/-- The children of a node and the node itself are among the nodes. -/
theorem Small.kids_lt (small : t.Small n) (p : ν) : (t.kids p).length < n := by
  obtain ⟨nodes, few, all⟩ := small.nodes
  have distinct : (t.root :: t.kids p).Nodup := List.nodup_cons.mpr ⟨t.top p, t.nodup p⟩
  have inside : t.root :: t.kids p ⊆ nodes := by
    intro k member
    rcases List.mem_cons.mp member with rfl | child
    · exact all _ t.mem_root
    · exact all k (mem_kid child)
  have bound := (List.subperm_of_subset distinct inside).length_le
  simp only [List.length_cons] at bound
  omega

section Attach

variable [DecidableEq ν] {xs ys : List ν} {new : ν}

/-- The children after `new` has been put between the children `xs` and `ys` of `p`. -/
def attachKids (kids : ν → List ν) (p : ν) (xs ys : List ν) (new : ν) : ν → List ν :=
  Function.update kids p (xs ++ new :: ys)

theorem mem_attachKids (here : t.kids p = xs ++ ys) :
    k ∈ attachKids t.kids p xs ys new q ↔ k ∈ t.kids q ∨ q = p ∧ k = new := by
  unfold attachKids
  by_cases same : q = p
  · subst same
    rw [Function.update_self, here]
    simp only [List.mem_append, List.mem_cons, true_and]
    tauto
  · simp [same]

/-- A new node among the children of a node of the tree. -/
def attach (t : Tree ν) (p : ν) (xs ys : List ν) (new : ν) (here : t.kids p = xs ++ ys) (member : t.Mem p)
    (fresh : ¬ t.Mem new) : Tree ν where
  root := t.root
  kids := attachKids t.kids p xs ys new
  nodup q := by
    unfold attachKids
    by_cases same : q = p
    · subst same
      have old := t.nodup q
      have out : new ∉ t.kids q := fun child => fresh (mem_kid child)
      rw [here] at old out
      rw [Function.update_self, List.perm_middle.nodup_iff]
      exact List.nodup_cons.mpr ⟨out, old⟩
    · rw [Function.update_of_ne same]
      exact t.nodup q
  single {p' q k} left right := by
    rw [mem_attachKids here] at left right
    rcases left with old | ⟨rfl, rfl⟩
    · rcases right with old' | ⟨rfl, rfl⟩
      · exact t.single old old'
      · exact absurd (mem_kid old) fresh
    · rcases right with old' | ⟨rfl, _⟩
      · exact absurd (mem_kid old') fresh
      · rfl
  top q child := by
    rw [mem_attachKids here] at child
    rcases child with old | ⟨_, same⟩
    · exact t.top q old
    · exact fresh (same ▸ t.mem_root)
  reached {q k} child := by
    have grows : ∀ {x}, t.Mem x → Reach (attachKids t.kids p xs ys new) t.root x :=
      reach_mono fun a b old => (mem_attachKids here).mpr (.inl old)
    rw [mem_attachKids here] at child
    rcases child with old | ⟨rfl, _⟩
    · exact grows (t.reached old)
    · exact grows member

variable {here : t.kids p = xs ++ ys} {member : t.Mem p} {fresh : ¬ t.Mem new}

theorem mem_kids_attach : k ∈ (t.attach p xs ys new here member fresh).kids q ↔ k ∈ t.kids q ∨ q = p ∧ k = new :=
  mem_attachKids here

theorem mem_attach : (t.attach p xs ys new here member fresh).Mem r ↔ t.Mem r ∨ r = new := by
  constructor
  · intro inside
    rcases mem_cases inside with rfl | ⟨q, _, child⟩
    · exact .inl t.mem_root
    · rcases mem_kids_attach.mp child with old | ⟨_, same⟩
      · exact .inl (mem_kid old)
      · exact .inr same
  · rintro (old | rfl)
    · exact reach_mono (fun a b child => mem_kids_attach.mpr (.inl child)) old
    · exact mem_kid (mem_kids_attach.mpr (.inr ⟨rfl, rfl⟩))

theorem small_attach (small : t.Small n) : (t.attach p xs ys new here member fresh).Small (n + 1) := by
  obtain ⟨nodes, few, all⟩ := small.nodes
  refine ⟨⟨new :: nodes, Nat.succ_le_succ few, fun r inside => ?_⟩, ?_⟩
  · rcases mem_attach.mp inside with old | rfl
    · exact List.mem_cons_of_mem _ (all r old)
    · exact List.mem_cons_self
  · have none : ∀ k, k ∉ (t.attach p xs ys new here member fresh).kids new := by
      intro k child
      rcases mem_kids_attach.mp child with old | ⟨same, _⟩
      · exact fresh (t.reached old)
      · exact fresh (same ▸ member)
    have deeper : ∀ m q, Shallow t.kids m q → Shallow (t.attach p xs ys new here member fresh).kids (m + 1) q := by
      intro m
      induction m with
      | zero => exact fun q shallow => shallow.elim
      | succ m ih =>
        intro q shallow k child
        rcases mem_kids_attach.mp child with old | ⟨_, rfl⟩
        · exact ih k (shallow k old)
        · exact fun k child => absurd child (none k)
    exact deeper n t.root small.shallow

end Attach

section Detach

variable [DecidableEq ν] {xs ys : List ν}

/-- The children after `r` has left its parent `p` and its own children have taken its place. -/
def detachKids (kids : ν → List ν) (p r : ν) (xs ys : List ν) : ν → List ν :=
  Function.update (Function.update kids r []) p (xs ++ kids r ++ ys)

theorem mem_detachKids (here : t.kids p = xs ++ r :: ys) :
    k ∈ detachKids t.kids p r xs ys q ↔ q ≠ r ∧ k ≠ r ∧ (k ∈ t.kids q ∨ q = p ∧ k ∈ t.kids r) := by
  have child : r ∈ t.kids p := by simp [here]
  have other : p ≠ r := by
    rintro rfl
    exact not_mem_kids_self child
  have distinct := t.nodup p
  rw [here, List.perm_middle.nodup_iff, List.nodup_cons] at distinct
  unfold detachKids
  by_cases same : q = p
  · subst same
    have own : r ∉ t.kids r := not_mem_kids_self
    rw [Function.update_self, here]
    simp only [List.mem_append, List.mem_cons, true_and] at distinct ⊢
    constructor
    · rintro ((left | inner) | right)
      · exact ⟨other, fun same => distinct.1 (.inl (same ▸ left)), .inl (.inl left)⟩
      · exact ⟨other, fun same => own (same ▸ inner), .inr inner⟩
      · exact ⟨other, fun same => distinct.1 (.inr (same ▸ right)), .inl (.inr (.inr right))⟩
    · rintro ⟨_, different, (left | right | right) | inner⟩
      · exact .inl (.inl left)
      · exact absurd right different
      · exact .inr right
      · exact .inl (.inr inner)
  · rw [Function.update_of_ne same]
    by_cases removed : q = r
    · simp [removed]
    · rw [Function.update_of_ne removed]
      constructor
      · intro old
        refine ⟨removed, ?_, .inl old⟩
        rintro rfl
        exact same (t.single old child)
      · rintro ⟨_, _, old | ⟨rfl, _⟩⟩
        · exact old
        · exact absurd rfl same

/-- What is left of the tree is still reached once `r` is out. -/
theorem reach_detach (here : t.kids p = xs ++ r :: ys) {x : ν} (member : t.Mem x) (other : x ≠ r) :
    Reach (detachKids t.kids p r xs ys) t.root x := by
  have child : r ∈ t.kids p := by simp [here]
  have both : (x ≠ r → Reach (detachKids t.kids p r xs ys) t.root x) ∧
      (x = r → Reach (detachKids t.kids p r xs ys) t.root p) := by
    clear other
    induction member with
    | refl => exact ⟨fun _ => .refl, fun same => absurd (same ▸ child) (t.top p)⟩
    | @tail y x above step ih =>
      refine ⟨fun different => ?_, ?_⟩
      · by_cases through : y = r
        · subst through
          have parent : p ≠ y := fun same => not_mem_kids_self (same ▸ child)
          exact (ih.2 rfl).tail ((mem_detachKids here).mpr ⟨parent, different, .inr ⟨rfl, step⟩⟩)
        · exact (ih.1 through).tail ((mem_detachKids here).mpr ⟨through, different, .inl step⟩)
      · rintro rfl
        obtain rfl := t.single step child
        exact ih.1 fun same => not_mem_kids_self (same ▸ child)
  exact both.1 other

/-- A node other than the root leaves; its children move up to its place. -/
def detach (t : Tree ν) (p r : ν) (xs ys : List ν) (here : t.kids p = xs ++ r :: ys) : Tree ν where
  root := t.root
  kids := detachKids t.kids p r xs ys
  nodup q := by
    unfold detachKids
    by_cases same : q = p
    · subst same
      have distinct := t.nodup q
      rw [here, List.perm_middle.nodup_iff, List.nodup_cons, List.nodup_append] at distinct
      obtain ⟨_, left, right, apart⟩ := distinct
      have foreign : ∀ k ∈ t.kids r, k ∉ t.kids q := by
        intro k inner outer
        exact not_mem_kids_self (t.single inner outer ▸ (by simp [here] : r ∈ t.kids q))
      simp only [here, List.mem_append, List.mem_cons, not_or] at foreign
      rw [Function.update_self, List.nodup_append, List.nodup_append]
      refine ⟨⟨left, t.nodup r, ?_⟩, right, ?_⟩
      · rintro k member _ inner rfl
        exact (foreign k inner).1 member
      · rintro k member _ last rfl
        rcases List.mem_append.mp member with first | inner
        · exact apart k first k last rfl
        · exact (foreign k inner).2.2 last
    · rw [Function.update_of_ne same]
      by_cases removed : q = r
      · simp [removed]
      · rw [Function.update_of_ne removed]
        exact t.nodup q
  single {a b k} left right := by
    obtain ⟨aLeft, _, fromA⟩ := (mem_detachKids here).mp left
    obtain ⟨bLeft, _, fromB⟩ := (mem_detachKids here).mp right
    rcases fromA with old | ⟨rfl, inner⟩
    · rcases fromB with old' | ⟨rfl, inner'⟩
      · exact t.single old old'
      · exact absurd (t.single old inner') aLeft
    · rcases fromB with old' | ⟨rfl, _⟩
      · exact absurd (t.single old' inner) bLeft
      · rfl
  top q child := by
    obtain ⟨_, _, old | ⟨_, inner⟩⟩ := (mem_detachKids here).mp child
    · exact t.top q old
    · exact t.top r inner
  reached {q k} child := by
    obtain ⟨left, _, old | ⟨rfl, inner⟩⟩ := (mem_detachKids here).mp child
    · exact reach_detach here (t.reached old) left
    · exact reach_detach here (t.reached (by simp [here] : r ∈ t.kids q)) left

variable {here : t.kids p = xs ++ r :: ys}

theorem mem_kids_detach : k ∈ (t.detach p r xs ys here).kids q ↔
    q ≠ r ∧ k ≠ r ∧ (k ∈ t.kids q ∨ q = p ∧ k ∈ t.kids r) := mem_detachKids here

theorem mem_detach {x : ν} : (t.detach p r xs ys here).Mem x ↔ t.Mem x ∧ x ≠ r := by
  constructor
  · intro inside
    rcases mem_cases inside with rfl | ⟨q, _, child⟩
    · exact ⟨t.mem_root, fun same : t.root = r => t.top p (by simp [here, same])⟩
    · obtain ⟨_, other, old | ⟨_, inner⟩⟩ := mem_kids_detach.mp child
      · exact ⟨mem_kid old, other⟩
      · exact ⟨mem_kid inner, other⟩
  · rintro ⟨inside, other⟩
    exact reach_detach here inside other

theorem small_detach (small : t.Small n) : (t.detach p r xs ys here).Small n := by
  obtain ⟨nodes, few, all⟩ := small.nodes
  refine ⟨⟨nodes, few, fun x inside => all x (mem_detach.mp inside).1⟩, ?_⟩
  have child : r ∈ t.kids p := by simp [here]
  have flatter : ∀ m q, Shallow t.kids m q → Shallow (t.detach p r xs ys here).kids m q := by
    intro m
    induction m using Nat.strongRecOn with
    | ind m ih =>
      intro q shallow
      cases m with
      | zero => exact shallow.elim
      | succ m =>
        intro k step
        obtain ⟨_, _, old | ⟨rfl, inner⟩⟩ := mem_kids_detach.mp step
        · exact ih m m.lt_succ_self k (shallow k old)
        · have below := shallow r child
          cases m with
          | zero => exact below.elim
          | succ m => exact shallow_mono m.le_succ (ih m (by omega) k (below k inner))
  exact flatter n t.root small.shallow

end Detach

end Tree

end Hotarubi.Base
