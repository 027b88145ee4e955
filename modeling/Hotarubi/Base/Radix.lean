import Mathlib.Data.Option.Basic

/-! A radix tree kept as links between nodes. A path lists the indices that lead
to a node, the last one first, so that extending a path is a cons. -/

namespace Hotarubi.Base.Radix

variable {ν ι : Type*} {link link' : ν → ι → Option ν} {root : ν} {depth : Nat}

/-- Follow a path from the root. -/
def walk (link : ν → ι → Option ν) (root : ν) : List ι → Option ν
  | [] => some root
  | i :: path => (walk link root path).bind fun node => link node i

/-- No node lies on two paths of at most `depth` steps. -/
def Unshared (link : ν → ι → Option ν) (root : ν) (depth : Nat) : Prop :=
  ∀ ⦃path other node⦄, path.length ≤ depth → other.length ≤ depth →
    walk link root path = some node → walk link root other = some node → path = other

/-- The nodes that paths of at most `depth` steps reach. -/
def Reached (link : ν → ι → Option ν) (root : ν) (depth : Nat) (node : ν) : Prop :=
  ∃ path, path.length ≤ depth ∧ walk link root path = some node

theorem walk_cons {path : List ι} {node : ν} (reached : walk link root path = some node) (i : ι) :
    walk link root (i :: path) = link node i := by
  rw [walk, reached, Option.bind_some]

/-- Without links there is only the root. -/
theorem walk_of_empty (empty : ∀ i, link root i = none) {path : List ι} {node : ν}
    (reached : walk link root path = some node) : path = [] ∧ node = root := by
  induction path generalizing node with
  | nil => exact ⟨rfl, (Option.some_injective _ reached).symm⟩
  | cons i path ih =>
    cases found : walk link root path with
    | none =>
      rw [walk, found] at reached
      cases reached
    | some parent =>
      obtain ⟨_, rfl⟩ := ih found
      rw [walk_cons found, empty] at reached
      cases reached

theorem unshared_of_empty (empty : ∀ i, link root i = none) : Unshared link root depth := by
  intro path other node _ _ first second
  rw [(walk_of_empty empty first).1, (walk_of_empty empty second).1]

/-- Paths see only the links of the nodes they pass. -/
theorem walk_congr (same : ∀ path node, path.length < depth → walk link root path = some node →
      ∀ i, link' node i = link node i) {path : List ι} (short : path.length ≤ depth) :
    walk link' root path = walk link root path := by
  induction path with
  | nil => rfl
  | cons i path ih =>
    have before := ih (Nat.le_of_succ_le short)
    cases found : walk link root path with
    | none => simp only [walk, before, found, Option.bind_none]
    | some node =>
      rw [walk_cons (before.trans found), walk_cons found]
      exact same path node short found i

theorem unshared_congr (same : ∀ path node, path.length < depth → walk link root path = some node →
      ∀ i, link' node i = link node i) (unshared : Unshared link root depth) : Unshared link' root depth := by
  intro path other node short brief first second
  rw [walk_congr same short] at first
  rw [walk_congr same brief] at second
  exact unshared short brief first second

/-- A new node is hooked into an empty slot of a node at `path`. -/
structure Hooked (link link' : ν → ι → Option ν) (root : ν) (depth : Nat)
    (path : List ι) (parent : ν) (i : ι) (child : ν) : Prop where
  short : path.length < depth
  reached : walk link root path = some parent
  empty : link parent i = none
  fresh : ¬ Reached link root depth child
  hooked : link' parent i = some child
  others : ∀ node j, Reached link root depth node → node ≠ parent ∨ j ≠ i → link' node j = link node j
  leaf : ∀ j, link' child j = none

/-- Hooking a node in adds its own path and leaves every other one as it was. -/
theorem Hooked.walk_eq {path : List ι} {parent child : ν} {i : ι} [DecidableEq ι]
    (unshared : Unshared link root depth) (hook : Hooked link link' root depth path parent i child)
    {other : List ι} (brief : other.length ≤ depth) :
    walk link' root other = if other = i :: path then some child else walk link root other := by
  induction other with
  | nil => rw [if_neg (by simp), walk, walk]
  | cons j other ih =>
    have before := ih (Nat.le_of_succ_le brief)
    by_cases through : other = i :: path
    · have missing : walk link root other = none := by rw [through, walk_cons hook.reached, hook.empty]
      have deeper : j :: other ≠ i :: path := by
        intro same
        have := congrArg List.length same
        have := congrArg List.length through
        simp only [List.length_cons] at *
        omega
      rw [if_pos through] at before
      rw [if_neg deeper, walk_cons before, hook.leaf, walk, missing, Option.bind_none]
    · rw [if_neg through] at before
      cases found : walk link root other with
      | none =>
        have elsewhere : j :: other ≠ i :: path := by
          intro same
          have tails : other = path := (List.cons_eq_cons.mp same).2
          rw [tails, hook.reached] at found
          cases found
        rw [if_neg elsewhere, walk, before, found, walk, found, Option.bind_none, Option.bind_none]
      | some node =>
        rw [walk_cons (before.trans found), walk_cons found]
        by_cases slot : node = parent ∧ j = i
        · obtain ⟨rfl, rfl⟩ := slot
          have same : other = path := unshared (Nat.le_of_succ_le brief) (Nat.le_of_lt hook.short) found hook.reached
          rw [if_pos (by rw [same]), hook.hooked]
        · have elsewhere : j :: other ≠ i :: path := by
            intro same
            obtain ⟨head, tails⟩ := List.cons_eq_cons.mp same
            rw [tails, hook.reached] at found
            exact slot ⟨(Option.some_injective _ found).symm, head⟩
          rw [if_neg elsewhere]
          exact hook.others node j ⟨other, Nat.le_of_succ_le brief, found⟩ (not_and_or.mp slot)

theorem Hooked.unshared {path : List ι} {parent child : ν} {i : ι} [DecidableEq ι]
    (unshared : Unshared link root depth) (hook : Hooked link link' root depth path parent i child) :
    Unshared link' root depth := by
  intro left right node short brief first second
  rw [hook.walk_eq unshared short] at first
  rw [hook.walk_eq unshared brief] at second
  split at first
  next leftNew =>
    split at second
    next rightNew => rw [leftNew, rightNew]
    next => exact absurd ⟨right, brief, second.trans first.symm⟩ hook.fresh
  next =>
    split at second
    next => exact absurd ⟨left, short, first.trans second.symm⟩ hook.fresh
    next => exact unshared short brief first second

end Hotarubi.Base.Radix
