import Hotarubi.Base.Ring
import Mathlib.Logic.Function.Basic

/-! The linked lists of list.h: doubly linked, singly linked, and doubly linked with a
single head. A result of `none` is an access through a null pointer, or in a loop more
passes than the limit allows. -/

namespace Hotarubi.Include
open Base

variable {ν β : Type*} [DecidableEq ν]

/-- Write one pointer of a node. -/
def setNext (l : Links ν) (a b : ν) : Links ν := { l with next := Function.update l.next a (some b) }
def setPrev (l : Links ν) (a b : ν) : Links ν := { l with prev := Function.update l.prev a (some b) }

/-- `INIT_LIST` -/
def initList (l : Links ν) (head : ν) : Links ν := setNext (setPrev l head head) head head

/-- Both pointers of a node set to `nullptr`. -/
def clearLinks (l : Links ν) (elem : ν) : Links ν where
  next := Function.update l.next elem none
  prev := Function.update l.prev elem none

/-- `__list_add` -/
def listInsert (l : Links ν) (elem prev next : ν) : Links ν :=
  setPrev (setNext (setPrev (setNext l elem next) elem prev) prev elem) next elem

def listAdd (l : Links ν) (head elem : ν) : Option (Links ν) := do
  let next ← l.next head
  some (listInsert l elem head next)

def listAddTail (l : Links ν) (head elem : ν) : Option (Links ν) := do
  let prev ← l.prev head
  some (listInsert l elem prev head)

/-- The macros `list_add_before` and `list_add_after`. -/
def listAddBefore (l : Links ν) (member elem : ν) : Option (Links ν) := listAddTail l member elem
def listAddAfter (l : Links ν) (member elem : ν) : Option (Links ν) := listAdd l member elem

def listSplice (l : Links ν) (list head : ν) : Option (Links ν) :=
  if l.next list ≠ l.prev list then do
    let first ← l.next list
    let last ← l.prev list
    let graft ← l.next head
    let l := setPrev (setNext (setNext (setPrev l first head) head first) last graft) graft last
    some (setPrev (setNext l list list) list list)
  else some l

def listDel (l : Links ν) (elem : ν) : Option (Links ν) := do
  let prev ← l.prev elem
  let next ← l.next elem
  some (clearLinks (setPrev (setNext l prev next) next prev) elem)

def listEmpty (l : Links ν) (head : ν) : Bool := l.next head == some head

/-- The passes of `LIST_FOREACH` from the node `ptr` on, for a body that may leave
the loop with a result. -/
def searchFrom (l : Links ν) (head : ν) (body : ν → Option (Option β)) : Nat → Option ν → Option (Option β)
  | 0, _ => none
  | _ + 1, none => none
  | limit + 1, some ptr =>
    if ptr = head then some none
    else
      match body ptr with
      | none => none
      | some (some result) => some (some result)
      | some none => searchFrom l head body limit (l.next ptr)

def search (l : Links ν) (head : ν) (body : ν → Option (Option β)) (limit : Nat) : Option (Option β) :=
  searchFrom l head body limit (l.next head)

/-- The passes of `LIST_FOREACH` for a body that runs on every node and does not
touch the list. -/
def visitFrom (l : Links ν) (head : ν) (body : β → ν → Option β) : Nat → Option ν → β → Option β
  | 0, _, _ => none
  | _ + 1, none, _ => none
  | limit + 1, some ptr, state =>
    if ptr = head then some state
    else
      match body state ptr with
      | none => none
      | some state => visitFrom l head body limit (l.next ptr) state

def visit (l : Links ν) (head : ν) (body : β → ν → Option β) (limit : Nat) (state : β) : Option β :=
  visitFrom l head body limit (l.next head) state

/-- `LIST_FOREACH_REVERSE`: the same passes along `prev`. -/
def visitReverse (l : Links ν) (head : ν) (body : β → ν → Option β) (limit : Nat) (state : β) : Option β :=
  visitFrom l.flip head body limit (l.prev head) state

/-- The passes of `LIST_FOREACH_MUTABLE` and `SLIST_FOREACH_MUTABLE` from the node `ptr` on.
Its successor `ref` is read before the body runs, so the body may take `ptr` out of the list. -/
def visitMutableFrom (next : β → ν → Option ν) (head : ν) (body : β → ν → Option β) :
    Nat → ν → Option ν → β → Option β
  | 0, _, _, _ => none
  | limit + 1, ptr, ref, state =>
    if ptr = head then some state
    else (body state ptr).bind fun state => ref.bind fun ptr =>
      visitMutableFrom next head body limit ptr (next state ptr) state

def visitMutable (next : β → ν → Option ν) (head : ν) (body : β → ν → Option β) (limit : Nat) (state : β) :
    Option β :=
  (next state head).bind fun ptr => visitMutableFrom next head body limit ptr (next state ptr) state

/-- `LIST_FOREACH_MUTABLE_REVERSE`: the same passes along `prev`. -/
def visitMutableReverse (links : β → Links ν) (head : ν) (body : β → ν → Option β) (limit : Nat) (state : β) :
    Option β :=
  visitMutable (fun state => (links state).prev) head body limit state

/-- `INIT_SLIST` -/
def initSlist (next : ν → Option ν) (head : ν) : ν → Option ν := Function.update next head (some head)

def slistEmpty (next : ν → Option ν) (head : ν) : Bool := next head == some head

def slistAdd (next : ν → Option ν) (head elem : ν) : ν → Option ν :=
  Function.update (Function.update next elem (next head)) head (some elem)

/-- The loop of `slist_add_tail`, which looks for a link that is null. -/
def slistAddTailFrom (next : ν → Option ν) (head elem : ν) : Nat → Option ν → Option (ν → Option ν)
  | 0, _ => none
  | _ + 1, none => none
  | limit + 1, some ptr =>
    if ptr = head then some next
    else if next ptr = none then some (Function.update (Function.update next ptr (some elem)) elem none)
    else slistAddTailFrom next head elem limit (next ptr)

def slistAddTail (next : ν → Option ν) (head elem : ν) (limit : Nat) : Option (ν → Option ν) :=
  if slistEmpty next head then some (slistAdd next head elem) else slistAddTailFrom next head elem limit (next head)

/-- The loop of `slist_del`, for an element that is not the first. -/
def slistDelFrom (next : ν → Option ν) (head elem : ν) : Nat → Option ν → Option (ν → Option ν)
  | 0, _ => none
  | _ + 1, none => none
  | limit + 1, some ptr =>
    if ptr = head then some next
    else if next ptr = some elem then some (Function.update (Function.update next ptr (next elem)) elem none)
    else slistDelFrom next head elem limit (next ptr)

def slistDel (next : ν → Option ν) (head elem : ν) (limit : Nat) : Option (ν → Option ν) :=
  if next head = some elem then some (Function.update (Function.update next head (next elem)) elem none)
  else slistDelFrom next head elem limit (next head)

/-- `SLIST_FOREACH`: the passes of `LIST_FOREACH`, which read no `prev`. -/
def slistVisit (next : ν → Option ν) (head : ν) (body : β → ν → Option β) (limit : Nat) (state : β) : Option β :=
  visit { next, prev := fun _ => none } head body limit state

/-- What a `pprev` points to: the `next` of a head or of a node. -/
inductive HlistCell (η ν : Type*) where
  | head (head : η)
  | node (node : ν)
  deriving DecidableEq, Repr

/-- The `next` of every `hlist_head`, and the two pointers of every `hlist_node`. -/
structure Hlists (η ν : Type*) where
  first : η → Option ν
  next : ν → Option ν
  pprev : ν → Option (HlistCell η ν)

section Hlist

variable {η : Type*} [DecidableEq η]

def Hlists.read (l : Hlists η ν) : HlistCell η ν → Option ν
  | .head head => l.first head
  | .node node => l.next node

def Hlists.write (l : Hlists η ν) (cell : HlistCell η ν) (value : Option ν) : Hlists η ν :=
  match cell with
  | .head head => { l with first := Function.update l.first head value }
  | .node node => { l with next := Function.update l.next node value }

def Hlists.setPprev (l : Hlists η ν) (node : ν) (cell : Option (HlistCell η ν)) : Hlists η ν :=
  { l with pprev := Function.update l.pprev node cell }

/-- The `pprev` of the node that a pointer leads to, unless it is null. -/
def Hlists.setPprevOf (l : Hlists η ν) (ptr : Option ν) (cell : HlistCell η ν) : Hlists η ν :=
  match ptr with
  | some node => l.setPprev node (some cell)
  | none => l

def hlistAdd (l : Hlists η ν) (head : η) (elem : ν) : Hlists η ν :=
  let first := l.first head
  let l := (l.write (.node elem) first).setPprevOf first (.node elem)
  (l.write (.head head) (some elem)).setPprev elem (some (.head head))

def hlistDel (l : Hlists η ν) (elem : ν) : Option (Hlists η ν) := do
  let next := l.next elem
  let pprev ← l.pprev elem
  let l := (l.write pprev next).setPprevOf next pprev
  some ((l.write (.node elem) none).setPprev elem none)

def hlistEmpty (l : Hlists η ν) (head : η) : Bool := l.first head == none

/-- The passes of `HLIST_FOREACH` from the node `ptr` on. -/
def hlistVisitFrom (l : Hlists η ν) (body : β → ν → Option β) : Nat → Option ν → β → Option β
  | _, none, state => some state
  | 0, some _, _ => none
  | limit + 1, some ptr, state => (body state ptr).bind fun state => hlistVisitFrom l body limit (l.next ptr) state

def hlistVisit (l : Hlists η ν) (head : η) (body : β → ν → Option β) (limit : Nat) (state : β) : Option β :=
  hlistVisitFrom l body limit (l.first head) state

/-- The passes of `HLIST_FOREACH_MUTABLE` from the node `ptr` on: its successor `ref` is
read again in the test of the loop, when `ptr` is not null. -/
def hlistVisitMutableFrom (lists : β → Hlists η ν) (body : β → ν → Option β) : Nat → Option ν → β → Option β
  | _, none, state => some state
  | 0, some _, _ => none
  | limit + 1, some ptr, state =>
    let ref := (lists state).next ptr
    (body state ptr).bind fun state => hlistVisitMutableFrom lists body limit ref state

/-- The first `ref` is read before the loop has looked at `ptr`. -/
def hlistVisitMutable (lists : β → Hlists η ν) (head : η) (body : β → ν → Option β) (limit : Nat) (state : β) :
    Option β :=
  ((lists state).first head).bind fun ptr => hlistVisitMutableFrom lists body limit (some ptr) state

end Hlist

end Hotarubi.Include
