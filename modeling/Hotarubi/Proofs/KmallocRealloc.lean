import Hotarubi.Proofs.KmallocSystem

/-! `krealloc`. In place of the block it gives the row of the table back, which is no
object of any cache. It does what it is asked only where it does not come that far. -/

namespace Hotarubi.Memory.Kmalloc
open Base Ring Cache Include

section Copying

variable {memory : Nat → UInt8} {dest src n : Nat}

/-- The bytes have been copied, and no others have changed. -/
structure Copied (memory memory' : Nat → UInt8) (dest src n : Nat) : Prop where
  content : ∀ i < n, memory' (dest + i) = memory (src + i)
  others : ∀ address, (∀ i < n, address ≠ dest + i) → memory' address = memory address

private theorem copyBytes_copied (clear : dest ≤ src ∨ src + n ≤ dest) :
    Copied memory (copyBytes memory dest src n) dest src n := by
  induction n generalizing memory dest src with
  | zero => exact ⟨fun i bound => absurd bound (Nat.not_lt_zero i), fun _ _ => rfl⟩
  | succ n ih =>
    have rest := @ih (Function.update memory dest (memory src)) (dest + 1) (src + 1) (by omega)
    refine ⟨fun i bound => ?_, fun address outside => ?_⟩
    · cases i with
      | zero =>
        rw [copyBytes, Nat.add_zero dest, Nat.add_zero src, rest.others dest fun i _ => by omega]
        exact Function.update_self ..
      | succ i =>
        have here := rest.content i (by omega)
        rw [Nat.add_assoc, Nat.add_comm 1 i, Nat.add_assoc src, Nat.add_comm 1 i] at here
        rw [copyBytes, here, Function.update_of_ne (by omega)]
    · rw [copyBytes, rest.others address fun i bound => ?_]
      · exact Function.update_of_ne (outside 0 (by omega)) _ _
      · have := outside (i + 1) (by omega)
        omega

theorem memcpy_copied (real : dest ≠ 0) (real' : src ≠ 0) (clear : dest ≤ src ∨ src + n ≤ dest) :
    Copied memory (memcpy memory dest src n) dest src n := by
  unfold memcpy
  split
  next => exact copyBytes_copied clear
  next null =>
    obtain rfl : n = 0 := by
      by_contra some
      exact null ⟨real, real', Nat.pos_of_ne_zero some⟩
    exact ⟨fun i bound => absurd bound (Nat.not_lt_zero i), fun _ _ => rfl⟩

end Copying

/-- A block that `kmalloc` has returned, of a class with room for the bytes. -/
structure Issued (limit : Nat) (caches : Caches) (h : Heap) (n res : Nat) (heap : Heap) (row : Nat) : Prop where
  found : lookupCacheForSize n = some row
  room : n ≤ row
  got : h.getObject limit caches (caches.kmallocCache row) = some (some res, heap)

/-- What is asked of `krealloc` for a block of a class: it comes back where `kmalloc`
does. A new block is one that `kmalloc` has issued; it has the old content, and the
old block, nothing else, is back in its cache. Otherwise the block itself has the room. -/
structure Reallocates (limit : Nat) (caches : Caches) (table : Nat) (h : Heap) (memory : Nat → UInt8)
    (size ptr n : Nat) : Prop where
  returns : (h.kmalloc limit caches n).isSome → (h.krealloc limit caches table memory ptr n).isSome
  moves : ∀ res heap' memory', h.krealloc limit caches table memory ptr n = some (some res, heap', memory') → res ≠ ptr →
    ∃ row heap, Issued limit caches h n res heap row ∧
      heap.putObject limit caches (caches.kmallocCache size) ptr = some heap' ∧
      Copied memory memory' res ptr (min size n)
  stays : ∀ heap' memory', h.krealloc limit caches table memory ptr n = some (some ptr, heap', memory') → n ≤ size

/-- The calls that do not come as far as `put_object`: no cache is found for the block,
which has the room, or `kmalloc` does not come back. -/
def Spared (limit : Nat) (caches : Caches) (h : Heap) (size ptr n : Nat) : Prop :=
  if getCache h.pages.physmm (UInt64.ofNat ptr) = caches.kmallocCache size then h.kmalloc limit caches n = none
  else n ≤ size

section Calls

variable {limit : Nat} {caches : Caches} {boot : Physmm.State} {w : World} {slots : Nat → Option Slot}
  {slabs bufctls : List Nat} {table size n ptr res : Nat} {heap heap' : Heap} {memory memory' : Nat → UInt8}
  {answer : Option Nat}

private theorem kmallocConfig_inj {row : Nat} (same : kmallocConfig row = kmallocConfig size) : row = size :=
  congrArg Config.objSize same

private theorem lookupCacheForPtr_own {h : Heap} (member : size ∈ kmallocSizes)
    (known : caches.config (caches.kmallocCache size) = some (kmallocConfig size))
    (owner : getCache h.pages.physmm (UInt64.ofNat ptr) = caches.kmallocCache size) :
    h.lookupCacheForPtr caches ptr = some size := by
  have real : caches.kmallocCache size ≠ 0 := by
    intro null
    rw [null, caches.null] at known
    cases known
  rw [Heap.lookupCacheForPtr, owner, if_pos real]
  cases found : kmallocSizes.find? fun row => caches.kmallocCache size == caches.kmallocCache row with
  | none => simpa using List.find?_eq_none.mp found size member
  | some row =>
    have same : caches.kmallocCache size = caches.kmallocCache row := by simpa using List.find?_some found
    rcases caches.rows row (List.mem_of_find?_eq_some found) with null | known'
    · exact absurd (same.trans null) real
    · rw [← same, known] at known'
      rw [kmallocConfig_inj (Option.some.inj known').symm]

private theorem lookupCacheForPtr_strange {h : Heap}
    (strange : caches.config (getCache h.pages.physmm (UInt64.ofNat ptr)) = none) : h.lookupCacheForPtr caches ptr =
      none := by
  unfold Heap.lookupCacheForPtr
  simp only
  split
  next real =>
    apply List.find?_eq_none.mpr
    intro row member same
    have same : getCache h.pages.physmm (UInt64.ofNat ptr) = caches.kmallocCache row := by simpa using same
    rcases caches.rows row member with null | known
    · exact real (same.trans null)
    · rw [same, known] at strange
      cases strange
  next => rfl

private theorem kmallocConfig_served (member : size ∈ kmallocSizes) : 0 < (kmallocConfig size).buffers := by
  have all : ∀ size ∈ kmallocSizes, 0 < (kmallocConfig size).buffers := by decide
  exact all size member

theorem kmallocConfig_room (member : size ∈ kmallocSizes) : size ≤ (kmallocConfig size).bufferSize := by
  have all : ∀ size ∈ kmallocSizes, size ≤ (kmallocConfig size).bufferSize := by decide
  exact all size member

private theorem Valid.below_image (valid : Valid caches boot w slots slabs bufctls)
    (modest : ∀ cache c, caches.config cache = some c → c.allocSize < 2 ^ 32) (member : size ∈ kmallocSizes)
    (taken : ptr ∈ w.handed (caches.kmallocCache size)) : ptr ≠ 0 ∧ ptr < kVMRangeKernelBase.toNat := by
  obtain ⟨known, _, g, slab, bufctl, _, origin⟩ := valid.taken member taken
  have backed := valid.backed known
  obtain ⟨made, i, bound, rfl⟩ := backed.origin ptr slab bufctl origin
  obtain ⟨page, address, here⟩ := backed.page slab made
  have small := Nat.lt_trans (valid.stocked.booked.inside page _ here).2.1 (Physmm.mapBits_lt _)
  have offset := (caches.sized modest known).offset bound
  have base := physMemBase_toNat
  have image := kernelBase_toNat
  rw [address, directAddr]
  omega

theorem Valid.serving (valid : Valid caches boot w slots slabs bufctls) (member : size ∈ kmallocSizes)
    (taken : ptr ∈ w.handed (caches.kmallocCache size)) :
    Serving slots (caches.kmallocCache size) (kmallocConfig size) (w.heap.cache (caches.kmallocCache size))
      (w.handed (caches.kmallocCache size)) := by
  obtain ⟨known, _, g, _, _, kept, _⟩ := valid.taken member taken
  exact ⟨⟨g, kept⟩, valid.backed known⟩

theorem Valid.apart (valid : Valid caches boot w slots slabs bufctls)
    (modest : ∀ cache c, caches.config cache = some c → c.allocSize < 2 ^ 32) {row : Nat} (member : row ∈ kmallocSizes)
    (member' : size ∈ kmallocSizes) (taken : res ∈ w.handed (caches.kmallocCache row))
    (taken' : ptr ∈ w.handed (caches.kmallocCache size)) (different : res ≠ ptr ∨ row ≠ size) :
    Block.Apart ⟨res, (kmallocConfig row).bufferSize⟩ ⟨ptr, (kmallocConfig size).bufferSize⟩ := by
  have known := (valid.taken member taken).1
  have known' := (valid.taken member' taken').1
  have left := valid.serving member taken
  have right := valid.serving member' taken'
  by_cases same : row = size
  · subst same
    obtain ⟨g, kept⟩ := left.kept
    exact handed_apart kept left.backed valid.stocked.booked (caches.sized modest known) taken taken'
      (different.resolve_right (not_not.mpr rfl))
  · refine Serving.apart valid.stocked.booked left right (caches.sized modest known) (caches.sized modest known')
      (fun equal => same ?_) taken taken'
    rw [equal, known'] at known
    exact (kmallocConfig_inj (Option.some.inj known)).symm

private theorem World.mem_take {cache other : UInt64} (taken : ptr ∈ w.handed cache) :
    ptr ∈ (w.take other heap answer).handed cache := by
  simp only [World.take]
  by_cases same : cache = other
  · subst same
    rw [Function.update_self]
    exact List.mem_append_right _ taken
  · rwa [Function.update_of_ne same]

theorem kmalloc_issued (got : w.heap.kmalloc limit caches n = some (some res, heap)) :
    ∃ row, Issued limit caches w.heap n res heap row := by
  unfold Heap.kmalloc at got
  cases found : lookupCacheForSize n with
  | none =>
    rw [found] at got
    cases got
  | some row =>
    rw [found] at got
    exact ⟨row, found, by simpa using List.find?_some found, got⟩

/-- Null is the answer only to what is too large. -/
theorem Valid.kmalloc_null (valid : Valid caches boot w slots slabs bufctls)
    (modest : ∀ cache c, caches.config cache = some c → c.allocSize < 2 ^ 32) (enough : 2 ^ 65 ≤ limit)
    (got : w.heap.kmalloc limit caches n = some (none, heap)) (member : size ∈ kmallocSizes) : size < n := by
  unfold Heap.kmalloc at got
  cases found : lookupCacheForSize n with
  | none => simpa using List.find?_eq_none.mp found size member
  | some row =>
    rw [found] at got
    have listed := lookupCacheForSize_mem found
    obtain ⟨c, known, got⟩ := Option.bind_eq_some_iff.mp got
    obtain ⟨⟨answer, s, m⟩, ran, same⟩ := Option.bind_eq_some_iff.mp got
    cases same
    obtain ⟨notSlabs, notBufctls⟩ := kmalloc_separate listed known
    obtain rfl : c = kmallocConfig row := by
      rcases caches.rows row listed with null | known'
      · rw [null, caches.null] at known
        cases known
      · exact Option.some.inj (known.symm.trans known')
    have client := valid.clients _ _ known notSlabs notBufctls
    have answered := (client.get_served valid.stocked (caches.sized modest known) notSlabs notBufctls
      (kmallocConfig_served listed) enough ran).1
    cases answered

theorem World.mem_take_own {cache : UInt64} : res ∈ (w.take cache heap (some res)).handed cache := by
  simp [World.take]

/-- The heap with a new block in the books. -/
theorem Valid.issue (valid : Valid caches boot w slots slabs bufctls)
    (modest : ∀ cache c, caches.config cache = some c → c.allocSize < 2 ^ 32) (enough : 2 ^ 65 ≤ limit) {row : Nat}
    (issued : Issued limit caches w.heap n res heap row) : row ∈ kmallocSizes ∧
      ∃ slots' slabs' bufctls', Valid caches boot (w.take (caches.kmallocCache row) heap
        (some res)) slots' slabs' bufctls' := by
  have listed := lookupCacheForSize_mem issued.found
  obtain ⟨c, known, _⟩ := Option.bind_eq_some_iff.mp issued.got
  obtain ⟨notSlabs, notBufctls⟩ := kmalloc_separate listed known
  exact ⟨listed, valid.get modest enough notSlabs notBufctls issued.got⟩

private theorem Valid.issued_apart (valid : Valid caches boot w slots slabs bufctls)
    (modest : ∀ cache c, caches.config cache = some c → c.allocSize < 2 ^ 32) (enough : 2 ^ 65 ≤ limit) {row : Nat}
    (issued : Issued limit caches w.heap n res heap row) (member : size ∈ kmallocSizes)
    (taken : ptr ∈ w.handed (caches.kmallocCache size)) :
    Block.Apart ⟨res, (kmallocConfig row).bufferSize⟩ ⟨ptr, (kmallocConfig size).bufferSize⟩ := by
  obtain ⟨listed, slots', slabs', bufctls', valid'⟩ := valid.issue modest enough issued
  have first : res ∈ (w.take (caches.kmallocCache row) heap (some res)).handed (caches.kmallocCache row) :=
    World.mem_take_own
  apply valid'.apart modest listed member first (World.mem_take taken)
  by_cases same : row = size
  · subst same
    obtain ⟨_, _, g, _, _, kept, _⟩ := valid'.taken listed first
    have once : (res :: w.handed (caches.kmallocCache row)).Nodup := by
      simpa [World.take] using kept.holds.once
    exact .inl (ne_of_mem_of_not_mem taken (List.nodup_cons.mp once).1).symm
  · exact .inr same

private theorem Valid.put_inj (valid : Valid caches boot w slots slabs bufctls)
    (modest : ∀ cache c, caches.config cache = some c → c.allocSize < 2 ^ 32) (enough : 2 ^ 65 ≤ limit)
    (member : size ∈ kmallocSizes) (taken : ptr ∈ w.handed (caches.kmallocCache size)) {other : Nat}
    (put : w.heap.putObject limit caches (caches.kmallocCache size) ptr = some heap)
    (same : w.heap.putObject limit caches (caches.kmallocCache size) other = some heap) : other = ptr := by
  obtain ⟨known, _, g, _, _, kept, _⟩ := valid.taken member taken
  obtain ⟨c, known', put⟩ := Option.bind_eq_some_iff.mp put
  cases known.symm.trans known'
  obtain ⟨s, ran, done⟩ := Option.bind_eq_some_iff.mp put
  cases done
  obtain ⟨c, known', same⟩ := Option.bind_eq_some_iff.mp same
  cases known.symm.trans known'
  obtain ⟨s', ran', done⟩ := Option.bind_eq_some_iff.mp same
  have equal := congrFun (congrArg Heap.cache (Option.some.inj done)) (caches.kmallocCache size)
  simp only [Function.update_self] at equal
  subst equal
  have regular := (caches.sized modest known).regular
  have number := (valid.backed known).few valid.stocked.booked
  have loops := Nat.mul_le_mul (Nat.le_of_lt number) (Nat.le_of_lt regular.few)
  exact putObject_inj kept (kmallocConfig_served member) (by omega) taken ran ran'

private theorem Valid.krealloc_lost (valid : Valid caches boot w slots slabs bufctls)
    (modest : ∀ cache c, caches.config cache = some c → c.allocSize < 2 ^ 32)
    (apart : ∀ i < boot.mapBits, caches.config (boot.linkAddr i) = none) (member : size ∈ kmallocSizes)
    (taken : ptr ∈ w.handed (caches.kmallocCache size))
    (lost : getCache w.heap.pages.physmm (UInt64.ofNat ptr) ≠ caches.kmallocCache size)
    (limit table : Nat) (memory : Nat → UInt8) (n : Nat) :
    w.heap.krealloc limit caches table memory ptr n = some (some ptr, w.heap, memory) := by
  obtain ⟨known, _, _, _, _, _, origin⟩ := valid.taken member taken
  have strange := (valid.owner_cases modest apart known origin).resolve_left lost
  rw [Heap.krealloc, if_neg (valid.below_image modest member taken).1, lookupCacheForPtr_strange strange]

/-- Where it is found, the bytes are copied into what `kmalloc` returns, and the row is
given back. -/
private theorem Valid.krealloc_found (valid : Valid caches boot w slots slabs bufctls)
    (modest : ∀ cache c, caches.config cache = some c → c.allocSize < 2 ^ 32) (member : size ∈ kmallocSizes)
    (taken : ptr ∈ w.handed (caches.kmallocCache size))
    (owner : getCache w.heap.pages.physmm (UInt64.ofNat ptr) = caches.kmallocCache size)
    (limit table : Nat) (memory : Nat → UInt8) (n : Nat) :
    w.heap.krealloc limit caches table memory ptr n = (w.heap.kmalloc limit caches n).bind fun (res, h) =>
      match res with
      | some res => (h.putObject limit caches (caches.kmallocCache size) (rowAddr table size)).bind fun h =>
        some (some res, h, memcpy memory res ptr (min size n))
      | none => some (some ptr, h, memory) := by
  have less : (if n > size then size else n) = min size n := by
    split <;> omega
  rw [Heap.krealloc, if_neg (valid.below_image modest member taken).1,
    lookupCacheForPtr_own member (valid.taken member taken).1 owner]
  simp only [less]
  rfl

private theorem Valid.issued_ne (valid : Valid caches boot w slots slabs bufctls)
    (modest : ∀ cache c, caches.config cache = some c → c.allocSize < 2 ^ 32) (enough : 2 ^ 65 ≤ limit) {row : Nat}
    (issued : Issued limit caches w.heap n res heap row) (member : size ∈ kmallocSizes)
    (taken : ptr ∈ w.handed (caches.kmallocCache size)) : res ≠ ptr := by
  have apart := valid.issued_apart modest enough issued member taken
  have room := bufferSize_pos (kmallocConfig_served member)
  have room' := bufferSize_pos (kmallocConfig_served (lookupCacheForSize_mem issued.found))
  unfold Block.Apart at apart
  simp only at apart
  omega

private theorem Valid.issued_copied (valid : Valid caches boot w slots slabs bufctls)
    (modest : ∀ cache c, caches.config cache = some c → c.allocSize < 2 ^ 32) (enough : 2 ^ 65 ≤ limit) {row : Nat}
    (issued : Issued limit caches w.heap n res heap row) (member : size ∈ kmallocSizes)
    (taken : ptr ∈ w.handed (caches.kmallocCache size)) :
    Copied memory (memcpy memory res ptr (min size n)) res ptr (min size n) := by
  obtain ⟨listed, slots', slabs', bufctls', valid'⟩ := valid.issue modest enough issued
  have apart := valid.issued_apart modest enough issued member taken
  have room := kmallocConfig_room member
  have room' := kmallocConfig_room listed
  have fits := issued.room
  apply memcpy_copied (valid'.below_image modest listed World.mem_take_own).1 (valid.below_image modest member taken).1
  unfold Block.Apart at apart
  simp only at apart
  omega

/-- Whatever `krealloc` returns in place of a block has the room and the content. -/
theorem Valid.krealloc_copied (valid : Valid caches boot w slots slabs bufctls)
    (modest : ∀ cache c, caches.config cache = some c → c.allocSize < 2 ^ 32)
    (apart : ∀ i < boot.mapBits, caches.config (boot.linkAddr i) = none) (enough : 2 ^ 65 ≤ limit)
    (member : size ∈ kmallocSizes) (taken : ptr ∈ w.handed (caches.kmallocCache size))
    (ran : w.heap.krealloc limit caches table memory ptr n = some (some res, heap', memory')) (new : res ≠ ptr) :
    ∃ row heap, Issued limit caches w.heap n res heap row ∧ Copied memory memory' res ptr (min size n) := by
  by_cases owner : getCache w.heap.pages.physmm (UInt64.ofNat ptr) = caches.kmallocCache size
  · rw [valid.krealloc_found modest member taken owner] at ran
    obtain ⟨⟨answer, heap⟩, got, ran⟩ := Option.bind_eq_some_iff.mp ran
    cases answer with
    | none =>
      cases ran
      exact absurd rfl new
    | some block =>
      obtain ⟨_, _, same⟩ := Option.bind_eq_some_iff.mp ran
      cases same
      obtain ⟨row, issued⟩ := kmalloc_issued got
      exact ⟨row, heap, issued, valid.issued_copied modest enough issued member taken⟩
  · rw [valid.krealloc_lost modest apart member taken owner] at ran
    cases ran
    exact absurd rfl new

private theorem Valid.reallocates_iff (valid : Valid caches boot w slots slabs bufctls)
    (modest : ∀ cache c, caches.config cache = some c → c.allocSize < 2 ^ 32)
    (apart : ∀ i < boot.mapBits, caches.config (boot.linkAddr i) = none) (enough : 2 ^ 65 ≤ limit)
    (image : kVMRangeKernelBase.toNat ≤ table) (member : size ∈ kmallocSizes)
    (taken : ptr ∈ w.handed (caches.kmallocCache size)) (memory : Nat → UInt8) (n : Nat) :
    Reallocates limit caches table w.heap memory size ptr n ↔ Spared limit caches w.heap size ptr n := by
  unfold Spared
  split
  next owner =>
    have run := valid.krealloc_found modest member taken owner limit table memory n
    constructor
    · intro meets
      cases got : w.heap.kmalloc limit caches n with
      | none => rfl
      | some result =>
        obtain ⟨answer, heap⟩ := result
        rw [got, Option.bind_some] at run
        cases answer with
        | none =>
          have room := meets.stays _ _ run
          have large := valid.kmalloc_null modest enough got member
          exact absurd room (Nat.not_le.mpr large)
        | some res =>
          obtain ⟨row, issued⟩ := kmalloc_issued got
          have back := meets.returns (Option.isSome_of_eq_some got)
          rw [run] at back
          obtain ⟨result, back⟩ := Option.isSome_iff_exists.mp back
          obtain ⟨heap', put, same⟩ := Option.bind_eq_some_iff.mp back
          cases same
          rw [back] at run
          obtain ⟨row', other, issued', given, _⟩ := meets.moves _ _ _ run
            (valid.issued_ne modest enough issued member taken)
          cases issued.found.symm.trans issued'.found
          cases issued.got.symm.trans issued'.got
          obtain ⟨slots', slabs', bufctls', valid'⟩ := valid.kmalloc modest enough got
          have same := valid'.put_inj modest enough member (World.mem_take taken) given put
          have low := (valid.below_image modest member taken).2
          unfold rowAddr at same
          omega
    · intro stuck
      rw [stuck] at run
      refine ⟨?_, ?_, ?_⟩
      · rw [stuck]
        exact nofun
      · rw [run]
        nofun
      · rw [run]
        nofun
  next lost =>
    have run := valid.krealloc_lost modest apart member taken lost limit table memory n
    constructor
    · exact fun meets => meets.stays _ _ run
    · intro room
      refine ⟨fun _ => Option.isSome_of_eq_some run, fun res heap' memory' same other => ?_, fun _ _ _ => room⟩
      rw [run] at same
      cases same
      exact absurd rfl other

end Calls

/-- The calls of the heap, and `krealloc` for the bytes that the blocks hold then. -/
inductive Request where
  | heap (event : Event)
  | krealloc (memory : Nat → UInt8) (ptr n : Nat)

/-- The books after `krealloc`: another block takes the place of the old one. -/
def World.replace (caches : Caches) (w : World) (ptr n : Nat) (heap : Heap) (res : Option Nat) : World :=
  if res = some ptr then { w with heap }
  else (w.take (((lookupCacheForSize n).map caches.kmallocCache).getD 0) heap res).give
    (getCache w.heap.pages.physmm (UInt64.ofNat ptr)) heap ptr

def Request.exec (limit : Nat) (caches : Caches) (table : Nat) (w : World) : Request → Option (Answer × World)
  | .heap event => event.exec limit caches w
  | .krealloc memory ptr n => do
    let (res, h, _) ← w.heap.krealloc limit caches table memory ptr n
    some (.object res, w.replace caches ptr n h res)

/-- `krealloc` is given blocks that are in use. -/
def Request.Permitted (caches : Caches) (w : World) : Request → Prop
  | .heap event => event.Permitted caches w
  | .krealloc _ ptr _ => ∃ size ∈ kmallocSizes, ptr ∈ w.handed (caches.kmallocCache size)

/-- `krealloc` does what it is asked for a block of whatever class. -/
def Request.Meets (limit : Nat) (caches : Caches) (table : Nat) (w : World) : Request → Prop
  | .heap _ => True
  | .krealloc memory ptr n => ∀ size ∈ kmallocSizes, ptr ∈ w.handed (caches.kmallocCache size) →
      Reallocates limit caches table w.heap memory size ptr n

def Request.Spared (limit : Nat) (caches : Caches) (w : World) : Request → Prop
  | .heap _ => True
  | .krealloc _ ptr n => ∀ size ∈ kmallocSizes, ptr ∈ w.handed (caches.kmallocCache size) →
      Kmalloc.Spared limit caches w.heap size ptr n

section Requests

variable {limit table : Nat} {caches : Caches} {boot : Physmm.State} {w w' : World} {slots : Nat → Option Slot}
  {slabs bufctls : List Nat} {request : Request} {answer : Answer}

private theorem Valid.exec_request (valid : Valid caches boot w slots slabs bufctls)
    (modest : ∀ cache c, caches.config cache = some c → c.allocSize < 2 ^ 32)
    (apart : ∀ i < boot.mapBits, caches.config (boot.linkAddr i) = none) (enough : 2 ^ 65 ≤ limit)
    (permitted : request.Permitted caches w) (spared : request.Spared limit caches w)
    (ran : request.exec limit caches table w = some (answer, w')) :
    ∃ slots' slabs' bufctls', Valid caches boot w' slots' slabs' bufctls' := by
  cases request with
  | heap event => exact valid.exec modest apart enough permitted ran
  | krealloc memory ptr n =>
    obtain ⟨size, member, taken⟩ := permitted
    have spared := spared size member taken
    obtain ⟨⟨res, heap, memory'⟩, moved, same⟩ := Option.bind_eq_some_iff.mp ran
    cases same
    by_cases owner : getCache w.heap.pages.physmm (UInt64.ofNat ptr) = caches.kmallocCache size
    · rw [Kmalloc.Spared, if_pos owner] at spared
      rw [valid.krealloc_found modest member taken owner, spared] at moved
      cases moved
    · rw [valid.krealloc_lost modest apart member taken owner] at moved
      cases moved
      rw [World.replace, if_pos rfl]
      exact ⟨slots, slabs, bufctls, valid⟩

/-- In every run of the heap, `krealloc` does what it is asked exactly as long as it
is given only blocks whose cache it does not find, with sizes they have room for, or
sizes that `kmalloc` does not come back for. -/
theorem krealloc_spared_iff (m : Physmm.State) (lent : Nat → Prop) (requests : List Request) (direct : m.Direct)
    (sound : m.Sound) (first : m.used 0 = true) (lends : ∀ i, lent i → i < m.mapBits ∧ m.used i = true)
    (modest : ∀ cache c, caches.config cache = some c → c.allocSize < 2 ^ 32)
    (apart : ∀ i < m.mapBits, caches.config (m.linkAddr i) = none) (enough : 2 ^ 65 ≤ limit)
    (image : kVMRangeKernelBase.toNat ≤ table)
    (permitted : EachStep (Request.exec limit caches table) (fun w request => request.Permitted caches w)
      (.initial m lent) requests) :
    EachStep (Request.exec limit caches table) (fun w request => request.Meets limit caches table w)
      (.initial m lent) requests ↔
      EachStep (Request.exec limit caches table) (fun w request => request.Spared limit caches w)
        (.initial m lent) requests := by
  have valid : World.Ready caches m 0 (.initial m lent) := ⟨_, _, _, Valid.initial direct sound first lends⟩
  have same : ∀ n w (request : Request), n < requests.length → World.Ready caches m n w → request.Permitted caches w →
      (request.Meets limit caches table w ↔ request.Spared limit caches w) := by
    intro n w request _ ready _
    obtain ⟨slots, slabs, bufctls, valid⟩ := ready
    cases request with
    | heap event => exact Iff.rfl
    | krealloc memory ptr n =>
      apply forall_congr'
      intro size
      apply forall_congr'
      intro member
      apply forall_congr'
      intro taken
      exact valid.reallocates_iff modest apart enough image member taken memory n
  have kept : ∀ n w (request : Request) answer w', n < requests.length → World.Ready caches m n w →
      request.Permitted caches w → request.Spared limit caches w →
      request.exec limit caches table w = some (answer, w') → World.Ready caches m (n + 1) w' := by
    intro n w request answer w' _ ready allowed spared ran
    obtain ⟨slots, slabs, bufctls, valid⟩ := ready
    exact valid.exec_request modest apart enough allowed spared ran
  exact eachStep_iff same kept valid (Nat.le_of_eq (Nat.zero_add _)) permitted

end Requests

theorem krealloc_spared_iff_witness :
    let requests := [Request.heap (.kmalloc 256), .krealloc (fun _ => 7) 0xffff880000001dd0 100]
    EachStep (Request.exec (2 ^ 65) earlyCaches 0xffffffff80210000)
        (fun w request => request.Meets (2 ^ 65) earlyCaches 0xffffffff80210000 w)
        (.initial (earlyMap 1 1) fun _ => False) requests ↔
      EachStep (Request.exec (2 ^ 65) earlyCaches 0xffffffff80210000)
        (fun w request => request.Spared (2 ^ 65) earlyCaches w)
        (.initial (earlyMap 1 1) fun _ => False) requests := by
  apply krealloc_spared_iff (earlyMap 1 1) _ _ rfl (.inl (by decide)) (by decide) (fun i lent => lent.elim)
    earlyCaches_modest (by decide +kernel) (Nat.le_refl _) (by decide)
  refine (eachStep_get (by decide +kernel)).mpr ⟨trivial, ?_⟩
  exact eachStep_single.mpr ⟨256, by decide, by decide +kernel⟩

/-- The pools and the row for 1024 bytes. -/
def wideCaches : Caches where
  slabCache := 0xffffffff80200000
  bufctlCache := 0xffffffff80200100
  config cache :=
    if cache = 0xffffffff80200000 then some slabPool
    else if cache = 0xffffffff80200100 then some bufctlPool
    else if cache = 0xffffffff80200200 then some (kmallocConfig 1024)
    else none
  kmallocCache size := if size = 1024 then 0xffffffff80200200 else 0
  null := by decide
  slabs := by decide
  bufctls := by decide
  apart := earlyCaches.apart
  created cache c known := by
    split at known
    next => exact ⟨_, _, _, (Option.some.inj known).symm⟩
    next =>
      split at known
      next => exact ⟨_, _, _, (Option.some.inj known).symm⟩
      next =>
        split at known
        next => exact ⟨_, _, _, (Option.some.inj known).symm⟩
        next => cases known
  rows := by decide

private theorem wideCaches_modest (cache : UInt64) (c : Config) (known : wideCaches.config cache = some c) :
    c.allocSize < 2 ^ 32 := by
  have modest : (kmallocConfig 1024).allocSize < 2 ^ 32 := by decide
  exact row_modest modest known

/-- The counter of the slab that blocks of 1024 bytes come from. -/
def wideRefs (h : Heap) : UInt32 :=
  let s := h.cache 0xffffffff80200200
  s.refs (s.made.headD 0)

/-- A block of 1024 bytes is to have 600: a new one is returned and the old one stays
in use. -/
theorem krealloc_keeps_block :
    ¬ ∀ (limit table : Nat) (caches : Caches) (m : Physmm.State) (lent : Nat → Prop) (requests : List Request), m.Direct →
      m.Sound → m.used 0 = true → (∀ i, lent i → i < m.mapBits ∧ m.used i = true) →
      (∀ cache c, caches.config cache = some c → c.allocSize < 2 ^ 32) →
      (∀ i < m.mapBits, caches.config (m.linkAddr i) = none) → 2 ^ 65 ≤ limit → kVMRangeKernelBase.toNat ≤ table →
      EachStep (Request.exec limit caches table) (fun w request => request.Permitted caches w) (.initial m lent) requests →
      EachStep (Request.exec limit caches table) (fun w request => request.Meets limit caches table w)
        (.initial m lent) requests := by
  intro claim
  have each := claim (2 ^ 65) 0xffffffff80210000 wideCaches (earlyMap 1 1) (fun _ => False)
    [.heap (.kmalloc 1024), .krealloc (fun _ => 7) 0xffff880000001c00 600] rfl (.inl (by decide)) (by decide)
    (fun i lent => lent.elim) wideCaches_modest (by decide +kernel) (Nat.le_refl _) (by decide)
    ((eachStep_get (by decide +kernel)).mpr ⟨trivial, eachStep_single.mpr ⟨1024, by decide, by decide +kernel⟩⟩)
  have meets := eachStep_single.mp ((eachStep_get (by decide +kernel)).mp each).2 1024 (by decide) (by decide +kernel)
  let w := ((Request.exec (2 ^ 65) wideCaches 0xffffffff80210000 (.initial (earlyMap 1 1) fun _ => False)
    (.heap (.kmalloc 1024))).get (by decide +kernel)).2
  have returned : (w.heap.krealloc (2 ^ 65) wideCaches 0xffffffff80210000 (fun _ => 7) 0xffff880000001c00 600).map
      (fun result => (result.1, wideRefs result.2.1)) = some (some 0xffff880000001800, 2) := by decide +kernel
  have wanted : (w.heap.getObject (2 ^ 65) wideCaches (wideCaches.kmallocCache 1024)).bind (fun result =>
      (result.2.putObject (2 ^ 65) wideCaches (wideCaches.kmallocCache 1024) 0xffff880000001c00).map wideRefs) =
        some 1 := by
    decide +kernel
  obtain ⟨⟨res, heap', memory'⟩, ran, same⟩ := Option.map_eq_some_iff.mp returned
  obtain ⟨rfl, two⟩ := Prod.mk.inj same
  obtain ⟨row, heap, issued, put, _⟩ := meets.moves _ _ _ ran (by decide)
  obtain rfl : row = 1024 := Option.some.inj (issued.found.symm.trans (by decide))
  rw [issued.got, Option.bind_some, put] at wanted
  have one := Option.some.inj wanted
  rw [two] at one
  cases one

end Hotarubi.Memory.Kmalloc
