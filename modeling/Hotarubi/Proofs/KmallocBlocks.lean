import Hotarubi.Proofs.KmallocRealloc

/-! What the clients of the heap rely on, in every run of any caches on the page
allocator: objects in use overlap neither each other nor the descriptors of the
caches, and nobody else is handed their pages. -/

namespace Hotarubi.Memory.Kmalloc
open Base Ring Cache Include

/-- A cache that clients allocate from. -/
structure Caches.Open (caches : Caches) (cache : UInt64) (c : Config) : Prop where
  known : caches.config cache = some c
  notSlabs : cache ≠ caches.slabCache
  notBufctls : cache ≠ caches.bufctlCache

/-- The objects that are handed out, with the page map and the descriptors in use. -/
structure Tidy (caches : Caches) (boot : Physmm.State) (w : World) : Prop where
  once : ∀ cache c, caches.Open cache c → (w.handed cache).Nodup
  apart : ∀ cache c other d, caches.Open cache c → caches.Open other d → ∀ x ∈ w.handed cache, ∀ y ∈ w.handed other,
    x ≠ y ∨ cache ≠ other → Block.Apart ⟨x, c.bufferSize⟩ ⟨y, d.bufferSize⟩
  descriptors : ∀ cache c other d, caches.Open cache c → caches.Open other d → c.compact = false →
    ∀ slab ∈ (w.heap.cache cache).made, ∀ y ∈ w.handed other, Block.Apart ⟨slab, slabPool.bufferSize⟩ ⟨y, d.bufferSize⟩
  pages : ∀ cache c, caches.Open cache c → ∀ x ∈ w.handed cache, ∀ byte, Block.Holds ⟨x, c.bufferSize⟩ byte →
    kVMRangePhysMemBase.toNat ≤ byte ∧ (directPage byte < boot.mapBits →
      w.heap.pages.physmm.used (directPage byte) = true ∧ ¬ w.lent (directPage byte))

/-- A block that `kmalloc` returns is new and has room; it refuses only what no row serves. -/
def Granted (caches : Caches) (w w' : World) (n : Nat) : Option Nat → Prop
  | some ptr => ∃ size ∈ kmallocSizes, n ≤ size ∧ size ≤ (kmallocConfig size).bufferSize ∧ ptr % 16 = 0 ∧
      ptr ∈ w'.handed (caches.kmallocCache size) ∧ ptr ∉ w.handed (caches.kmallocCache size)
  | none => ∀ size ∈ kmallocSizes, size < n

def Event.Serves (limit : Nat) (caches : Caches) (boot : Physmm.State) (w : World) (event : Event) : Prop :=
  ∀ answer w', event.exec limit caches w = some (answer, w') → Tidy caches boot w' ∧
    match event with
    | .kmalloc n => ∃ ptr, answer = .object ptr ∧ Granted caches w w' n ptr
    | _ => True

section Blocks

variable {limit : Nat} {caches : Caches} {boot : Physmm.State} {w w' : World} {slots : Nat → Option Slot}
  {slabs bufctls : List Nat} {cache other : UInt64} {c d : Config} {x y n : Nat}

private theorem Valid.serving_open (valid : Valid caches boot w slots slabs bufctls) (op : caches.Open cache c)
    (taken : x ∈ w.handed cache) : Serving slots cache c (w.heap.cache cache) (w.handed cache) := by
  have client := valid.clients cache c op.known op.notSlabs op.notBufctls
  have served : 0 < c.buffers := by
    rw [Nat.pos_iff_ne_zero]
    intro none
    rw [(client.barren none).2.2] at taken
    cases taken
  exact ⟨client.kept served, client.backed⟩

private theorem Valid.tidy_apart (valid : Valid caches boot w slots slabs bufctls)
    (modest : ∀ cache c, caches.config cache = some c → c.allocSize < 2 ^ 32) (left : caches.Open cache c)
    (right : caches.Open other d) (taken : x ∈ w.handed cache) (taken' : y ∈ w.handed other)
    (different : x ≠ y ∨ cache ≠ other) : Block.Apart ⟨x, c.bufferSize⟩ ⟨y, d.bufferSize⟩ := by
  have one := valid.serving_open left taken
  have two := valid.serving_open right taken'
  by_cases same : cache = other
  · subst same
    obtain rfl : c = d := Option.some.inj (left.known.symm.trans right.known)
    obtain ⟨g, kept⟩ := one.kept
    exact handed_apart kept one.backed valid.stocked.booked (caches.sized modest left.known) taken taken'
      (different.resolve_right (not_not.mpr rfl))
  · exact Serving.apart valid.stocked.booked one two (caches.sized modest left.known)
      (caches.sized modest right.known) same taken taken'

private theorem Valid.tidy_descriptors (valid : Valid caches boot w slots slabs bufctls)
    (modest : ∀ cache c, caches.config cache = some c → c.allocSize < 2 ^ 32) (left : caches.Open cache c)
    (right : caches.Open other d) (external : c.compact = false) {slab : Nat} (made : slab ∈ (w.heap.cache cache).made)
    (taken : y ∈ w.handed other) : Block.Apart ⟨slab, slabPool.bufferSize⟩ ⟨y, d.bufferSize⟩ := by
  have client := valid.clients cache c left.known left.notSlabs left.notBufctls
  exact Serving.apart valid.stocked.booked valid.stocked.slabs (valid.serving_open right taken)
    (caches.sized modest caches.slabs) (caches.sized modest right.known) (Ne.symm right.notSlabs)
    (client.slabs external made) taken

private theorem Valid.tidy_pages (valid : Valid caches boot w slots slabs bufctls)
    (modest : ∀ cache c, caches.config cache = some c → c.allocSize < 2 ^ 32) (op : caches.Open cache c)
    (taken : x ∈ w.handed cache) {byte : Nat} (holds : Block.Holds ⟨x, c.bufferSize⟩ byte) :
    kVMRangePhysMemBase.toNat ≤ byte ∧ (directPage byte < boot.mapBits →
      w.heap.pages.physmm.used (directPage byte) = true ∧ ¬ w.lent (directPage byte)) := by
  have serving := valid.serving_open op taken
  have booked := valid.stocked.booked
  have sized := caches.sized modest op.known
  obtain ⟨g, kept⟩ := serving.kept
  obtain ⟨slab, i, page, _, _, here, _, rfl, fits⟩ := handed_inside kept serving.backed sized taken
  have pages : 4096 * (slotOf cache c).pages = c.allocSize := sized.pages
  have low : kVMRangePhysMemBase.toNat + 4096 * page ≤ byte := Nat.le_trans (Nat.le_add_right _ _) holds.1
  have high : byte < kVMRangePhysMemBase.toNat + 4096 * page + 4096 * (slotOf cache c).pages := by
    have above := holds.2
    simp only [directAddr] at above
    omega
  refine ⟨by omega, ?_⟩
  intro inside
  rw [← booked.layout.mapBits] at inside
  apply booked.taken page _ (directPage byte) here ?_ ?_ inside
  · rw [directPage]
    omega
  · rw [directPage]
    omega

private theorem Valid.tidy (valid : Valid caches boot w slots slabs bufctls)
    (modest : ∀ cache c, caches.config cache = some c → c.allocSize < 2 ^ 32) : Tidy caches boot w where
  once cache c op := by
    have client := valid.clients cache c op.known op.notSlabs op.notBufctls
    rcases Nat.eq_zero_or_pos c.buffers with none | served
    · rw [(client.barren none).2.2]
      exact List.nodup_nil
    · obtain ⟨g, kept⟩ := client.kept served
      exact kept.holds.once
  apart _ _ _ _ left right _ taken _ taken' different := valid.tidy_apart modest left right taken taken' different
  descriptors _ _ _ _ left right external _ made _ taken := valid.tidy_descriptors modest left right external made taken
  pages _ _ op _ taken _ holds := valid.tidy_pages modest op taken holds

private theorem kmalloc_open {size : Nat} (member : size ∈ kmallocSizes)
    (known : caches.config (caches.kmallocCache size) = some (kmallocConfig size)) :
    caches.Open (caches.kmallocCache size) (kmallocConfig size) := by
  obtain ⟨notSlabs, notBufctls⟩ := kmalloc_separate member known
  exact ⟨known, notSlabs, notBufctls⟩

private theorem kmallocConfig_aligned {size : Nat} (member : size ∈ kmallocSizes) :
    (kmallocConfig size).bufferSize % 16 = 0 := by
  have all : ∀ size ∈ kmallocSizes, (kmallocConfig size).bufferSize % 16 = 0 := by decide
  exact all size member

theorem Valid.aligned (valid : Valid caches boot w slots slabs bufctls)
    (modest : ∀ cache c, caches.config cache = some c → c.allocSize < 2 ^ 32) {size : Nat} (member : size ∈ kmallocSizes)
    (taken : x ∈ w.handed (caches.kmallocCache size)) : x % 16 = 0 := by
  have known := (valid.taken member taken).1
  have serving := valid.serving member taken
  obtain ⟨g, kept⟩ := serving.kept
  obtain ⟨slab, i, page, _, _, _, _, rfl, _⟩ := handed_inside kept serving.backed (caches.sized modest known) taken
  obtain ⟨quarter, whole⟩ := Nat.dvd_of_mod_eq_zero (kmallocConfig_aligned member)
  have base : kVMRangePhysMemBase.toNat % 16 = 0 := by
    rw [physMemBase_toNat]
  rw [whole, Nat.mul_assoc, directAddr]
  omega

/-- An answer of `kmalloc`, in the world it came in and the one it leaves. -/
theorem Valid.granted (valid : Valid caches boot w slots slabs bufctls)
    (modest : ∀ cache c, caches.config cache = some c → c.allocSize < 2 ^ 32) (enough : 2 ^ 65 ≤ limit)
    {answer : Option Nat} {heap : Heap} (got : w.heap.kmalloc limit caches n = some (answer, heap)) :
    Granted caches w (w.take (((lookupCacheForSize n).map caches.kmallocCache).getD 0) heap answer) n answer := by
  cases answer with
  | none =>
    intro size member
    exact valid.kmalloc_null modest enough got member
  | some ptr =>
    obtain ⟨row, issued⟩ := kmalloc_issued got
    obtain ⟨listed, slots', slabs', bufctls', valid'⟩ := valid.issue modest enough issued
    have first : ptr ∈ (w.take (caches.kmallocCache row) heap (some ptr)).handed (caches.kmallocCache row) :=
      World.mem_take_own
    have once := (valid'.tidy modest).once _ _ (kmalloc_open listed (valid'.taken listed first).1)
    simp only [World.take, Function.update_self, Option.toList_some, List.singleton_append] at once
    rw [issued.found]
    exact ⟨row, listed, issued.room, kmallocConfig_room listed, valid'.aligned modest listed first, first,
      (List.nodup_cons.mp once).1⟩

theorem Valid.serves (valid : Valid caches boot w slots slabs bufctls)
    (modest : ∀ cache c, caches.config cache = some c → c.allocSize < 2 ^ 32)
    (apart : ∀ i < boot.mapBits, caches.config (boot.linkAddr i) = none) (enough : 2 ^ 65 ≤ limit) {event : Event}
    (permitted : event.Permitted caches w) : event.Serves limit caches boot w := by
  intro answer w' ran
  obtain ⟨slots', slabs', bufctls', valid'⟩ := valid.exec modest apart enough permitted ran
  refine ⟨valid'.tidy modest, ?_⟩
  cases event with
  | kmalloc n =>
    obtain ⟨⟨ptr, heap⟩, got, same⟩ := Option.bind_eq_some_iff.mp ran
    cases same
    exact ⟨ptr, rfl, valid.granted modest enough got⟩
  | get cache => trivial
  | put cache ptr => trivial
  | kfree ptr => trivial
  | call request => trivial

/-- In every run of any caches on the page allocator, from any map, objects in use share no
address with each other or with the descriptors of their slabs, nobody else holds their
pages, and a block of `kmalloc` is new, aligned and large enough. -/
theorem heap_blocks_apart (m : Physmm.State) (lent : Nat → Prop) (events : List Event) (direct : m.Direct) (sound : m.Sound)
    (first : m.used 0 = true) (lends : ∀ i, lent i → i < m.mapBits ∧ m.used i = true)
    (modest : ∀ cache c, caches.config cache = some c → c.allocSize < 2 ^ 32)
    (apart : ∀ i < m.mapBits, caches.config (m.linkAddr i) = none) (enough : 2 ^ 65 ≤ limit)
    (permitted : EachStep (Event.exec limit caches) (fun w event => event.Permitted caches w) (.initial m lent) events) :
    EachStep (Event.exec limit caches) (fun w event => event.Serves limit caches m w) (.initial m lent) events := by
  have valid : World.Ready caches m 0 (.initial m lent) := ⟨_, _, _, Valid.initial direct sound first lends⟩
  refine permitted.mono_reached (World.Ready caches m 0) valid ?_ ?_
  · intro w event answer w' ready allowed ran
    obtain ⟨slots, slabs, bufctls, valid⟩ := ready
    exact valid.exec modest apart enough allowed ran
  · intro w event ready allowed
    obtain ⟨slots, slabs, bufctls, valid⟩ := ready
    exact valid.serves modest apart enough allowed

end Blocks

theorem heap_blocks_apart_witness :
    EachStep (Event.exec (2 ^ 65) earlyCaches) (fun w event => event.Serves (2 ^ 65) earlyCaches (earlyMap 1 1) w)
      (.initial (earlyMap 1 1) fun _ => False)
      [Event.kmalloc 256, .call (.allocPage Physmm.kActive), .kfree 0xffff880000001dd0] := by
  refine heap_blocks_apart (earlyMap 1 1) _ _ rfl (.inl (by decide)) (by decide) (fun i lent => lent.elim)
    earlyCaches_modest (by decide +kernel) (Nat.le_refl _) ?_
  refine (eachStep_get (by decide +kernel)).mpr ⟨trivial, ?_⟩
  refine (eachStep_get (by decide +kernel)).mpr ⟨fun takes => absurd takes (by decide), ?_⟩
  exact (eachStep_get (by decide +kernel)).mpr ⟨⟨256, by decide, by decide +kernel⟩, trivial⟩

end Hotarubi.Memory.Kmalloc
