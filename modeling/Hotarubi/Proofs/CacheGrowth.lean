import Hotarubi.Proofs.CacheLists

/-! A new slab: the supply gives its blocks, and filling the slab links one
descriptor for each buffer. -/

namespace Hotarubi.Memory.Cache
open Base Ring Chain Include

structure Block where
  addr : Nat
  size : Nat
  deriving DecidableEq, Repr

def Block.Holds (block : Block) (x : Nat) : Prop := block.addr ≤ x ∧ x < block.addr + block.size

def Block.Apart (one two : Block) : Prop := one.addr + one.size ≤ two.addr ∨ two.addr + two.size ≤ one.addr

instance (one two : Block) : Decidable (one.Apart two) := inferInstanceAs (Decidable (_ ∨ _))

theorem Block.Apart.ne {one two : Block} (apart : one.Apart two) {x y : Nat} (left : one.Holds x) (right : two.Holds y) :
    x ≠ y := by
  rintro rfl
  obtain ⟨low, high⟩ := left
  obtain ⟨low', high'⟩ := right
  rcases apart with before | behind <;> omega

theorem Block.Apart.symm {one two : Block} (apart : one.Apart two) : two.Apart one := Or.symm apart

theorem Block.Apart.irrefl {block : Block} (positive : 0 < block.size) : ¬ block.Apart block := by
  rintro (before | behind) <;> omega

theorem Block.Apart.shrink {one two : Block} {size size' : Nat} (apart : one.Apart two) (less : size ≤ one.size)
    (less' : size' ≤ two.size) : Block.Apart ⟨one.addr, size⟩ ⟨two.addr, size'⟩ := by
  unfold Block.Apart at apart ⊢
  simp only
  omega

/-- A block that the slabs of the cache take up. -/
def State.Uses (s : State) (c : Config) (block : Block) : Prop :=
  (∃ slab ∈ s.made, block = ⟨s.backing slab, c.allocSize⟩ ∨ c.compact = false ∧ block = ⟨slab, sizeofSlab⟩) ∨
    c.compact = false ∧ ∃ xs bufctl, IsRing s.links .objMap xs ∧ .bufctls bufctl ∈ xs ∧ block = ⟨bufctl, sizeofBufctl⟩

/-- What `_cache_init` guarantees about the sizes. -/
structure Config.Regular (c : Config) : Prop where
  room : sizeofSlab ≤ c.allocSize
  fits : c.bufferSize ≠ 0 → c.packedSize ≤ c.bufferSize
  whole : c.bufferSize * c.buffers + (if c.compact then sizeofSlab else 0) ≤ c.allocSize
  few : c.buffers < 2 ^ 32
  first : c.allocSize = slabSize ∨ c.buffers ≤ 1

private theorem allocSizeFor_bounds (size : Nat) : size ≤ allocSizeFor size ∧ slabSize ≤ allocSizeFor size ∧
    (allocSizeFor size = slabSize ∨ allocSizeFor size < 2 * size) ∧ allocSizeFor size ≤ size + slabSize := by
  simp only [allocSizeFor, slabSize]
  omega

private theorem packedSize_le (c : Config) (nonzero : c.bufferSize ≠ 0) (align : 0 < c.objAlign) :
    c.packedSize ≤ c.bufferSize := by
  unfold Config.bufferSize at nonzero ⊢
  simp only at nonzero ⊢
  split
  next =>
    have parts := Nat.div_add_mod (c.packedSize + c.objAlign - 1) c.objAlign
    have rest := Nat.mod_lt (c.packedSize + c.objAlign - 1) align
    rw [Nat.mul_comm] at parts
    omega
  next wrapped =>
    rw [if_neg wrapped] at nonzero
    exact absurd rfl nonzero

theorem cacheInit_regular (size align : Nat) (checkOverflow : Bool) : (cacheInit size align checkOverflow).Regular := by
  obtain ⟨covers, slab, tight, bound⟩ := allocSizeFor_bounds size
  generalize made : cacheInit size align checkOverflow = c
  have sizes : c.objSize = size ∧ c.allocSize = allocSizeFor size ∧
      c.compact = decide (size < allocSizeFor size / 8) ∧ 0 < c.objAlign := by
    subst made
    refine ⟨rfl, rfl, rfl, ?_⟩
    simp only [cacheInit]
    split <;> omega
  obtain ⟨object, alloc, compact, positive⟩ := sizes
  have fits := fun nonzero => packedSize_le c nonzero positive
  have packed : size ≤ c.packedSize := by
    simp only [Config.packedSize, Config.markedSize, object]
    omega
  have room : sizeofSlab ≤ c.allocSize := by
    rw [alloc]
    exact Nat.le_trans (by decide) slab
  have whole : c.bufferSize * c.buffers + (if c.compact then sizeofSlab else 0) ≤ c.allocSize := by
    cases inline : c.compact with
    | true =>
      have := Nat.mul_div_le (c.allocSize - sizeofSlab) c.bufferSize
      simp only [Config.buffers, inline, if_true]
      omega
    | false =>
      have := Nat.mul_div_le c.allocSize c.bufferSize
      simpa [Config.buffers, inline] using this
  have one : size ≠ 0 ∨ c.compact = true := by
    rw [compact]
    simp only [slabSize] at slab
    by_cases zero : size = 0
    · right
      simp only [zero, decide_eq_true_eq] at slab ⊢
      omega
    · exact .inl zero
  have large : c.bufferSize = 0 ∨ 0 < c.bufferSize ∧ size ≤ c.bufferSize ∧ (size = 0 → 8 ≤ c.bufferSize) := by
    by_cases zero : c.bufferSize = 0
    · exact .inl zero
    · refine .inr ⟨by omega, Nat.le_trans packed (fits zero), fun none => ?_⟩
      have inline := one.resolve_left (fun other => other none)
      have := fits zero
      simp only [Config.packedSize, inline, if_true, sizeofBufctlInline] at this
      omega
  refine ⟨room, fits, whole, ?_, ?_⟩
  · rcases large with zero | ⟨nonzero, above, empty⟩
    · simp [Config.buffers, zero]
    · have : c.buffers ≤ 4097 := by
        by_contra more
        have := Nat.mul_le_mul_left c.bufferSize (show 4098 ≤ c.buffers by omega)
        simp only [slabSize] at *
        omega
      omega
  · rcases tight with same | tight
    · exact .inl (alloc.trans same)
    · right
      rcases large with zero | ⟨nonzero, above, _⟩
      · simp [Config.buffers, zero]
      · by_contra more
        have := Nat.mul_le_mul_left c.bufferSize (show 2 ≤ c.buffers by omega)
        omega

section Fill

variable {σ : Type} {c : Config} {supply : Supply σ} {backing slab left i limit : Nat} {s : State} {m m' : σ}
  {lists : Link → List Nat} {mapped done bufctls : List Nat}

/-- Where the descriptors of the next buffers come from. -/
inductive Gets (c : Config) (supply : Supply σ) (backing : Nat) : Nat → Nat → σ → List Nat → σ → Prop
  | none {i : Nat} {m : σ} : Gets c supply backing 0 i m [] m
  | next {left i bufctl : Nat} {m m1 m2 : σ} {rest : List Nat}
    (here : bufctlFor c supply (backing + c.bufferSize * i) m = some (some bufctl, m1))
    (later : Gets c supply backing left (i + 1) m1 rest m2) :
    Gets c supply backing (left + 1) i m (bufctl :: rest) m2

theorem Gets.length (gets : Gets c supply backing left i m bufctls m') : bufctls.length = left := by
  induction gets with
  | none => rfl
  | next _ _ ih => rw [List.length_cons, ih]

theorem Gets.inline (gets : Gets c supply backing left i m bufctls m') (compact : c.compact = true) {j bufctl : Nat}
    (found : bufctls[j]? = some bufctl) : bufctl = c.bufctlInline (backing + c.bufferSize * (i + j)) := by
  induction gets generalizing j with
  | none => simp at found
  | @next left i b m m1 m2 rest here later ih =>
    rw [bufctlFor, if_pos compact] at here
    cases here
    cases j with
    | zero => simpa using found.symm
    | succ j =>
      rw [List.getElem?_cons_succ] at found
      rw [ih found, show i + 1 + j = i + (j + 1) by omega]

/-- The fields of a cache that filling a slab leaves alone. -/
structure Alike (s s' : State) : Prop where
  refs : s'.refs = s.refs
  backing : s'.backing = s.backing
  locked : s'.locked = s.locked
  made : s'.made = s.made
  origin : s'.origin = s.origin

theorem Alike.trans {a b d : State} (first : Alike a b) (second : Alike b d) : Alike a d :=
  ⟨second.refs.trans first.refs, second.backing.trans first.backing, second.locked.trans first.locked,
    second.made.trans first.made, second.origin.trans first.origin⟩

private theorem Shelved.map_add {l : Links Link} {bufctl : Nat} (shelved : Shelved l lists mapped)
    (fresh : bufctl ∉ mapped) :
    ∃ l', listAdd l .objMap (.bufctls bufctl) = some l' ∧ Shelved l' lists (bufctl :: mapped) := by
  have outside : Link.bufctls bufctl ∉ .objMap :: mapped.map Link.bufctls := by simpa using fresh
  obtain ⟨l', added, ring, kept⟩ := listAdd_ring shelved.map outside
  refine ⟨l', added, fun list member => (shelved.ring list member).congr fun x onRing => kept x ?_, ring,
    shelved.apart⟩
  exact shelf_apart_objMap member onRing (bufctl :: mapped)

/-- The marker, the link and the counter that every new buffer gets. -/
def State.linked (s : State) (c : Config) (slab buffer bufctl : Nat) : State :=
  { s with
    magic := if c.markers then Function.update s.magic (buffer + c.objSize) bufferMagicWord else s.magic
    word := slistAdd s.word (bufctlsHead slab) bufctl
    stats := { s.stats with buffers := s.stats.buffers + 1 } }

private theorem addBuffer_inline {buffer bufctl : Nat} (compact : c.compact = true) :
    addBuffer c s slab buffer bufctl = some (s.linked c slab buffer bufctl) := by
  rw [addBuffer, if_pos compact]
  rfl

private theorem addBuffer_external {buffer bufctl : Nat} {l' : Links Link} (compact : c.compact = false)
    (added : listAdd s.links .objMap (.bufctls bufctl) = some l') : addBuffer c s slab buffer bufctl =
      some { s.linked c slab buffer bufctl with links := l', data := Function.update s.data bufctl buffer } := by
  simp only [addBuffer, compact, Bool.false_eq_true, if_false, added]
  rfl

/-- What linking one descriptor does, in whatever state the cache is. -/
theorem addBuffer_effect {s' : State} {buffer bufctl : Nat} (added : addBuffer c s slab buffer bufctl = some s') :
    Alike s s' ∧ s'.stats = { s.stats with buffers := s.stats.buffers + 1 } ∧
      s'.word = slistAdd s.word (bufctlsHead slab) bufctl ∧ (∀ x ≠ bufctl, s'.data x = s.data x) ∧
      (c.compact = false → s'.data bufctl = buffer) := by
  cases compact : c.compact with
  | true =>
    cases (addBuffer_inline compact).symm.trans added
    exact ⟨⟨rfl, rfl, rfl, rfl, rfl⟩, rfl, rfl, fun _ _ => rfl, nofun⟩
  | false =>
    unfold addBuffer at added
    simp only [compact, Bool.false_eq_true, if_false] at added
    obtain ⟨s1, linked, result⟩ := Option.bind_eq_some_iff.mp added
    obtain ⟨links, _, moved⟩ := Option.bind_eq_some_iff.mp linked
    cases moved
    cases result
    exact ⟨⟨rfl, rfl, rfl, rfl, rfl⟩, rfl, rfl, fun x other => Function.update_of_ne other _ _,
      fun _ => Function.update_self ..⟩

private theorem addBuffer_shelved {buffer bufctl : Nat} (shelved : Shelved s.links lists mapped)
    (unmapped : bufctl ∉ mapped) :
    ∃ s', addBuffer c s slab buffer bufctl = some s' ∧
      Shelved s'.links lists (if c.compact then mapped else bufctl :: mapped) := by
  obtain ⟨l', added, shelved'⟩ := shelved.map_add unmapped
  cases compact : c.compact with
  | true => exact ⟨_, addBuffer_inline compact, shelved⟩
  | false => exact ⟨_, addBuffer_external compact added, shelved'⟩

/-- A slab is filled when its descriptors are new to the map. -/
theorem fillSlab_shelved (gets : Gets c supply backing left i m bufctls m') (shelved : Shelved s.links lists mapped)
    (nodup : bufctls.Nodup) (unmapped : ∀ b ∈ bufctls, b ∉ mapped) :
    ∃ s', fillSlab c supply backing slab left i s m = some (true, s', m') ∧
      Shelved s'.links lists (if c.compact then mapped else bufctls.reverse ++ mapped) := by
  induction gets generalizing s mapped with
  | none => exact ⟨s, rfl, by simpa using shelved⟩
  | @next left i bufctl m m1 m2 rest here later ih =>
    obtain ⟨own, distinct⟩ := List.nodup_cons.mp nodup
    obtain ⟨s1, added, shelved1⟩ := @addBuffer_shelved c slab s lists mapped
      (backing + c.bufferSize * i) bufctl shelved (unmapped bufctl List.mem_cons_self)
    obtain ⟨s', ran, shelved'⟩ := ih shelved1 distinct fun b member => by
      have old := unmapped b (List.mem_cons_of_mem _ member)
      split
      · exact old
      · exact List.not_mem_cons_of_ne_of_not_mem (ne_of_mem_of_not_mem member own) old
    refine ⟨s', ?_, ?_⟩
    · rw [fillSlab]
      simp only [here, Option.bind_eq_bind, Option.bind_some, added]
      exact ran
    · cases compact : c.compact <;> simpa [compact] using shelved'

/-- What a filled slab looks like, in whatever state the cache was. -/
theorem fillSlab_cut {s' : State} (gets : Gets c supply backing left i m bufctls m')
    (ran : fillSlab c supply backing slab left i s m = some (true, s', m'))
    (chain : IsChain s.word (bufctlsHead slab) done) (nodup : bufctls.Nodup)
    (fresh : ∀ b ∈ bufctls, b ∉ bufctlsHead slab :: done) :
    Alike s s' ∧ IsChain s'.word (bufctlsHead slab) (bufctls.reverse ++ done) ∧
      (∀ x, x ≠ bufctlsHead slab → x ∉ bufctls → s'.word x = s.word x) ∧ (∀ x ∉ bufctls, s'.data x = s.data x) ∧
      ∀ j b, bufctls[j]? = some b → s'.objectOf c b = backing + c.bufferSize * (i + j) := by
  induction gets generalizing s done with
  | none =>
    cases ran
    exact ⟨⟨rfl, rfl, rfl, rfl, rfl⟩, chain, fun _ _ _ => rfl, fun _ _ => rfl, fun j b found => by simp at found⟩
  | @next left i bufctl m m1 m2 rest here later ih =>
    obtain ⟨own, distinct⟩ := List.nodup_cons.mp nodup
    rw [fillSlab] at ran
    simp only [here, Option.bind_eq_bind, Option.bind_some] at ran
    obtain ⟨s1, added, ran⟩ := Option.bind_eq_some_iff.mp ran
    obtain ⟨alike, _, word, data, placed⟩ := addBuffer_effect added
    have pushed : IsChain s1.word (bufctlsHead slab) (bufctl :: done) := by
      rw [word]
      exact chain.push (fresh bufctl List.mem_cons_self)
    obtain ⟨alike', chain', word', data', object'⟩ := ih ran pushed distinct fun b member => by
      have old := fresh b (List.mem_cons_of_mem _ member)
      simp only [List.mem_cons, not_or] at old ⊢
      exact ⟨old.1, ne_of_mem_of_not_mem member own, old.2⟩
    refine ⟨alike.trans alike', by simpa using chain', fun x notHead outside => ?_, fun x outside => ?_,
      fun j b found => ?_⟩
    · obtain ⟨other, later⟩ := not_or.mp (List.mem_cons.not.mp outside)
      rw [word' x notHead later, word, slistAdd, Function.update_of_ne notHead, Function.update_of_ne other]
    · obtain ⟨other, later⟩ := not_or.mp (List.mem_cons.not.mp outside)
      exact (data' x later).trans (data x other)
    · cases j with
      | zero =>
        obtain rfl : bufctl = b := by simpa using found
        cases compact : c.compact with
        | true =>
          rw [bufctlFor, if_pos compact] at here
          cases here
          rw [State.objectOf, if_pos compact, Config.bufctlInline, Nat.add_sub_cancel, Nat.add_zero]
        | false =>
          rw [State.objectOf, compact, if_neg Bool.false_ne_true, data' bufctl own, placed compact, Nat.add_zero]
      | succ j =>
        rw [object' j b (by simpa using found), show i + 1 + j = i + (j + 1) by omega]

end Fill

end Hotarubi.Memory.Cache
