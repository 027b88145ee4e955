import Hotarubi.Proofs.CacheSlabs

/-! A cache that grows: the blocks of the new slab are its own, so the slabs the
cache already has are left as they are. -/

namespace Hotarubi.Memory.Cache
open Base Ring Chain Include

/-- The blocks that a new slab takes up. -/
def Config.blocks (c : Config) (backing slab : Nat) (bufctls : List Nat) : List Block :=
  ⟨backing, c.allocSize⟩ :: if c.compact then [] else ⟨slab, sizeofSlab⟩ :: bufctls.map (⟨·, sizeofBufctl⟩)

/-- The allocations for a new slab succeed. -/
def Grows {σ : Type} (c : Config) (supply : Supply σ) (m : σ) (backing slab : Nat) (bufctls : List Nat) (m' : σ) : Prop :=
  ∃ m1 m2 m3, supply.slabAlloc c.allocSize m = some (some backing, m1) ∧ supply.associate (some backing) m1 = some m2 ∧
    slabFor c supply backing m2 = some (some slab, m3) ∧ Gets c supply backing c.buffers 0 m3 bufctls m'

/-- The blocks are apart from each other and from those in use. -/
structure Fresh (c : Config) (s : State) (backing slab : Nat) (bufctls : List Nat) : Prop where
  apart : (c.blocks backing slab bufctls).Pairwise Block.Apart
  unused : ∀ block ∈ c.blocks backing slab bufctls, ∀ used, s.Uses c used → block.Apart used

section Growth

variable {σ : Type} {c : Config} {supply : Supply σ} {m m' : σ} {backing slab : Nat} {bufctls : List Nat}
  {s s' : State} {g : Ledger} {handed : List Nat}

theorem bufferSize_pos (served : 0 < c.buffers) : 0 < c.bufferSize := by
  rcases Nat.eq_zero_or_pos c.bufferSize with zero | positive
  · simp [Config.buffers, zero] at served
  · exact positive

theorem buffer_lt (regular : c.Regular) {i : Nat} (inside : i < c.buffers) :
    c.bufferSize * (i + 1) + (if c.compact then sizeofSlab else 0) ≤ c.allocSize :=
  Nat.le_trans (Nat.add_le_add_right (Nat.mul_le_mul_left _ inside) _) regular.whole

theorem Grows.length (grows : Grows c supply m backing slab bufctls m') : bufctls.length = c.buffers := by
  obtain ⟨_, _, _, _, _, _, gets⟩ := grows
  exact gets.length

theorem Grows.inline (grows : Grows c supply m backing slab bufctls m') (compact : c.compact = true) :
    slab = c.slabInline backing ∧
      ∀ j b, bufctls[j]? = some b → b = c.bufctlInline (backing + c.bufferSize * j) ∧ j < c.buffers := by
  have length := grows.length
  obtain ⟨_, _, _, _, _, own, gets⟩ := grows
  rw [slabFor, if_pos compact] at own
  cases own
  refine ⟨rfl, fun j b found => ⟨by simpa using gets.inline compact found, ?_⟩⟩
  have bound := (List.getElem?_eq_some_iff.mp found).1
  omega

private theorem inline_end (regular : c.Regular) (compact : c.compact = true) {j : Nat} (inside : j < c.buffers) :
    c.bufferSize * j + c.markedSize + sizeofBufctlInline ≤ c.bufferSize * (j + 1) ∧
      c.bufferSize * (j + 1) + sizeofSlab ≤ c.allocSize := by
  have packed := regular.fits (Nat.ne_of_gt (bufferSize_pos (Nat.zero_lt_of_lt inside)))
  have whole := buffer_lt regular inside
  simp only [Config.packedSize, compact, if_true] at packed whole
  refine ⟨?_, whole⟩
  rw [Nat.mul_add_one]
  omega

/-- The words of a new slab lie in its blocks. -/
theorem Grows.located (grows : Grows c supply m backing slab bufctls m') (regular : c.Regular) {x : Nat}
    (member : x ∈ slab :: bufctlsHead slab :: bufctls) :
    ∃ block ∈ c.blocks backing slab bufctls, block.Holds x := by
  cases compact : c.compact with
  | true =>
    obtain ⟨rfl, inline⟩ := grows.inline compact
    refine ⟨⟨backing, c.allocSize⟩, List.mem_cons_self, ?_⟩
    have room := regular.room
    rcases List.mem_cons.mp member with rfl | member
    · simp only [Block.Holds, Config.slabInline, sizeofSlab] at room ⊢
      omega
    · rcases List.mem_cons.mp member with rfl | member
      · simp only [Block.Holds, bufctlsHead, Config.slabInline, sizeofSlab] at room ⊢
        omega
      · obtain ⟨j, found⟩ := List.getElem?_of_mem member
        obtain ⟨rfl, inside⟩ := inline j x found
        have bound := inline_end regular compact inside
        simp only [Block.Holds, Config.bufctlInline, sizeofBufctlInline] at bound ⊢
        omega
  | false =>
    simp only [Config.blocks, compact, Bool.false_eq_true, if_false]
    rcases List.mem_cons.mp member with rfl | member
    · exact ⟨⟨x, sizeofSlab⟩, by simp, by simp [Block.Holds, sizeofSlab]⟩
    · rcases List.mem_cons.mp member with rfl | member
      · exact ⟨⟨slab, sizeofSlab⟩, by simp, by simp [Block.Holds, bufctlsHead, sizeofSlab]⟩
      · exact ⟨⟨x, sizeofBufctl⟩, by simp [member], by simp [Block.Holds, sizeofBufctl]⟩

/-- The words of a new slab are all different. -/
theorem Grows.nodup (grows : Grows c supply m backing slab bufctls m') (regular : c.Regular)
    (apart : (c.blocks backing slab bufctls).Pairwise Block.Apart) : (bufctlsHead slab :: bufctls).Nodup := by
  cases compact : c.compact with
  | true =>
    obtain ⟨rfl, inline⟩ := grows.inline compact
    refine List.nodup_cons.mpr ⟨fun member => ?_, List.nodup_iff_getElem?_ne_getElem?.mpr fun i j order bound same => ?_⟩
    · obtain ⟨j, found⟩ := List.getElem?_of_mem member
      obtain ⟨same, inside⟩ := inline j _ found
      have bound := inline_end regular compact inside
      simp only [bufctlsHead, Config.slabInline, Config.bufctlInline, sizeofBufctlInline, sizeofSlab] at same bound
      omega
    · have found : bufctls[j]? = some bufctls[j] := List.getElem?_eq_getElem bound
      obtain ⟨left, inside⟩ := inline j _ found
      obtain ⟨right, _⟩ := inline i _ (same.trans found)
      have positive := bufferSize_pos (Nat.zero_lt_of_lt inside)
      rw [left] at right
      simp only [Config.bufctlInline] at right
      have equal : c.bufferSize * j = c.bufferSize * i := by omega
      have := Nat.eq_of_mul_eq_mul_left positive equal
      omega
  | false =>
    simp only [Config.blocks, compact, Bool.false_eq_true, if_false, List.pairwise_cons] at apart
    obtain ⟨_, head, rest⟩ := apart
    refine List.nodup_cons.mpr ⟨fun member => ?_, ?_⟩
    · have clear := head ⟨bufctlsHead slab, sizeofBufctl⟩ (List.mem_map.mpr ⟨_, member, rfl⟩)
      simp only [Block.Apart, bufctlsHead, sizeofSlab, sizeofBufctl] at clear
      omega
    · rw [List.pairwise_map] at rest
      refine List.Pairwise.imp (fun {a b} clear => ?_) rest
      rintro rfl
      simp only [Block.Apart, sizeofBufctl] at clear
      omega

theorem Grows.apart (grows : Grows c supply m backing slab bufctls m') (regular : c.Regular)
    (fresh : Fresh c s backing slab bufctls) (holds : Holds c s g handed) {old x y : Nat} (member : old ∈ s.made)
    (new : x ∈ slab :: bufctlsHead slab :: bufctls) (inside : y ∈ old :: bufctlsHead old :: g.cells old) : x ≠ y := by
  obtain ⟨block, own, left⟩ := grows.located regular new
  obtain ⟨used, uses, right⟩ := holds.located old member y inside
  exact (fresh.unused block own used uses).ne left right

theorem Carved.object_inside {cells : List Nat} (carved : Carved c s cells slab) (regular : c.Regular) {b : Nat}
    (cell : b ∈ cells) : Block.Holds ⟨s.backing slab, c.allocSize⟩ (s.objectOf c b) := by
  obtain ⟨i, inside, object⟩ := carved.object b cell
  have bound := buffer_lt regular inside
  have positive := bufferSize_pos (Nat.zero_lt_of_lt inside)
  rw [Nat.mul_add_one] at bound
  simp only [Block.Holds, object]
  omega

theorem Shelved.init {l : Links Link} {lists : Link → List Nat} {mapped : List Nat} (shelved : Shelved l lists mapped)
    (outside : ∀ list ∈ shelves, slab ∉ lists list) : Shelved (initList l (.slabs slab)) lists mapped := by
  have kept := (initList_ring l (.slabs slab)).2
  refine ⟨fun list member => (shelved.ring list member).congr fun x onRing => kept x ?_,
    shelved.map.congr fun x onRing => kept x ?_, shelved.apart⟩
  · rintro same
    rw [List.mem_singleton.mp same] at onRing
    exact slabs_not_mem member outside onRing
  · rintro same
    rw [List.mem_singleton.mp same] at onRing
    simp at onRing

/-- A slab as `_slab_alloc` has it before the loop that fills it. -/
def State.opened (s : State) (c : Config) (backing slab : Nat) : State :=
  { s with
    stats := { s.stats with allocation := s.stats.allocation + UInt64.ofNat c.allocSize }
    refs := Function.update s.refs slab 0
    backing := Function.update s.backing slab backing
    links := initList s.links (.slabs slab)
    word := Function.update s.word (bufctlsHead slab) (some (bufctlsHead slab)) }

/-- The ledger with a new slab, all of whose buffers are free. -/
def Ledger.grown (g : Ledger) (c : Config) (slab : Nat) (bufctls : List Nat) : Ledger where
  lists := Function.update g.lists .free (slab :: g.lists .free)
  mapped := if c.compact then g.mapped else bufctls.reverse ++ g.mapped
  avail := Function.update g.avail slab bufctls.reverse
  cells := Function.update g.cells slab bufctls.reverse

/-- The cache with a new slab of free buffers, against the cache before. -/
structure Grown (c : Config) (s : State) (g : Ledger) (backing slab : Nat) (bufctls : List Nat) (s' : State) : Prop where
  made : s'.made = slab :: s.made
  block : s'.backing = Function.update s.backing slab backing
  refs : s'.refs = Function.update s.refs slab 0
  word : ∀ x, x ≠ bufctlsHead slab → x ∉ bufctls → s'.word x = s.word x
  kept : ∀ b ∉ bufctls, s'.objectOf c b = s.objectOf c b
  origin : s'.origin = s.origin
  placed : ∀ j b, bufctls[j]? = some b → s'.objectOf c b = backing + c.bufferSize * j
  chain : IsChain s'.word (bufctlsHead slab) bufctls.reverse
  shelved : Shelved s'.links (g.grown c slab bufctls).lists (g.grown c slab bufctls).mapped

/-- The words of the new slab are none of the cache's. -/
def Strange (s : State) (g : Ledger) (slab : Nat) (bufctls : List Nat) : Prop :=
  ∀ old ∈ s.made, ∀ x ∈ slab :: bufctlsHead slab :: bufctls, ∀ y ∈ old :: bufctlsHead old :: g.cells old, x ≠ y

theorem Strange.unmade (strange : Strange s g slab bufctls) : slab ∉ s.made :=
  fun member => strange slab member slab List.mem_cons_self slab List.mem_cons_self rfl

theorem Strange.other (strange : Strange s g slab bufctls) {old : Nat} (member : old ∈ s.made) : old ≠ slab :=
  fun same => strange.unmade (same ▸ member)

theorem Strange.foreign (strange : Strange s g slab bufctls) {old b : Nat} (member : old ∈ s.made)
    (cell : b ∈ g.cells old) :
    b ∉ bufctls :=
  fun inside => strange old member b (by simp [inside]) b (by simp [cell]) rfl

private theorem Strange.unlisted (strange : Strange s g slab bufctls) (holds : Holds c s g handed) :
    ∀ list ∈ shelves, slab ∉ g.lists list :=
  fun list shelf inside => strange.unmade ((holds.made slab).mpr ⟨list, shelf, inside⟩)

theorem Strange.unmapped (strange : Strange s g slab bufctls) (holds : Holds c s g handed) :
    ∀ b ∈ bufctls, b ∉ g.mapped := by
  intro b member mapped
  obtain ⟨_, old, made, cell⟩ := (holds.mapped b).mp mapped
  exact strange.foreign made cell member

private theorem slabAlloc_grown (holds : Holds c s g handed) (regular : c.Regular) (served : 0 < c.buffers)
    (grows : Grows c supply m backing slab bufctls m') (strange : Strange s g slab bufctls)
    (nodup : (bufctlsHead slab :: bufctls).Nodup) (limit : Nat) :
    ∃ s', slabAlloc limit c supply s m = some (some slab, s', m') ∧ Grown c s g backing slab bufctls s' := by
  obtain ⟨headOut, distinct⟩ := List.nodup_cons.mp nodup
  have unlisted := strange.unlisted holds
  obtain ⟨m1, m2, m3, backed, associated, own, gets⟩ := grows
  obtain ⟨s2, filled, shelved⟩ := @fillSlab_shelved σ c supply backing slab c.buffers 0
    (s.opened c backing slab) m3 m' g.lists g.mapped bufctls gets (holds.shelved.init unlisted) distinct
      (strange.unmapped holds)
  obtain ⟨alike, chain, word, data, object⟩ := fillSlab_cut gets filled (isChain_nil (Function.update_self ..)) distinct
    fun b member => by
      rw [List.mem_singleton]
      rintro rfl
      exact headOut member
  obtain ⟨l', added, shelved'⟩ := @Shelved.add _ _ _ .free slab shelved (by simp) unlisted
  refine ⟨{ s2 with links := l', stats := { s2.stats with slabs := s2.stats.slabs + 1 }, made := slab :: s2.made }, ?_,
    congrArg (slab :: ·) alike.made, alike.backing, alike.refs, ?_, ?_, alike.origin, ?_, ?_, shelved'⟩
  · have size := bufferSize_pos served
    have bound : ¬ (c.buffers = 0 ∨ c.bufferSize > c.allocSize) := by
      have := buffer_lt regular served
      omega
    unfold slabAlloc
    simp only [backed, associated, own, Option.bind_eq_bind, Option.bind_some]
    rw [if_neg (Nat.ne_of_gt size), if_neg bound]
    change (fillSlab c supply backing slab c.buffers 0 (s.opened c backing slab) m3).bind _ = _
    rw [filled]
    simp only [Option.bind_some, if_true, added]
  · exact fun x notHead outside => (word x notHead outside).trans (Function.update_of_ne notHead _ _)
  · intro b outside
    have same : s2.data b = s.data b := data b outside
    simp only [State.objectOf, same]
  · intro j b found
    exact (object j b found).trans (by rw [Nat.zero_add])
  · simpa using chain

/-- The new slab is cut into its buffers. -/
theorem Grows.carved (grows : Grows c supply m backing slab bufctls m') (served : 0 < c.buffers)
    (nodup : (bufctlsHead slab :: bufctls).Nodup) (block : s'.backing slab = backing)
    (placed : ∀ j b, bufctls[j]? = some b → s'.objectOf c b = backing + c.bufferSize * j) :
    Carved c s' bufctls.reverse slab := by
  obtain ⟨headOut, distinct⟩ := List.nodup_cons.mp nodup
  have number := grows.length
  have place : ∀ b ∈ bufctls.reverse, ∃ j, bufctls[j]? = some b ∧ j < c.buffers ∧
      s'.objectOf c b = backing + c.bufferSize * j := by
    intro b member
    obtain ⟨j, found⟩ := List.getElem?_of_mem (List.mem_reverse.mp member)
    have bound := (List.getElem?_eq_some_iff.mp found).1
    exact ⟨j, found, number ▸ bound, placed j b found⟩
  refine ⟨?_, by rw [List.length_reverse, number], fun b member => ?_, fun b member b' member' same => ?_,
    fun compact b member => ?_⟩
  · rw [List.nodup_cons, List.mem_reverse, List.nodup_reverse]
    exact ⟨headOut, distinct⟩
  · obtain ⟨j, _, inside, here⟩ := place b member
    exact ⟨j, inside, by rw [here, block]⟩
  · obtain ⟨j, found, _, here⟩ := place b member
    obtain ⟨j', found', _, here'⟩ := place b' member'
    rw [here, here', Nat.add_left_cancel_iff] at same
    have equal := Nat.eq_of_mul_eq_mul_left (bufferSize_pos served) same
    rw [equal, found'] at found
    exact (Option.some.inj found).symm
  · obtain ⟨j, found, _, here⟩ := place b member
    rw [here]
    exact ((grows.inline compact).2 j b found).1

theorem Grown.balanced (grown : Grown c s g backing slab bufctls s') (grows : Grows c supply m backing slab bufctls m') :
    Balanced c s' bufctls.reverse bufctls.reverse slab := by
  refine ⟨grown.chain, fun b free => free, ?_, fun b cell out => absurd cell out, fun b cell out => absurd cell out⟩
  rw [grown.refs, Function.update_self, List.length_reverse, grows.length]
  simp

theorem Grown.uses (grown : Grown c s g backing slab bufctls s') (holds : Holds c s g handed)
    (strange : Strange s g slab bufctls) {block : Block} (used : s.Uses c block) : s'.Uses c block := by
  rcases used with ⟨old, member, cases⟩ | ⟨external, xs, bufctl, ring, mapped, same⟩
  · refine .inl ⟨old, grown.made ▸ List.mem_cons_of_mem _ member, ?_⟩
    rwa [grown.block, Function.update_of_ne (strange.other member)]
  · obtain rfl := ring.unique holds.shelved.map
    refine .inr ⟨external, _, bufctl, grown.shelved.map, ?_, same⟩
    rw [Ledger.grown, if_neg (by simp [external]), List.map_append]
    exact List.mem_append_right _ mapped

private theorem Grown.uses_new (grown : Grown c s g backing slab bufctls s') {block : Block}
    (member : block ∈ c.blocks backing slab bufctls) : s'.Uses c block := by
  have own : slab ∈ s'.made := grown.made ▸ List.mem_cons_self
  rcases List.mem_cons.mp member with rfl | rest
  · exact .inl ⟨slab, own, .inl (by rw [grown.block, Function.update_self])⟩
  · cases compact : c.compact with
    | true => simp [compact] at rest
    | false =>
      simp only [compact, Bool.false_eq_true, if_false] at rest
      rcases List.mem_cons.mp rest with rfl | rest
      · exact .inl ⟨slab, own, .inr ⟨compact, rfl⟩⟩
      · obtain ⟨b, inside, rfl⟩ := List.mem_map.mp rest
        refine .inr ⟨compact, _, b, grown.shelved.map, ?_, rfl⟩
        simp [Ledger.grown, compact, inside]

theorem Strange.words (strange : Strange s g slab bufctls) {old z : Nat} (member : old ∈ s.made)
    (new : z ∈ bufctlsHead slab :: bufctls.reverse) (inside : z ∈ bufctlsHead old :: g.cells old) : False := by
  rw [List.mem_cons, List.mem_reverse, ← List.mem_cons] at new
  exact strange old member z (List.mem_cons_of_mem _ new) z (List.mem_cons_of_mem _ inside) rfl

theorem Grown.objects (grown : Grown c s g backing slab bufctls s') (holds : Holds c s g handed) (regular : c.Regular)
    (fresh : Fresh c s backing slab bufctls) (strange : Strange s g slab bufctls)
    (carved : Carved c s' bufctls.reverse slab)
    {old b b' : Nat} (member : old ∈ s.made) (cell : b ∈ g.cells old) (cell' : b' ∈ bufctls.reverse) :
    s'.objectOf c b ≠ s'.objectOf c b' := by
  have left := (holds.carved old member).object_inside regular cell
  have right := carved.object_inside regular cell'
  rw [grown.block, Function.update_self] at right
  rw [grown.kept b (strange.foreign member cell)]
  exact ((fresh.unused _ List.mem_cons_self _ (.inl ⟨old, member, .inl rfl⟩)).ne right left).symm

private theorem unshared_cons {R : Nat → Nat → Prop} {made : List Nat} (symm : ∀ x y, R x y → R y x)
    (new : ∀ old ∈ made, ¬ R slab old) (old : ∀ x ∈ made, ∀ y ∈ made, R x y → x = y) :
    ∀ x ∈ slab :: made, ∀ y ∈ slab :: made, R x y → x = y := by
  intro x member y member' shared
  rcases List.mem_cons.mp member with rfl | inside
  · rcases List.mem_cons.mp member' with rfl | inside'
    · rfl
    · exact absurd shared (new y inside')
  · rcases List.mem_cons.mp member' with rfl | inside'
    · exact absurd (symm _ _ shared) (new x inside)
    · exact old x inside y inside' shared

private theorem Ledger.grown_new (g : Ledger) : (g.grown c slab bufctls).cells slab = bufctls.reverse :=
  Function.update_self ..

theorem Strange.cells (strange : Strange s g slab bufctls) {old : Nat} (member : old ∈ s.made) :
    (g.grown c slab bufctls).cells old = g.cells old :=
  Function.update_of_ne (strange.other member) ..

theorem Strange.avail (strange : Strange s g slab bufctls) {old : Nat} (member : old ∈ s.made) :
    (g.grown c slab bufctls).avail old = g.avail old :=
  Function.update_of_ne (strange.other member) ..

private theorem Holds.grown_words (holds : Holds c s g handed) (strange : Strange s g slab bufctls) :
    ∀ x ∈ slab :: s.made, ∀ y ∈ slab :: s.made, (∃ z ∈ bufctlsHead x :: (g.grown c slab bufctls).cells x,
      z ∈ bufctlsHead y :: (g.grown c slab bufctls).cells y) → x = y := by
  refine unshared_cons (fun x y ⟨z, left, right⟩ => ⟨z, right, left⟩) ?_ ?_
  · rintro old member ⟨z, left, right⟩
    rw [Ledger.grown_new] at left
    rw [strange.cells member] at right
    exact strange.words member left right
  · rintro x member y member' ⟨z, left, right⟩
    rw [strange.cells member] at left
    rw [strange.cells member'] at right
    exact holds.words x member y member' z left right

theorem Grown.unshared (grown : Grown c s g backing slab bufctls s') (holds : Holds c s g handed) (regular : c.Regular)
    (fresh : Fresh c s backing slab bufctls) (strange : Strange s g slab bufctls)
    (carved : Carved c s' bufctls.reverse slab) :
    ∀ x ∈ slab :: s.made, ∀ y ∈ slab :: s.made, (∃ b ∈ (g.grown c slab bufctls).cells x,
      ∃ b' ∈ (g.grown c slab bufctls).cells y, s'.objectOf c b = s'.objectOf c b') → x = y := by
  refine unshared_cons (fun x y ⟨b, left, b', right, same⟩ => ⟨b', right, b, left, same.symm⟩) ?_ ?_
  · rintro old member ⟨b', right, b, left, same⟩
    rw [Ledger.grown_new] at right
    rw [strange.cells member] at left
    exact grown.objects holds regular fresh strange carved member left right same.symm
  · rintro x member y member' ⟨b, left, b', right, same⟩
    rw [strange.cells member] at left
    rw [strange.cells member'] at right
    rw [grown.kept b (strange.foreign member left), grown.kept b' (strange.foreign member' right)] at same
    exact holds.objects x member y member' b left b' right same

private theorem Holds.grown_mapped (holds : Holds c s g handed) (strange : Strange s g slab bufctls) (b : Nat) :
    b ∈ (g.grown c slab bufctls).mapped ↔
      c.compact = false ∧ ∃ x ∈ slab :: s.made, b ∈ (g.grown c slab bufctls).cells x := by
  have old := holds.mapped b
  rw [Ledger.grown]
  cases compact : c.compact with
  | true =>
    simp only [compact, Bool.true_eq_false, false_and, iff_false] at old ⊢
    exact old
  | false =>
    simp only [compact, true_and] at old
    simp only [Bool.false_eq_true, if_false, List.mem_append, old, List.mem_cons, exists_eq_or_imp, Function.update_self,
      true_and]
    refine or_congr_right (exists_congr fun x => and_congr_right fun member => ?_)
    rw [Function.update_of_ne (strange.other member)]

theorem Grown.account (grown : Grown c s g backing slab bufctls s') (holds : Holds c s g handed)
    (strange : Strange s g slab bufctls) (ptr : Nat) :
    ptr ∈ handed ↔ ∃ x ∈ slab :: s.made, ∃ b ∈ (g.grown c slab bufctls).cells x,
      b ∉ (g.grown c slab bufctls).avail x ∧ s'.objectOf c b = ptr := by
  rw [holds.account]
  constructor
  · rintro ⟨x, old, b, cell, out, same⟩
    refine ⟨x, List.mem_cons_of_mem _ old, b, ?_, ?_, (grown.kept b (strange.foreign old cell)).trans same⟩
    · rwa [strange.cells old]
    · rwa [strange.avail old]
  · rintro ⟨x, member, b, cell, out, same⟩
    rcases List.mem_cons.mp member with rfl | old
    · -- no buffer of the new slab is out
      simp only [Ledger.grown, Function.update_self] at cell out
      exact absurd cell out
    · rw [strange.cells old] at cell
      rw [strange.avail old] at out
      exact ⟨x, old, b, cell, out, (grown.kept b (strange.foreign old cell)).symm.trans same⟩

/-- A new slab leaves the old ones as they are. -/
theorem Holds.grow (holds : Holds c s g handed) (regular : c.Regular) (served : 0 < c.buffers)
    (grows : Grows c supply m backing slab bufctls m') (fresh : Fresh c s backing slab bufctls) (limit : Nat) :
    ∃ s', slabAlloc limit c supply s m = some (some slab, s', m') ∧ Holds c s' (g.grown c slab bufctls) handed ∧
      s'.origin = s.origin ∧ s'.made = slab :: s.made ∧ slab ∉ s.made ∧
      s'.backing = Function.update s.backing slab backing := by
  have nodup := grows.nodup regular fresh.apart
  have strange : Strange s g slab bufctls :=
    fun old member x new y inside => grows.apart regular fresh holds member new inside
  obtain ⟨s', ran, grown⟩ := slabAlloc_grown holds regular served grows strange nodup limit
  have carved := grows.carved served nodup (by rw [grown.block, Function.update_self]) grown.placed
  refine ⟨s', ran, ⟨grown.shelved, ?_, ?_, ?_, ?_, ?_, ?_, ?_, ?_, holds.once⟩, grown.origin, grown.made, strange.unmade,
    grown.block⟩
  all_goals
    rw [grown.made]
  · intro x
    rw [List.mem_cons, holds.made]
    simp only [Ledger.grown, List.mem_cons, List.not_mem_nil, or_false, exists_eq_or_imp, exists_eq_left,
      Function.update_self, ne_eq, reduceCtorEq, not_false_eq_true, Function.update_of_ne]
    tauto
  · intro x member
    rcases List.mem_cons.mp member with rfl | old
    · rwa [Ledger.grown_new]
    · rw [strange.cells old]
      refine (holds.carved x old).same ?_ fun b cell => grown.kept b (strange.foreign old cell)
      rw [grown.block, Function.update_of_ne (strange.other old)]
  · intro x member
    rcases List.mem_cons.mp member with rfl | old
    · simp only [Ledger.grown, Function.update_self]
      exact grown.balanced grows
    · rw [strange.cells old, strange.avail old]
      refine (holds.balanced x old).same ?_ (fun y inside => grown.word y ?_ ?_) fun b cell => ?_
      · rw [grown.refs, Function.update_of_ne (strange.other old)]
      · exact (strange x old _ (by simp) y (List.mem_cons_of_mem _ inside)).symm
      · exact fun new => strange x old y (by simp [new]) y (List.mem_cons_of_mem _ inside) rfl
      · rw [grown.kept b (strange.foreign old cell), grown.origin]
  · exact fun x member y member' z left right => holds.grown_words strange x member y member' ⟨z, left, right⟩
  · exact fun x member y member' b left b' right same =>
      grown.unshared holds regular fresh strange carved x member y member' ⟨b, left, b', right, same⟩
  · intro x member y inside
    rcases List.mem_cons.mp member with rfl | old
    · rw [Ledger.grown_new, List.mem_cons, List.mem_cons, List.mem_reverse, ← List.mem_cons, ← List.mem_cons] at inside
      obtain ⟨block, own, within⟩ := grows.located regular inside
      exact ⟨block, grown.uses_new own, within⟩
    · rw [strange.cells old] at inside
      obtain ⟨block, used, within⟩ := holds.located x old y inside
      exact ⟨block, grown.uses holds strange used, within⟩
  · exact holds.grown_mapped strange
  · exact grown.account holds strange

end Growth

end Hotarubi.Memory.Cache
