import Hotarubi.Proofs.CacheGrowth

/-! What holds of the slabs of a cache between two calls, and how taking a
buffer, giving one back, sorting and growing keep it. -/

namespace Hotarubi.Memory.Cache
open Base Ring Chain Include

/-- The slabs on each list, the descriptors in the object map, and the free and
all descriptors of each slab. -/
structure Ledger where
  lists : Link → List Nat
  mapped : List Nat
  avail : Nat → List Nat
  cells : Nat → List Nat

/-- What never changes about a slab: its descriptors and their objects. -/
structure Carved (c : Config) (s : State) (cells : List Nat) (slab : Nat) : Prop where
  nodup : (bufctlsHead slab :: cells).Nodup
  number : cells.length = c.buffers
  object : ∀ b ∈ cells, ∃ i < c.buffers, s.objectOf c b = s.backing slab + c.bufferSize * i
  single : ∀ b ∈ cells, ∀ b' ∈ cells, s.objectOf c b = s.objectOf c b' → b = b'
  inline : c.compact = true → ∀ b ∈ cells, b = c.bufctlInline (s.objectOf c b)

/-- The free descriptors of a slab are linked, and every other one points to the slab. -/
structure Balanced (c : Config) (s : State) (avail cells : List Nat) (slab : Nat) : Prop where
  chain : IsChain s.word (bufctlsHead slab) avail
  inside : ∀ b ∈ avail, b ∈ cells
  count : (s.refs slab).toNat + avail.length = c.buffers
  owner : ∀ b ∈ cells, b ∉ avail → s.word b = some slab
  origin : ∀ b ∈ cells, b ∉ avail → s.origin (s.objectOf c b) = some (slab, b)

/-- The invariant, but for the sorting of the lists. -/
structure Holds (c : Config) (s : State) (g : Ledger) (handed : List Nat) : Prop where
  shelved : Shelved s.links g.lists g.mapped
  made : ∀ slab, slab ∈ s.made ↔ ∃ list ∈ shelves, slab ∈ g.lists list
  carved : ∀ slab ∈ s.made, Carved c s (g.cells slab) slab
  balanced : ∀ slab ∈ s.made, Balanced c s (g.avail slab) (g.cells slab) slab
  words : ∀ slab ∈ s.made, ∀ other ∈ s.made, ∀ x ∈ bufctlsHead slab :: g.cells slab,
    x ∈ bufctlsHead other :: g.cells other → slab = other
  objects : ∀ slab ∈ s.made, ∀ other ∈ s.made, ∀ b ∈ g.cells slab, ∀ b' ∈ g.cells other,
    s.objectOf c b = s.objectOf c b' → slab = other
  located : ∀ slab ∈ s.made, ∀ x ∈ slab :: bufctlsHead slab :: g.cells slab, ∃ block, s.Uses c block ∧ block.Holds x
  mapped : ∀ b, b ∈ g.mapped ↔ c.compact = false ∧ ∃ slab ∈ s.made, b ∈ g.cells slab
  account : ∀ ptr, ptr ∈ handed ↔ ∃ slab ∈ s.made, ∃ b ∈ g.cells slab, b ∉ g.avail slab ∧ s.objectOf c b = ptr
  once : handed.Nodup

/-- Every slab is on the list it belongs on. -/
def Sorted (s : State) (g : Ledger) : Prop := ∀ list ∈ shelves, ∀ slab ∈ g.lists list, list = place s slab

section Steps

variable {c : Config} {s s' : State} {g : Ledger} {handed : List Nat} {slab bufctl limit : Nat} {rest : List Nat}

theorem Carved.same {cells : List Nat} (carved : Carved c s cells slab) (backing : s'.backing slab = s.backing slab)
    (object : ∀ b ∈ cells, s'.objectOf c b = s.objectOf c b) : Carved c s' cells slab := by
  refine ⟨carved.nodup, carved.number, fun b member => ?_, fun b member b' member' same => ?_, fun compact b member => ?_⟩
  · rw [object b member, backing]
    exact carved.object b member
  · rw [object b member, object b' member'] at same
    exact carved.single b member b' member' same
  · rw [object b member]
    exact carved.inline compact b member

theorem Balanced.same {avail cells : List Nat} (balanced : Balanced c s avail cells slab)
    (refs : s'.refs slab = s.refs slab) (word : ∀ x ∈ bufctlsHead slab :: cells, s'.word x = s.word x)
    (origin : ∀ b ∈ cells, s'.origin (s'.objectOf c b) = s.origin (s.objectOf c b)) : Balanced c s' avail cells slab := by
  refine ⟨balanced.chain.congr fun x member => word x ?_, balanced.inside, ?_, fun b member out => ?_,
    fun b member out => (origin b member).trans (balanced.origin b member out)⟩
  · rcases List.mem_cons.mp member with rfl | free
    · exact List.mem_cons_self
    · exact List.mem_cons_of_mem _ (balanced.inside x free)
  · rw [refs]
    exact balanced.count
  · rw [word b (List.mem_cons_of_mem _ member)]
    exact balanced.owner b member out

theorem slabEmpty_iff : slabEmpty s slab = true ↔ s.refs slab = 0 := by simp [slabEmpty]

theorem Holds.full_iff (holds : Holds c s g handed) (member : slab ∈ s.made) :
    slabFull s slab = true ↔ g.avail slab = [] := slistEmpty_chain (holds.balanced slab member).chain

theorem Holds.single (holds : Holds c s g handed) (served : 0 < c.buffers) (member : slab ∈ s.made) :
    ¬ (slabFull s slab = true ∧ slabEmpty s slab = true) := by
  rintro ⟨full, empty⟩
  have count := (holds.balanced slab member).count
  rw [holds.full_iff member] at full
  rw [slabEmpty_iff] at empty
  rw [full, empty] at count
  simp at count
  omega

/-- A change of the words of one slab and of its counter concerns no other slab. -/
theorem Holds.update (holds : Holds c s g handed) (member : slab ∈ s.made) {avail : List Nat} {handed' : List Nat}
    (links : s'.links = s.links) (backing : s'.backing = s.backing) (data : s'.data = s.data) (made : s'.made = s.made)
    (refs : ∀ other, other ≠ slab → s'.refs other = s.refs other)
    (word : ∀ x, x ∉ bufctlsHead slab :: g.cells slab → s'.word x = s.word x)
    (origin : ∀ ptr, (∀ b ∈ g.cells slab, s.objectOf c b ≠ ptr) → s'.origin ptr = s.origin ptr)
    (balanced : Balanced c s' avail (g.cells slab) slab)
    (moved : ∀ ptr, ptr ∈ handed' ↔ (∃ b ∈ g.cells slab, b ∉ avail ∧ s.objectOf c b = ptr) ∨
      ∃ other ∈ s.made, other ≠ slab ∧ ∃ b ∈ g.cells other, b ∉ g.avail other ∧ s.objectOf c b = ptr)
    (once : handed'.Nodup) :
    Holds c s' { g with avail := Function.update g.avail slab avail } handed' := by
  have object : ∀ b, s'.objectOf c b = s.objectOf c b := by
    intro b
    simp only [State.objectOf, data]
  have uses : ∀ block, s.Uses c block → s'.Uses c block := by
    intro block used
    unfold State.Uses at used ⊢
    rwa [made, backing, links]
  refine ⟨links ▸ holds.shelved, fun x => made ▸ holds.made x, ?_, ?_, made ▸ holds.words, ?_, ?_, ?_, ?_, once⟩
  · rw [made]
    exact fun x inside => (holds.carved x inside).same (congrFun backing x) fun b _ => object b
  · rw [made]
    intro x inside
    by_cases same : x = slab
    · subst same
      simpa using balanced
    · simp only [Function.update_of_ne same]
      refine (holds.balanced x inside).same (refs x same) (fun y inner => word y fun outer => ?_) fun b inner => ?_
      · exact same (holds.words x inside slab member y inner outer)
      · rw [object]
        exact origin _ fun b' cell both => same (holds.objects slab member x inside b' cell b inner both).symm
  · rw [made]
    simp only [object]
    exact holds.objects
  · rw [made]
    intro x inside y inner
    obtain ⟨block, used, within⟩ := holds.located x inside y inner
    exact ⟨block, uses block used, within⟩
  · rw [made]
    exact holds.mapped
  · intro ptr
    rw [moved, made]
    simp only [object]
    constructor
    · rintro (⟨b, cell, out, same⟩ | ⟨other, inside, different, b, cell, out, same⟩)
      · exact ⟨slab, member, b, cell, by simpa using out, same⟩
      · exact ⟨other, inside, b, cell, by simpa [Function.update_of_ne different] using out, same⟩
    · rintro ⟨other, inside, b, cell, out, same⟩
      by_cases here : other = slab
      · subst here
        exact .inl ⟨b, cell, by simpa using out, same⟩
      · exact .inr ⟨other, inside, here, b, cell, by simpa [Function.update_of_ne here] using out, same⟩

theorem Holds.object_inj (holds : Holds c s g handed) {other b b' : Nat} (member : slab ∈ s.made) (member' : other ∈ s.made)
    (cell : b ∈ g.cells slab) (cell' : b' ∈ g.cells other) (same : s.objectOf c b = s.objectOf c b') :
    slab = other ∧ b = b' := by
  obtain rfl := holds.objects slab member other member' b cell b' cell' same
  exact ⟨rfl, (holds.carved slab member).single b cell b' cell' same⟩

theorem Holds.not_handed (holds : Holds c s g handed) (member : slab ∈ s.made) (free : bufctl ∈ g.avail slab) :
    s.objectOf c bufctl ∉ handed := by
  intro taken
  obtain ⟨other, member', b, cell, out, same⟩ := (holds.account _).mp taken
  have own := (holds.balanced slab member).inside bufctl free
  obtain ⟨rfl, rfl⟩ := holds.object_inj member' member cell own same
  exact out free

/-- The slab after its first free buffer is taken. -/
def State.took (s : State) (c : Config) (slab bufctl : Nat) : State :=
  { s with
    word := Function.update (Function.update s.word (bufctlsHead slab) (s.word bufctl)) bufctl (some slab)
    refs := Function.update s.refs slab (s.refs slab + 1)
    origin := Function.update s.origin (s.objectOf c bufctl) (some (slab, bufctl)) }

theorem slabGetObject_eq (holds : Holds c s g handed) (member : slab ∈ s.made) (free : g.avail slab = bufctl :: rest) :
    slabGetObject limit c s slab = some (some (s.objectOf c bufctl), s.took c slab bufctl) := by
  have chain := (holds.balanced slab member).chain
  rw [free] at chain
  have some : ¬ slistEmpty s.word (bufctlsHead slab) = true := by
    rw [slistEmpty_chain chain]
    exact List.cons_ne_nil _ _
  have first : s.word (bufctlsHead slab) = Option.some bufctl := chain.first
  rw [slabGetObject, if_neg some, first]
  simp only [Option.bind_eq_bind, Option.bind_some, slistDel_first chain, State.took, Function.update_idem]

theorem Holds.take (holds : Holds c s g handed) (few : c.buffers < 2 ^ 32) (member : slab ∈ s.made)
    (free : g.avail slab = bufctl :: rest) :
    Holds c (s.took c slab bufctl) { g with avail := Function.update g.avail slab rest }
      (s.objectOf c bufctl :: handed) := by
  have carved := holds.carved slab member
  have balanced := holds.balanced slab member
  have chain := balanced.chain
  have count := balanced.count
  rw [free] at chain count
  have cell := balanced.inside bufctl (free ▸ List.mem_cons_self)
  have distinct := (List.nodup_cons.mp chain.nodup).2
  have left : ∀ b, b ∉ rest ↔ b = bufctl ∨ b ∉ g.avail slab := by
    intro b
    rw [free, List.mem_cons]
    by_cases same : b = bufctl
    · simp [same, (List.nodup_cons.mp distinct).1]
    · simp [same]
  have outside := (List.nodup_cons.mp carved.nodup).1
  refine holds.update member rfl rfl rfl rfl (fun other different => Function.update_of_ne different _ _)
    (fun x away => ?_) (fun ptr away => Function.update_of_ne (away bufctl cell).symm _ _)
    ⟨chain.pop, fun b inside => ?_, ?_, fun b inside out => ?_, fun b inside out => ?_⟩ (fun ptr => ?_)
    (List.nodup_cons.mpr ⟨holds.not_handed member (free ▸ List.mem_cons_self), holds.once⟩)
  · obtain ⟨notHead, notCell⟩ := not_or.mp (List.mem_cons.not.mp away)
    simp only [State.took]
    rw [Function.update_of_ne (ne_of_mem_of_not_mem cell notCell).symm, Function.update_of_ne notHead]
  · exact balanced.inside b (free ▸ List.mem_cons_of_mem _ inside)
  · simp only [State.took, Function.update_self, List.length_cons] at count ⊢
    rw [UInt32.toNat_add, UInt32.toNat_one, Nat.mod_eq_of_lt (by omega)]
    omega
  · simp only [State.took]
    by_cases same : b = bufctl
    · rw [same, Function.update_self]
    · rw [Function.update_of_ne same, Function.update_of_ne (ne_of_mem_of_not_mem inside outside)]
      exact balanced.owner b inside (((left b).mp out).resolve_left same)
  · change Function.update s.origin (s.objectOf c bufctl) (some (slab, bufctl)) (s.objectOf c b) = some (slab, b)
    by_cases same : b = bufctl
    · rw [same, Function.update_self]
    · rw [Function.update_of_ne fun both => same (carved.single b inside bufctl cell both)]
      exact balanced.origin b inside (((left b).mp out).resolve_left same)
  · rw [List.mem_cons, holds.account]
    constructor
    · rintro (rfl | ⟨other, inside, b, own, out, same⟩)
      · exact .inl ⟨bufctl, cell, (left bufctl).mpr (.inl rfl), rfl⟩
      · by_cases here : other = slab
        · subst here
          exact .inl ⟨b, own, (left b).mpr (.inr out), same⟩
        · exact .inr ⟨other, inside, here, b, own, out, same⟩
    · rintro (⟨b, own, out, same⟩ | ⟨other, inside, _, b, own, out, same⟩)
      · rcases (left b).mp out with rfl | old
        · exact .inl same.symm
        · exact .inr ⟨slab, member, b, own, old, same⟩
      · exact .inr ⟨other, inside, b, own, out, same⟩

/-- The slab after a buffer is given back. -/
def State.gave (s : State) (slab bufctl : Nat) : State :=
  { s with
    word := slistAdd s.word (bufctlsHead slab) bufctl
    refs := Function.update s.refs slab (s.refs slab - 1) }

theorem Holds.refs_pos (holds : Holds c s g handed) (member : slab ∈ s.made) (cell : bufctl ∈ g.cells slab)
    (out : bufctl ∉ g.avail slab) : 0 < (s.refs slab).toNat := by
  have balanced := holds.balanced slab member
  have distinct := (List.nodup_cons.mp balanced.chain.nodup).2
  have bound := (List.subperm_of_subset (List.nodup_cons.mpr ⟨out, distinct⟩)
    (List.cons_subset.mpr ⟨cell, balanced.inside⟩)).length_le
  have number := (holds.carved slab member).number
  have count := balanced.count
  rw [List.length_cons] at bound
  omega

theorem slabPutObject_eq (holds : Holds c s g handed) (member : slab ∈ s.made) (cell : bufctl ∈ g.cells slab)
    (out : bufctl ∉ g.avail slab) : slabPutObject s slab bufctl = s.gave slab bufctl := by
  have positive := holds.refs_pos member cell out
  have nonzero : s.refs slab ≠ 0 := by
    intro zero
    simp [zero] at positive
  rw [slabPutObject, if_pos nonzero]
  rfl

theorem Holds.give (holds : Holds c s g handed) (member : slab ∈ s.made) (cell : bufctl ∈ g.cells slab)
    (out : bufctl ∉ g.avail slab) :
    Holds c (s.gave slab bufctl) { g with avail := Function.update g.avail slab (bufctl :: g.avail slab) }
      (handed.erase (s.objectOf c bufctl)) := by
  have carved := holds.carved slab member
  have balanced := holds.balanced slab member
  have positive := holds.refs_pos member cell out
  have outside := (List.nodup_cons.mp carved.nodup).1
  have fresh : bufctl ∉ bufctlsHead slab :: g.avail slab :=
    List.not_mem_cons_of_ne_of_not_mem (ne_of_mem_of_not_mem cell outside) out
  refine holds.update member rfl rfl rfl rfl (fun other different => Function.update_of_ne different _ _)
    (fun x away => ?_) (fun _ _ => rfl) ⟨balanced.chain.push fresh, fun b inside => ?_, ?_, fun b inside kept => ?_,
      fun b inside kept => balanced.origin b inside (not_or.mp (List.mem_cons.not.mp kept)).2⟩ (fun ptr => ?_)
    (holds.once.erase _)
  · obtain ⟨notHead, notCell⟩ := not_or.mp (List.mem_cons.not.mp away)
    simp only [State.gave, slistAdd]
    rw [Function.update_of_ne notHead, Function.update_of_ne (ne_of_mem_of_not_mem cell notCell).symm]
  · rcases List.mem_cons.mp inside with rfl | old
    · exact cell
    · exact balanced.inside b old
  · have count := balanced.count
    simp only [State.gave, Function.update_self, List.length_cons]
    rw [UInt32.toNat_sub_of_le _ _ (UInt32.le_iff_toNat_le.mpr
      (show (1 : UInt32).toNat ≤ (s.refs slab).toNat from positive)), UInt32.toNat_one]
    omega
  · obtain ⟨other, old⟩ := not_or.mp (List.mem_cons.not.mp kept)
    simp only [State.gave, slistAdd]
    rw [Function.update_of_ne (ne_of_mem_of_not_mem inside outside), Function.update_of_ne other]
    exact balanced.owner b inside old
  · rw [holds.once.mem_erase_iff, holds.account]
    constructor
    · rintro ⟨different, other, inside, b, own, free, rfl⟩
      by_cases here : other = slab
      · subst here
        refine .inl ⟨b, own, List.not_mem_cons_of_ne_of_not_mem ?_ free, rfl⟩
        rintro rfl
        exact different rfl
      · exact .inr ⟨other, inside, here, b, own, free, rfl⟩
    · rintro (⟨b, own, free, rfl⟩ | ⟨other, inside, apart, b, own, free, rfl⟩)
      · obtain ⟨other, old⟩ := not_or.mp (List.mem_cons.not.mp free)
        exact ⟨fun same => other (carved.single b own bufctl cell same), slab, member, b, own, old, rfl⟩
      · exact ⟨fun same => apart (holds.object_inj inside member own cell same).1, other, inside, b, own, free, rfl⟩

theorem Holds.aside (holds : Holds c s g handed) (magic : Nat → UInt16) (stats : Stats) (locked : Bool) :
    Holds c { s with magic, stats, locked } g handed :=
  ⟨holds.shelved, holds.made, fun x inside => (holds.carved x inside).same rfl fun _ _ => rfl,
    fun x inside => (holds.balanced x inside).same rfl (fun _ _ => rfl) fun _ _ => rfl, holds.words, holds.objects,
    holds.located, holds.mapped, holds.account, holds.once⟩

/-- Sorting moves slabs between the lists only, and afterwards each is where it belongs. -/
theorem Holds.sort (holds : Holds c s g handed) (served : 0 < c.buffers) (enough : s.made.length < limit) :
    ∃ l' lists', cacheSort limit s = some { s with links := l' } ∧
      Holds c { s with links := l' } { g with lists := lists' } handed ∧
      Sorted { s with links := l' } { g with lists := lists' } := by
  obtain ⟨l', lists', ran, shelved, members⟩ := cacheSort_spec holds.shelved
    (fun list shelf x inside => (holds.made x).mpr ⟨list, shelf, inside⟩) (fun x inside => holds.single served inside)
    enough
  have sorted : ∀ list ∈ shelves, ∀ x ∈ lists' list, list = place s x :=
    fun list shelf x inside => ((members list shelf x).mp inside).2
  have uses : ∀ block, s.Uses c block → State.Uses { s with links := l' } c block := by
    rintro block (slab | ⟨external, xs, bufctl, ring, mapped, same⟩)
    · exact .inl slab
    · obtain rfl := ring.unique holds.shelved.map
      exact .inr ⟨external, _, bufctl, shelved.map, mapped, same⟩
  refine ⟨l', lists', ran, ⟨shelved, fun x => ?_, fun x inside => (holds.carved x inside).same rfl fun _ _ => rfl,
    fun x inside => (holds.balanced x inside).same rfl (fun _ _ => rfl) fun _ _ => rfl, holds.words,
      holds.objects, ?_, holds.mapped,
    holds.account, holds.once⟩, sorted⟩
  · rw [holds.made]
    constructor
    · rintro ⟨list, shelf, inside⟩
      refine ⟨place s x, ?_, (members _ ?_ x).mpr ⟨⟨list, shelf, inside⟩, rfl⟩⟩
      all_goals
        unfold place
        split
        · simp
        · split <;> simp
    · rintro ⟨list, shelf, inside⟩
      exact ((members list shelf x).mp inside).1
  · intro x inside y inner
    obtain ⟨block, used, within⟩ := holds.located x inside y inner
    exact ⟨block, uses block used, within⟩

end Steps

end Hotarubi.Memory.Cache
