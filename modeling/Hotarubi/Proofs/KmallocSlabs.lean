import Hotarubi.Proofs.CacheGranted
import Hotarubi.Proofs.KmallocPages

/-! Caches on the page allocator: their slabs have pages of their own, so the
blocks for a new slab are apart from all that is in use. -/

namespace Hotarubi.Memory.Kmalloc
open Base Ring Cache Include

/-- What `_cache_init` makes of any arguments, for slabs of less than 4 GiB. -/
structure Sized (c : Config) : Prop where
  regular : c.Regular
  whole : c.allocSize % 4096 = 0
  positive : 0 < c.allocSize
  modest : c.allocSize < 2 ^ 32

theorem cacheInit_sized (size align : Nat) (checkOverflow : Bool)
    (modest : (cacheInit size align checkOverflow).allocSize < 2 ^ 32) : Sized (cacheInit size align checkOverflow) := by
  refine ⟨cacheInit_regular size align checkOverflow, ?_, ?_, modest⟩
  all_goals
    simp only [cacheInit, allocSizeFor, slabSize]
    omega

/-- The pages of a slab of the cache. -/
def slotOf (cache : UInt64) (c : Config) : Slot := ⟨cache, c.allocSize / 4096⟩

/-- The slabs of a cache have pages of their own, and its objects lie in them. -/
structure Backed (slots : Nat → Option Slot) (cache : UInt64) (c : Config) (s : Cache.State) : Prop where
  nodup : s.made.Nodup
  page : ∀ slab ∈ s.made, ∃ page, s.backing slab = directAddr page ∧ slots page = some (slotOf cache c)
  single : ∀ slab ∈ s.made, ∀ other ∈ s.made, s.backing slab = s.backing other → slab = other
  origin : ∀ object slab bufctl, s.origin object = some (slab, bufctl) →
    slab ∈ s.made ∧ ∃ i < c.buffers, object = s.backing slab + c.bufferSize * i

/-- The slabs there are keep their pages. -/
def Extends (slots slots' : Nat → Option Slot) : Prop := ∀ page slot, slots page = some slot → slots' page = some slot

theorem Extends.refl (slots : Nat → Option Slot) : Extends slots slots := fun _ _ here => here

theorem Extends.trans {slots slots1 slots2 : Nat → Option Slot} (first : Extends slots slots1)
    (second : Extends slots1 slots2) : Extends slots slots2 :=
  fun page slot here => second page slot (first page slot here)

theorem Extends.update {slots : Nat → Option Slot} {page : Nat} (vacant : slots page = none) (slot : Slot) :
    Extends slots (Function.update slots page (some slot)) := by
  intro other old here
  rw [Function.update_of_ne ?_]
  · exact here
  · rintro rfl
    rw [vacant] at here
    cases here

section Blocks

variable {boot : Physmm.State} {m : Pages} {lent : Nat → Prop} {slots slots' : Nat → Option Slot}
  {cache other : UInt64} {c d : Config}
  {s s' : Cache.State} {g g' : Ledger} {handed : List Nat} {object slab bufctl page : Nat}

theorem Backed.mono (backed : Backed slots cache c s) (more : Extends slots slots') : Backed slots' cache c s := by
  refine ⟨backed.nodup, fun slab member => ?_, backed.single, backed.origin⟩
  obtain ⟨page, address, here⟩ := backed.page slab member
  exact ⟨page, address, more page _ here⟩

theorem Booked.blocks_apart (booked : Booked boot m lent slots) {one two : Slot} {page behind : Nat}
    (here : slots page = some one) (there : slots behind = some two) (different : page ≠ behind) :
    Block.Apart ⟨directAddr page, 4096 * one.pages⟩ ⟨directAddr behind, 4096 * two.pages⟩ := by
  unfold Block.Apart directAddr
  rcases Nat.lt_or_gt_of_ne different with before | after
  · have := booked.apart page one behind two here there before
    left
    change _ + 4096 * page + 4096 * one.pages ≤ _ + 4096 * behind
    omega
  · have := booked.apart behind two page one there here after
    right
    change _ + 4096 * behind + 4096 * two.pages ≤ _ + 4096 * page
    omega

theorem Backed.few (backed : Backed slots cache c s) (booked : Booked boot m lent slots) : s.made.length < 2 ^ 32 := by
  have inside : ∀ slab ∈ s.made, s.backing slab ∈ (List.range m.physmm.mapBits).map directAddr := by
    intro slab member
    obtain ⟨page, address, here⟩ := backed.page slab member
    exact List.mem_map.mpr ⟨page, List.mem_range.mpr (booked.inside page _ here).2.1, address.symm⟩
  have distinct : (s.made.map s.backing).Nodup := List.Nodup.map_on
    (fun slab member other member' same => backed.single slab member other member' same) backed.nodup
  have bound := (List.subperm_of_subset distinct (fun x member => by
    obtain ⟨slab, made, rfl⟩ := List.mem_map.mp member
    exact inside slab made)).length_le
  rw [List.length_map, List.length_map, List.length_range] at bound
  exact Nat.lt_of_le_of_lt bound (Physmm.mapBits_lt _)

theorem handed_inside (kept : Kept c s g handed) (backed : Backed slots cache c s) (sized : Sized c)
    (taken : object ∈ handed) : ∃ slab i page, slab ∈ s.made ∧ i < c.buffers ∧ slots page = some (slotOf cache c) ∧
      s.backing slab = directAddr page ∧ object = directAddr page + c.bufferSize * i ∧
      c.bufferSize * i + c.bufferSize ≤ c.allocSize := by
  obtain ⟨slab, bufctl, origin⟩ := kept.origin taken
  obtain ⟨member, i, bound, rfl⟩ := backed.origin object slab bufctl origin
  obtain ⟨page, address, here⟩ := backed.page slab member
  have whole := buffer_lt sized.regular bound
  rw [Nat.mul_add_one] at whole
  exact ⟨slab, i, page, member, bound, here, address, by rw [address], by omega⟩

theorem Sized.pages (sized : Sized c) : 4096 * (slotOf cache c).pages = c.allocSize := by
  have := sized.whole
  change 4096 * (c.allocSize / 4096) = c.allocSize
  omega

/-- Objects that are handed out share no address. -/
theorem handed_apart (kept : Kept c s g handed) (backed : Backed slots cache c s) (booked : Booked boot m lent slots)
    (sized : Sized c) {x y : Nat} (left : x ∈ handed) (right : y ∈ handed) (different : x ≠ y) :
    Block.Apart ⟨x, c.bufferSize⟩ ⟨y, c.bufferSize⟩ := by
  refine kept.apart sized.regular (fun slab made other made' distinct => ?_) left right different
  obtain ⟨page, address, here⟩ := backed.page slab made
  obtain ⟨page', address', here'⟩ := backed.page other made'
  have apart := booked.blocks_apart here here' fun same =>
    distinct (backed.single slab made other made' (by rw [address, address', same]))
  rwa [sized.pages, ← address, ← address'] at apart

theorem handed_apart_page (kept : Kept c s g handed) (backed : Backed slots cache c s) (booked : Booked boot m lent slots)
    (sized : Sized c) (taken : object ∈ handed) {slot : Slot} (there : slots page = some slot)
    (foreign : slot.cache ≠ cache) :
    Block.Apart ⟨directAddr page, 4096 * slot.pages⟩ ⟨object, c.bufferSize⟩ := by
  obtain ⟨slab, i, own, member, _, here, address, rfl, fits⟩ := handed_inside kept backed sized taken
  have different : page ≠ own := by
    rintro rfl
    rw [here] at there
    cases there
    exact foreign rfl
  have apart := booked.blocks_apart there here different
  have whole := sized.whole
  unfold Block.Apart slotOf at apart
  unfold Block.Apart
  simp only at apart ⊢
  omega

/-- A cache after it has handed out an object of an old slab or of a new one. -/
theorem Backed.source {σ : Type} {supply : Supply σ} {a b : σ} (backed : Backed slots cache c s)
    (kept : Kept c s' g' (object :: handed)) (got : Got s s' a b g g' object slab bufctl)
    (source : Source c supply s s' a b g g' slab) (more : Extends slots slots')
    (granted : slab ∉ s.made → ∀ backing bufctls, Grows c supply a backing slab bufctls b →
      ∃ page, backing = directAddr page ∧ slots page = none ∧ slots' page = some (slotOf cache c)) :
    Backed slots' cache c s' := by
  have origin (old : ∀ x ∈ s.made, x ∈ s'.made ∧ s'.backing x = s.backing x) (thing x bufctl' : Nat)
      (named : s'.origin thing = some (x, bufctl')) :
      x ∈ s'.made ∧ ∃ i < c.buffers, thing = s'.backing x + c.bufferSize * i := by
    by_cases same : thing = object
    · subst same
      exact kept.place List.mem_cons_self named
    · rw [got.kept thing same] at named
      obtain ⟨member, i, bound, place⟩ := backed.origin thing x bufctl' named
      exact ⟨(old x member).1, i, bound, by rw [(old x member).2]; exact place⟩
  cases source with
  | old _ made backing _ =>
    refine ⟨made ▸ backed.nodup, ?_, ?_, origin fun x member => ⟨made ▸ member, congrFun backing x⟩⟩
    · rw [made, backing]
      exact (backed.mono more).page
    · rw [made, backing]
      exact backed.single
  | @new block bufctls noUsed noFree grows fresh unmade made backing _ =>
    obtain ⟨page, rfl, vacant, here⟩ := granted unmade block bufctls grows
    have other : ∀ x ∈ s.made, x ≠ slab := fun x member same => unmade (same ▸ member)
    have keeps : ∀ x ∈ s.made, s'.backing x = s.backing x := by
      intro x member
      rw [backing, Function.update_of_ne (other x member)]
    have own : s'.backing slab = directAddr page := by rw [backing, Function.update_self]
    have strange : ∀ x ∈ s.made, s.backing x ≠ directAddr page := by
      intro x member same
      obtain ⟨page', address, there⟩ := backed.page x member
      have equal : page' = page := by
        rw [address] at same
        unfold directAddr at same
        omega
      rw [equal, vacant] at there
      cases there
    refine ⟨?_, ?_, ?_, origin fun x member => ⟨made ▸ List.mem_cons_of_mem _ member, keeps x member⟩⟩
    · rw [made]
      exact List.nodup_cons.mpr ⟨unmade, backed.nodup⟩
    · rw [made]
      intro x member
      rcases List.mem_cons.mp member with rfl | member
      · exact ⟨page, own, here⟩
      · obtain ⟨page', address, there⟩ := backed.page x member
        exact ⟨page', (keeps x member).trans address, more page' _ there⟩
    · rw [made]
      intro x member y member' same
      rcases List.mem_cons.mp member with first | inside
      · rcases List.mem_cons.mp member' with second | inside'
        · exact first.trans second.symm
        · rw [first, own, keeps y inside'] at same
          exact absurd same.symm (strange y inside')
      · rcases List.mem_cons.mp member' with second | inside'
        · rw [second, own, keeps x inside] at same
          exact absurd same (strange x inside)
        · rw [keeps x inside, keeps y inside'] at same
          exact backed.single x inside y inside' same

theorem Booked.granted (booked : Booked boot m lent slots) (sized : Sized c) {backing : Nat} {m1 m2 : Pages}
    (backed : (pageSupply cache).slabAlloc c.allocSize m = some (some backing, m1))
    (associated : (pageSupply cache).associate (some backing) m1 = some m2) :
    ∃ page, backing = directAddr page ∧ slots page = none ∧
      Booked boot m2 lent (Function.update slots page (some (slotOf cache c))) := by
  obtain ⟨⟨answer, rest⟩, given⟩ : ∃ result, backingPageAlloc c.allocSize m = result := ⟨_, rfl⟩
  simp only [pageSupply, given, Option.some.injEq, Prod.mk.injEq] at backed associated
  obtain ⟨address, rfl⟩ := backed
  obtain ⟨ptr, rfl, rfl⟩ := Option.map_eq_some_iff.mp address
  obtain ⟨page, rfl, small, vacant, kept⟩ := booked.grow sized.whole sized.positive sized.modest given cache
  have value : (UInt64.ofNat (directAddr page)).toNat = directAddr page := by
    rw [UInt64.toNat_ofNat', directAddr, physMemBase_toNat]
    omega
  refine ⟨page, value, vacant, ?_⟩
  rw [← associated]
  simpa only [Option.getD_some, UInt64.ofNat_toNat, slotOf] using kept

/-- A cache in use: its own invariant, and the pages of its slabs. -/
structure Serving (slots : Nat → Option Slot) (cache : UInt64) (c : Config) (s : Cache.State)
    (handed : List Nat) : Prop where
  kept : ∃ g, Kept c s g handed
  backed : Backed slots cache c s

theorem Grows.inner {σ : Type} {supply : Supply σ} {a b : σ} {backing : Nat} {bufctls : List Nat}
    (compact : c.compact = true)
    (grows : Grows c supply a backing slab bufctls b) :
    ∃ a1, supply.slabAlloc c.allocSize a = some (some backing, a1) ∧ supply.associate (some backing) a1 = some b := by
  have gets_same : ∀ {left i : Nat} {a b : σ} {bufctls : List Nat}, Gets c supply backing left i a bufctls b → b = a := by
    intro left i a b bufctls gets
    induction gets with
    | none => rfl
    | next here _ ih =>
      rw [bufctlFor, if_pos compact] at here
      cases here
      exact ih
  obtain ⟨a1, a2, a3, backed, associated, own, gets⟩ := grows
  rw [slabFor, if_pos compact] at own
  cases own
  exact ⟨a1, backed, by rw [gets_same gets]; exact associated⟩

/-- The page allocator is all the supply that a cache with inline descriptors needs. -/
theorem Backed.supplied {limit : Nat} {answer : Option Nat} {m' : Pages} (backed : Backed slots cache c s)
    (booked : Booked boot m lent slots) (sized : Sized c) (compact : c.compact = true)
    (got : Cache.getObject limit c (pageSupply cache) s m = some (answer, s', m')) : Supplied c (pageSupply cache) s m := by
  have external : c.compact ≠ false := by
    rw [compact]
    exact nofun
  intro noUsed noFree
  obtain ⟨backing, slab, bufctls, m1, grows, _⟩ := getObject_granted (fun _ _ _ _ => True) sized.regular
    (fun backing m1 m2 answer m3 _ _ described => by
      rw [slabFor, if_pos compact] at described
      cases described
      exact ⟨_, rfl, trivial⟩)
    (fun backing slab done buffer m answer m1 _ found => by
      rw [bufctlFor, if_pos compact] at found
      cases found
      exact ⟨_, rfl, trivial⟩) noUsed noFree got
  refine ⟨backing, slab, bufctls, m1, grows, ?_, ?_⟩
  · simp [Config.blocks, compact]
  · intro block member used uses
    simp only [Config.blocks, compact, if_true, List.mem_singleton] at member
    obtain ⟨m2, given, associated⟩ := Grows.inner compact grows
    obtain ⟨page, rfl, vacant, booked'⟩ := booked.granted sized given associated
    rcases uses with ⟨old, made, rfl | ⟨outer, _⟩⟩ | ⟨outer, _⟩
    · obtain ⟨page', address, there⟩ := backed.page old made
      have different : page ≠ page' := by
        rintro rfl
        rw [vacant] at there
        cases there
      have apart := booked'.blocks_apart (Function.update_self ..)
        ((Function.update_of_ne different.symm _ _).trans there) different
      rw [sized.pages] at apart
      rw [member, address]
      exact apart
    · exact absurd outer external
    · exact absurd outer external

/-- `get_object` on a cache that carries its descriptors inline. -/
theorem Serving.get {limit : Nat} {answer : Option Nat} {m' : Pages} (serving : Serving slots cache c s handed)
    (booked : Booked boot m lent slots) (sized : Sized c) (compact : c.compact = true) (served : 0 < c.buffers)
    (enough : 2 ^ 65 ≤ limit) (got : Cache.getObject limit c (pageSupply cache) s m = some (answer, s', m')) :
    ∃ object slots', answer = some object ∧ object ∉ handed ∧ Booked boot m' lent slots' ∧ Extends slots slots' ∧
      Serving slots' cache c s' (object :: handed) := by
  obtain ⟨⟨g, kept⟩, backed⟩ := serving
  have few := backed.few booked
  obtain ⟨object, s1, m1, g', slab, bufctl, ran, kept', fresh, taken, source⟩ := getObject_spec kept sized.regular served
    (backed.supplied booked sized compact got) (show s.made.length + 1 < limit by omega)
  cases got.symm.trans ran
  by_cases old : slab ∈ s.made
  · have idle : m' = m := by
      cases source with
      | old same => exact same
      | new _ _ _ _ unmade => exact absurd old unmade
    subst idle
    exact ⟨object, slots, rfl, fresh, booked, .refl slots, ⟨g', kept'⟩,
      backed.source kept' taken source (.refl slots) fun unmade => absurd old unmade⟩
  · have page : ∃ page, slots page = none ∧ Booked boot m' lent (Function.update slots page (some (slotOf cache c))) ∧
        ∀ backing bufctls, Grows c (pageSupply cache) m backing slab bufctls m' → backing = directAddr page := by
      cases source with
      | old _ made => exact absurd (made ▸ taken.member) old
      | new _ _ grows =>
        obtain ⟨m2, given, associated⟩ := Grows.inner compact grows
        obtain ⟨page, rfl, vacant, booked'⟩ := booked.granted sized given associated
        exact ⟨page, vacant, booked', fun backing bufctls grows' => (grows'.unique grows).1⟩
    obtain ⟨page, vacant, booked', address⟩ := page
    have more := Extends.update vacant (slotOf cache c)
    exact ⟨object, _, rfl, fresh, booked', more, ⟨g', kept'⟩, backed.source kept' taken source more
      fun _ backing bufctls grows => ⟨page, address backing bufctls grows, vacant, Function.update_self ..⟩⟩

theorem Serving.put {limit : Nat} (serving : Serving slots cache c s handed) (booked : Booked boot m lent slots)
    (served : 0 < c.buffers) (few : c.buffers < 2 ^ 32) (enough : 2 ^ 65 ≤ limit) (taken : object ∈ handed)
    (put : Cache.putObject limit c s object = some s') : Serving slots cache c s' (handed.erase object) ∧
      s'.made = s.made ∧ ∀ xs, IsRing s'.links .objMap xs → IsRing s.links .objMap xs := by
  obtain ⟨⟨g, kept⟩, backed⟩ := serving
  have number := backed.few booked
  have loops : s.made.length * c.buffers < limit := by
    have := Nat.mul_le_mul (Nat.le_of_lt number) (Nat.le_of_lt few)
    omega
  obtain ⟨s1, g', slab, bufctl, ran, kept', back, backing, mapped⟩ := putObject_spec kept served taken loops
  cases put.symm.trans ran
  refine ⟨⟨⟨g', kept'⟩, back.made ▸ backed.nodup, ?_, ?_, ?_⟩, back.made, fun xs ring => ?_⟩
  · rw [back.made, backing]
    exact backed.page
  · rw [back.made, backing]
    exact backed.single
  · rw [back.kept, back.made, backing]
    exact backed.origin
  · rw [ring.unique kept'.holds.shelved.map, mapped]
    exact kept.holds.shelved.map

end Blocks

end Hotarubi.Memory.Kmalloc
