import Hotarubi.Memory.Kmalloc
import Hotarubi.Proofs.PhysmmDirect

/-! The pages that slabs take up. Nobody is handed a page of a live slab, so its
metadata changes only when a call handles the pages directly in front of it. -/

namespace Hotarubi.Memory.Kmalloc
open Physmm

/-- The address of a page in the direct map. -/
def directAddr (page : Nat) : Nat := kVMRangePhysMemBase.toNat + 4096 * page

/-- Some call has handled the pages directly in front of a page since the page
itself was taken. -/
def rewritten (page : Nat) : List (Physmm.State × Call) → Bool
  | [] => false
  | (m, call) :: earlier =>
    match call.range m with
    | none => rewritten page earlier
    | some (addr, len) =>
      if page = (addr / pageSize).toNat + len then true
      else if (addr / pageSize).toNat ≤ page ∧ page < (addr / pageSize).toNat + len then false
      else rewritten page earlier

/-- The pages of a slab, by the first of them. -/
structure Slot where
  cache : UInt64
  pages : Nat
  deriving DecidableEq, Repr

section Addresses

variable {m : Physmm.State} {page offset : Nat}

private theorem and_direct {high low : UInt64} (clear : ∀ k < 43, high.toBitVec.getLsbD k = false)
    (small : low.toNat < 2 ^ 43) :
    (high + low) &&& ~~~kVMRangePhysMemBase = (high &&& ~~~kVMRangePhysMemBase) ||| low := by
  have disjoint : high.toBitVec &&& low.toBitVec = 0#64 := by
    rw [BitVec.and_comm]
    exact Base.Mask.and_eq_zero_of_lt clear small
  have kept : low.toBitVec &&& ~~~kVMRangePhysMemBase.toBitVec = low.toBitVec :=
    Base.Mask.and_not_eq_self (Base.Mask.and_eq_zero_of_lt physMemBase_clear small)
  apply UInt64.toBitVec_inj.mp
  rw [UInt64.toBitVec_and, UInt64.toBitVec_add, UInt64.toBitVec_or, UInt64.toBitVec_and, UInt64.toBitVec_not,
    BitVec.add_eq_or_of_and_eq_zero _ _ disjoint, BitVec.and_or_distrib_right, kept]

/-- The entry that the address of a slab's page selects: the page's own, unless the
page lies beyond the bytes of the bitmap or above 8 TiB. -/
private theorem getPageMap_direct (small : page < 2 ^ 32) (inside : offset < 4096) :
    getPageMap m (pa (UInt64.ofNat (directAddr page + offset))) =
      if page < m.memoryMapSize.toNat ∧ page < 2 ^ 31 then some page else none := by
  have size := m.memoryMapSize.toNat_lt
  have base := physMemBase_toNat
  have image := kernelBase_toNat
  have split (high : UInt64) (low : Nat) (clear : ∀ k < 43, high.toBitVec.getLsbD k = false) (bound : low < 2 ^ 43)
      (same : directAddr page + offset = high.toNat + low) :
      pa (UInt64.ofNat (directAddr page + offset)) = (high &&& ~~~kVMRangePhysMemBase) ||| UInt64.ofNat low := by
    have value : (UInt64.ofNat low).toNat = low := by
      rw [UInt64.toNat_ofNat']
      omega
    have sum : UInt64.ofNat (directAddr page + offset) = high + UInt64.ofNat low := by
      rw [same, UInt64.ofNat_add, UInt64.ofNat_toNat]
    rw [pa_lt, sum, and_direct clear (by rw [value]; exact bound)]
    rw [UInt64.toNat_ofNat', image]
    unfold directAddr
    omega
  by_cases low : page < 2 ^ 31
  · have physical : pa (UInt64.ofNat (directAddr page + offset)) = UInt64.ofNat (4096 * page + offset) := by
      rw [split kVMRangePhysMemBase (4096 * page + offset) (by decide) (by omega) (by unfold directAddr; omega)]
      simp
    have index : (UInt64.ofNat (4096 * page + offset) >>> pageShift).toNat = page := by
      rw [shift_page, UInt64.toNat_ofNat']
      omega
    rw [physical, getPageMap, index]
    simp only [UInt64.lt_iff_toNat_lt, index, UInt32.toNat_toUInt64, low, and_true]
  · have physical : pa (UInt64.ofNat (directAddr page + offset)) =
        0x100000000000 ||| UInt64.ofNat (4096 * (page - 2 ^ 31) + offset) := by
      rw [split 0xffff900000000000 (4096 * (page - 2 ^ 31) + offset) (by decide) (by omega)
        (by rw [show (0xffff900000000000 : UInt64).toNat = 0xffff900000000000 from rfl]; unfold directAddr; omega)]
      rfl
    have large : 2 ^ 44 ≤ (0x100000000000 ||| UInt64.ofNat (4096 * (page - 2 ^ 31) + offset)).toNat := by
      rw [UInt64.toNat_or]
      exact Nat.left_le_or
    rw [physical, getPageMap, if_neg, if_neg]
    · omega
    · rw [UInt64.lt_iff_toNat_lt, shift_page, UInt32.toNat_toUInt64]
      omega

end Addresses

/-- The entry of a slab's first page: it names the cache until the pages in front
of it are handled. -/
def Labelled (m : Pages) (page : Nat) (cache : UInt64) : Prop :=
  if rewritten page m.calls then
    (m.physmm.pageMaps page).flags &&& kSlab = 0 ∨ (m.physmm.pageMaps page).link.next = m.physmm.linkAddr page
  else (m.physmm.pageMaps page).flags &&& kSlab ≠ 0 ∧ (m.physmm.pageMaps page).link.next = cache

/-- The pages of the slabs and those lent to others are all in use, and no page is
both or belongs to two slabs. -/
structure Booked (boot : Physmm.State) (m : Pages) (lent : Nat → Prop) (slots : Nat → Option Slot) : Prop where
  direct : m.physmm.Direct
  layout : SameLayout boot m.physmm
  sound : m.physmm.Sound
  first : m.physmm.used 0 = true
  lends : ∀ i, lent i → i < m.physmm.mapBits ∧ m.physmm.used i = true
  inside : ∀ page slot, slots page = some slot →
    0 < page ∧ page < m.physmm.mapBits ∧ 0 < slot.pages ∧ page + slot.pages ≤ m.physmm.mapBits + 1
  taken : ∀ page slot i, slots page = some slot → page ≤ i → i < page + slot.pages → i < m.physmm.mapBits →
    m.physmm.used i = true ∧ ¬ lent i
  apart : ∀ page slot behind other, slots page = some slot → slots behind = some other → page < behind →
    page + slot.pages ≤ behind
  labels : ∀ page slot, slots page = some slot → page < m.physmm.memoryMapSize.toNat → page < 2 ^ 31 →
    Labelled m page slot.cache

/-- The pages lent to others after one of them has made a call. -/
def lentAfter (m : Physmm.State) (call : Call) (lent : Nat → Prop) (i : Nat) : Prop :=
  match call.range m with
  | none => lent i
  | some (addr, len) =>
    if (addr / pageSize).toNat ≤ i ∧ i < (addr / pageSize).toNat + len ∧ i < m.mapBits then call.takes = true
    else lent i

/-- Others give back only pages that are lent to them. -/
def Entitled (m : Physmm.State) (lent : Nat → Prop) (call : Call) : Prop :=
  call.takes = false → ∀ addr len, call.range m = some (addr, len) → ∀ i, (addr / pageSize).toNat ≤ i →
    i < (addr / pageSize).toNat + len → i < m.mapBits → lent i

section Booking

variable {boot : Physmm.State} {m m1 : Pages} {lent lent' : Nat → Prop} {slots : Nat → Option Slot}
  {call : Call} {page n : Nat}
  {cache ptr : UInt64}

private theorem unusedPage_slab : unusedPage.flags &&& kSlab = 0 := by decide

private theorem exec_physmm (m : Pages) (call : Call) : (m.exec call).2.physmm = (call.exec m.physmm).2 := rfl

/-- A call outside the slabs at most rewrites the entry of the slab behind it. -/
theorem Labelled.exec (labelled : Labelled m page cache) (direct : m.physmm.Direct)
    (clear : ∀ addr len, call.range m.physmm = some (addr, len) →
      ¬ ((addr / pageSize).toNat ≤ page ∧ page < (addr / pageSize).toNat + len)) :
    Labelled (m.exec call).2 page cache := by
  have layout := call.exec_layout m.physmm
  have entry := call.exec_pageMaps m.physmm page
  have link : (call.exec m.physmm).2.linkAddr page = m.physmm.linkAddr page := by
    simp only [State.linkAddr, layout.array]
  unfold Labelled at labelled ⊢
  rw [exec_physmm, link]
  change if rewritten page ((m.physmm, call) :: m.calls) = true then _ else _
  rw [rewritten]
  cases ranged : call.range m.physmm with
  | none =>
    simp only [Call.visits, ranged, List.not_mem_nil, if_false] at entry
    rw [entry]
    exact labelled
  | some range =>
    obtain ⟨addr, len⟩ := range
    have outside := clear addr len ranged
    simp only [Call.mem_visits direct ranged] at entry
    by_cases behind : page = (addr / pageSize).toNat + len
    · rw [if_pos (by omega)] at entry
      simp only [entry, if_pos behind, if_true]
      cases call with
      | allocPage flags => exact .inr rfl
      | allocPageRange count flags => exact .inr rfl
      | freePage ptr => exact .inl unusedPage_slab
      | freePageRange ptr count => exact .inl unusedPage_slab
    · rw [if_neg (by omega)] at entry
      simp only [entry, if_neg behind, if_neg outside]
      exact labelled

/-- A call that keeps off the slabs. -/
theorem Booked.exec (booked : Booked boot m lent slots)
    (clear : ∀ addr len, call.range m.physmm = some (addr, len) → ∀ page slot i, slots page = some slot → page ≤ i →
      i < page + slot.pages → i < m.physmm.mapBits → ¬ ((addr / pageSize).toNat ≤ i ∧ i < (addr / pageSize).toNat + len))
    (lends : ∀ i, lent' i → i < m.physmm.mapBits ∧ (call.exec m.physmm).2.used i = true ∧
      ∀ page slot, slots page = some slot → ¬ (page ≤ i ∧ i < page + slot.pages)) :
    Booked boot (m.exec call).2 lent' slots := by
  have layout := call.exec_layout m.physmm
  have bits : (m.exec call).2.physmm.mapBits = m.physmm.mapBits := layout.mapBits
  have used := call.exec_used m.physmm
  refine ⟨layout.base.trans booked.direct, booked.layout.trans layout, call.exec_sound booked.sound, ?_, ?_, ?_,
    ?_, booked.apart, ?_⟩
  · have zero := used 0
    rw [exec_physmm, zero]
    split
    next => exact booked.first
    next addr len ranged =>
      split
      next inside =>
        cases gives : call.takes with
        | true => rfl
        | false =>
          have := Call.range_give gives ranged
          omega
      next => exact booked.first
  · intro i lent
    rw [bits]
    exact ⟨(lends i lent).1, (lends i lent).2.1⟩
  · rw [bits]
    exact booked.inside
  · rw [bits]
    intro page slot i here low high inside
    refine ⟨?_, fun lent => (lends i lent).2.2 page slot here ⟨low, high⟩⟩
    rw [exec_physmm, used i]
    split
    next => exact (booked.taken page slot i here low high inside).1
    next addr len ranged =>
      rw [if_neg]
      · exact (booked.taken page slot i here low high inside).1
      · rintro ⟨above, below, _⟩
        exact clear addr len ranged page slot i here low high inside ⟨above, below⟩
  · intro page slot here low small
    rw [show (m.exec call).2.physmm.memoryMapSize = m.physmm.memoryMapSize from layout.size] at low
    have shape := booked.inside page slot here
    exact (booked.labels page slot here low small).exec booked.direct fun addr len ranged =>
      clear addr len ranged page slot page here (Nat.le_refl _) (by omega) shape.2.1

private theorem Booked.take_clear (booked : Booked boot m lent slots)
    (takes : call.takes = true) {addr : PhysAddr} {len : Nat}
    (ranged : call.range m.physmm = some (addr, len)) {i : Nat} (low : (addr / pageSize).toNat ≤ i)
    (high : i < (addr / pageSize).toNat + len) (inside : i < m.physmm.mapBits) : ¬ m.physmm.used i = true := by
  obtain ⟨page, _, rfl, _, _, _, free⟩ := Call.range_take booked.sound takes ranged
  rw [free i low high inside]
  exact Bool.false_ne_true

/-- The others call the page allocator. -/
theorem Booked.others (booked : Booked boot m lent slots) (entitled : Entitled m.physmm lent call) :
    Booked boot (m.exec call).2 (lentAfter m.physmm call lent) slots := by
  have used := call.exec_used m.physmm
  refine booked.exec (fun addr len ranged page slot i here low high inside within => ?_) fun i lends => ?_
  · obtain ⟨use, notLent⟩ := booked.taken page slot i here low high inside
    cases takes : call.takes with
    | true => exact booked.take_clear takes ranged within.1 within.2 inside use
    | false => exact notLent (entitled takes addr len ranged i within.1 within.2 inside)
  · have old (lent : lent i) (same : (call.exec m.physmm).2.used i = m.physmm.used i) :
        i < m.physmm.mapBits ∧ (call.exec m.physmm).2.used i = true ∧
          ∀ page slot, slots page = some slot → ¬ (page ≤ i ∧ i < page + slot.pages) := by
      obtain ⟨inside, use⟩ := booked.lends i lent
      exact ⟨inside, same.trans use, fun page slot here within =>
        (booked.taken page slot i here within.1 within.2 inside).2 lent⟩
    unfold lentAfter at lends
    specialize used i
    cases ranged : call.range m.physmm with
    | none =>
      simp only [ranged] at lends used
      exact old lends used
    | some range =>
      obtain ⟨addr, len⟩ := range
      simp only [ranged] at lends used
      split at lends
      next within =>
        rw [if_pos within] at used
        exact ⟨within.2.2, used.trans lends, fun page slot here here' =>
          booked.take_clear lends ranged within.1 within.2.1 within.2.2
            (booked.taken page slot i here here'.1 here'.2 within.2.2).1⟩
      next within =>
        rw [if_neg within] at used
        exact old lends used

theorem pageCount_toNat (whole : n % 4096 = 0) (modest : n < 2 ^ 32) : (pageCount n).toNat = n / 4096 := by
  rw [pageCount]
  simp only [whole, ne_eq, not_true_eq_false, if_false]
  rw [UInt32.toNat_ofNat']
  omega

/-- A granted backing: its pages were free, and the first of them is labelled as
the allocator labels it. -/
theorem Booked.back (booked : Booked boot m lent slots) (whole : n % 4096 = 0) (positive : 0 < n) (modest : n < 2 ^ 32)
    (granted : backingPageAlloc n m = (some ptr, m1)) :
    ∃ page, ptr = UInt64.ofNat (directAddr page) ∧ page < 2 ^ 32 ∧ Booked boot m1 lent slots ∧
      m1.physmm.mapBits = m.physmm.mapBits ∧ 0 < page ∧ page < m1.physmm.mapBits ∧ page + n / 4096 ≤ m1.physmm.mapBits + 1 ∧
      (∀ i, page ≤ i → i < page + n / 4096 → i < m1.physmm.mapBits →
        m.physmm.used i = false ∧ m1.physmm.used i = true) ∧
      rewritten page m1.calls = false ∧ m1.physmm.pageMaps page = m1.physmm.flagged (kLocked ||| kSlab) page := by
  let call : Call := .allocPageRange (pageCount n) (kLocked ||| kSlab)
  have layout := call.exec_layout m.physmm
  have bits : (m.exec call).2.physmm.mapBits = m.physmm.mapBits := layout.mapBits
  obtain rfl : (m.exec call).2 = m1 := congrArg Prod.snd granted
  have answer : (call.exec m.physmm).1 = some ptr := congrArg Prod.fst granted
  obtain ⟨addr, len, ranged, _, rfl⟩ := call.granted answer
  obtain ⟨page, rfl, first, nonzero, inside, fits, free⟩ := Call.range_take booked.sound rfl ranged
  have length : len = n / 4096 := by
    have count := (Call.range_alloc rfl ranged).1
    rw [Call.pages, pageCount_toNat whole modest] at count
    omega
  have bound : page < 2 ^ 32 := Nat.lt_trans inside (mapBits_lt _)
  have used := call.exec_used m.physmm
  have maps := call.exec_pageMaps m.physmm page
  simp only [ranged, first] at used
  simp only [Call.mem_visits booked.direct ranged, first] at maps
  rw [if_pos (by omega)] at maps
  have pointer : UInt64.ofNat page * pageSize + m.physmm.memoryMapBase = UInt64.ofNat (directAddr page) := by
    rw [booked.direct, directAddr, UInt64.ofNat_add, UInt64.ofNat_mul, UInt64.ofNat_toNat, UInt64.add_comm, UInt64.mul_comm]
    rfl
  have clear := fun i low high inside => booked.take_clear rfl ranged (i := i) low high inside
  refine ⟨page, pointer, bound, booked.exec ?_ ?_, bits, nonzero, bits ▸ inside, ?_, ?_, ?_, ?_⟩
  · intro addr' len' ranged' start slot i here low high below within
    obtain ⟨rfl, rfl⟩ := Prod.mk.inj (Option.some.inj (ranged.symm.trans ranged'))
    exact clear i within.1 within.2 below (booked.taken start slot i here low high below).1
  · intro i borrowed
    obtain ⟨below, use⟩ := booked.lends i borrowed
    exact ⟨below, Call.exec_taken call m.physmm rfl use, fun start slot here within =>
      (booked.taken start slot i here within.1 within.2 below).2 borrowed⟩
  · rw [bits, ← length]
    exact fits
  · intro i low high below
    rw [bits] at below
    refine ⟨free i low (by omega) below, ?_⟩
    rw [exec_physmm, used i, if_pos (by omega)]
    rfl
  · change rewritten page ((m.physmm, call) :: m.calls) = false
    rw [rewritten, ranged]
    simp only [first]
    rw [if_neg (by omega), if_pos (by omega)]
  · rw [exec_physmm, maps, flagged_congr layout]
    rfl

/-- The entry of a page after it has been given to a cache. -/
def Pages.label (m : Pages) (page : Nat) (cache : UInt64) : Pages :=
  let entry := m.physmm.pageMaps page
  { m with physmm := { m.physmm with
      pageMaps := Function.update m.physmm.pageMaps page ⟨⟨entry.link.prev, cache⟩, entry.flags⟩ } }

private theorem associate_eq (small : page < 2 ^ 32) : associate cache (UInt64.ofNat (directAddr page)) m =
    if page < m.physmm.memoryMapSize.toNat ∧ page < 2 ^ 31 then m.label page cache else m := by
  have found := getPageMap_direct (m := m.physmm) small (show 0 < 4096 by decide)
  rw [Nat.add_zero] at found
  rw [associate, found]
  by_cases both : page < m.physmm.memoryMapSize.toNat ∧ page < 2 ^ 31
  · simp only [if_pos both]
    rfl
  · simp only [if_neg both]

theorem Booked.label (booked : Booked boot m lent slots) (vacant : slots page = none) (cache : UInt64) :
    Booked boot (m.label page cache) lent slots := by
  refine ⟨booked.direct, ⟨booked.layout.size, booked.layout.base, booked.layout.array⟩, booked.sound, booked.first,
    booked.lends, booked.inside, booked.taken, booked.apart, ?_⟩
  intro start slot here low small
  have other : start ≠ page := by
    rintro rfl
    rw [vacant] at here
    cases here
  have labelled := booked.labels start slot here low small
  unfold Labelled at labelled ⊢
  simp only [Pages.label, Function.update_of_ne other]
  exact labelled

/-- Pages that nobody has become the pages of a slab. -/
theorem Booked.insert (booked : Booked boot m lent slots) {slot : Slot} (nonzero : 0 < page)
    (inside : page < m.physmm.mapBits)
    (positive : 0 < slot.pages) (fits : page + slot.pages ≤ m.physmm.mapBits + 1)
    (fresh : ∀ i, page ≤ i → i < page + slot.pages → i < m.physmm.mapBits → m.physmm.used i = true ∧ ¬ lent i ∧
      ∀ start old, slots start = some old → ¬ (start ≤ i ∧ i < start + old.pages))
    (labelled : page < m.physmm.memoryMapSize.toNat → page < 2 ^ 31 → Labelled m page slot.cache) :
    Booked boot m lent (Function.update slots page (some slot)) := by
  have here : ∀ start old, Function.update slots page (some slot) start = some old →
      start = page ∧ old = slot ∨ start ≠ page ∧ slots start = some old := by
    intro start old found
    by_cases same : start = page
    · subst same
      rw [Function.update_self] at found
      exact .inl ⟨rfl, (Option.some.inj found).symm⟩
    · rw [Function.update_of_ne same] at found
      exact .inr ⟨same, found⟩
  have clear : ∀ start old, slots start = some old → start + old.pages ≤ page ∨ page + slot.pages ≤ start := by
    intro start old found
    have shape := booked.inside start old found
    by_contra overlap
    exact (fresh (max start page) (by omega) (by omega) (by omega)).2.2 start old found ⟨by omega, by omega⟩
  refine ⟨booked.direct, booked.layout, booked.sound, booked.first, booked.lends, ?_, ?_, ?_, ?_⟩
  · intro start old found
    rcases here start old found with ⟨rfl, rfl⟩ | ⟨_, found⟩
    · exact ⟨nonzero, inside, positive, fits⟩
    · exact booked.inside start old found
  · intro start old i found low high below
    rcases here start old found with ⟨rfl, rfl⟩ | ⟨_, found⟩
    · exact ⟨(fresh i low high below).1, (fresh i low high below).2.1⟩
    · exact booked.taken start old i found low high below
  · intro start old behind other found found' order
    rcases here start old found with ⟨rfl, rfl⟩ | ⟨_, found⟩
    · rcases here behind other found' with ⟨rfl, _⟩ | ⟨_, found'⟩
      · omega
      · have shape := booked.inside behind other found'
        rcases clear behind other found' with before | after <;> omega
    · rcases here behind other found' with ⟨same, _⟩ | ⟨_, found'⟩
      · rcases clear start old found with before | after <;> omega
      · exact booked.apart start old behind other found found' order
  · intro start old found low small
    rcases here start old found with ⟨rfl, rfl⟩ | ⟨_, found⟩
    · exact labelled low small
    · exact booked.labels start old found low small

/-- A new slab: its first page names the cache. -/
theorem Booked.grow (booked : Booked boot m lent slots) (whole : n % 4096 = 0) (positive : 0 < n) (modest : n < 2 ^ 32)
    (granted : backingPageAlloc n m = (some ptr, m1)) (cache : UInt64) :
    ∃ page, ptr = UInt64.ofNat (directAddr page) ∧ page < 2 ^ 32 ∧ slots page = none ∧
      Booked boot (associate cache ptr m1) lent (Function.update slots page (some ⟨cache, n / 4096⟩)) := by
  obtain ⟨page, rfl, small, kept, bits, nonzero, inside, fits, fresh, same, entry⟩ :=
    booked.back whole positive modest granted
  have unused : ∀ i, page ≤ i → i < page + n / 4096 → i < m1.physmm.mapBits → m1.physmm.used i = true ∧ ¬ lent i ∧
      ∀ start old, slots start = some old → ¬ (start ≤ i ∧ i < start + old.pages) := by
    intro i low high below
    obtain ⟨free, use⟩ := fresh i low high below
    refine ⟨use, fun borrowed => ?_, fun start old here within => ?_⟩
    · rw [(booked.lends i borrowed).2] at free
      cases free
    · rw [(booked.taken start old i here within.1 within.2 (bits ▸ below)).1] at free
      cases free
  have vacant : slots page = none := by
    by_contra found
    obtain ⟨old, here⟩ := Option.ne_none_iff_exists'.mp found
    have shape := kept.inside page old here
    exact (unused page (Nat.le_refl _) (by omega) inside).2.2 page old here ⟨Nat.le_refl _, by omega⟩
  refine ⟨page, rfl, small, vacant, ?_⟩
  rw [associate_eq small]
  split
  next =>
    apply (kept.label vacant cache).insert nonzero inside (by change 0 < n / 4096; omega) fits unused
    intro _ _
    have named : (m1.label page cache).physmm.pageMaps page = ⟨⟨(m1.physmm.pageMaps page).link.prev, cache⟩,
        (m1.physmm.pageMaps page).flags⟩ := Function.update_self ..
    unfold Labelled
    rw [if_neg (by change ¬ rewritten page m1.calls = true; rw [same]; exact Bool.false_ne_true), named, entry]
    exact ⟨(by decide : (kLocked ||| kSlab) &&& kSlab ≠ 0), rfl⟩
  next outside =>
    exact kept.insert nonzero inside (by change 0 < n / 4096; omega) fits unused fun low bound =>
      absurd ⟨low, bound⟩ outside

theorem Booked.forget (booked : Booked boot m lent slots) (page : Nat) :
    Booked boot m lent (Function.update slots page none) := by
  have old : ∀ start slot, Function.update slots page none start = some slot → slots start = some slot := by
    intro start slot found
    by_cases same : start = page
    · rw [same, Function.update_self] at found
      cases found
    · rwa [Function.update_of_ne same] at found
  exact ⟨booked.direct, booked.layout, booked.sound, booked.first, booked.lends, fun start slot found =>
    booked.inside start slot (old _ _ found),
    fun start slot i found => booked.taken start slot i (old _ _ found),
    fun start slot behind other found found' => booked.apart start slot behind other (old _ _ found) (old _ _ found'),
    fun start slot found => booked.labels start slot (old _ _ found)⟩

private theorem dropOffset_direct (direct : m.physmm.Direct) (small : page < 2 ^ 32) :
    (dropOffset m.physmm (UInt64.ofNat (directAddr page)) / pageSize).toNat = page := by
  have base := physMemBase_toNat
  have value : (UInt64.ofNat (directAddr page)).toNat = directAddr page := by
    rw [UInt64.toNat_ofNat', directAddr, base]
    omega
  have above : UInt64.ofNat (directAddr page) ≥ m.physmm.memoryMapBase := by
    rw [ge_iff_le, UInt64.le_iff_toNat_le, value, direct, directAddr]
    omega
  rw [dropOffset, if_pos above, UInt64.toNat_div, UInt64.toNat_sub_of_le _ _ above, value, direct, directAddr, base,
    pageSize_toNat]
  omega

theorem Booked.release (booked : Booked boot m lent slots) (whole : n % 4096 = 0) (modest : n < 2 ^ 32)
    (here : slots page = some ⟨cache, n / 4096⟩) :
    Booked boot (backingPageFree (UInt64.ofNat (directAddr page)) n m) lent (Function.update slots page none) := by
  have shape := booked.inside page _ here
  have small := Nat.lt_trans shape.2.1 (mapBits_lt m.physmm)
  have others : ∀ start slot, Function.update slots page none start = some slot → start ≠ page ∧
    slots start = some slot := by
    intro start slot found
    by_cases same : start = page
    · rw [same, Function.update_self] at found
      cases found
    · rw [Function.update_of_ne same] at found
      exact ⟨same, found⟩
  have range : ∀ addr len,
      (Call.freePageRange (UInt64.ofNat (directAddr page)) (pageCount n)).range m.physmm = some (addr, len) →
      (addr / pageSize).toNat = page ∧ len ≤ n / 4096 := by
    intro addr len ranged
    have length := Call.freePageRange_length ranged
    rw [pageCount_toNat whole modest] at length
    obtain ⟨rfl, _⟩ := Call.range_freePageRange ranged
    have positive : 0 < n / 4096 := shape.2.2.1
    exact ⟨dropOffset_direct booked.direct small, by omega⟩
  apply (booked.forget page).exec
  · intro addr len ranged start slot i found low high inside within
    obtain ⟨first, length⟩ := range addr len ranged
    rw [first] at within
    obtain ⟨other, found⟩ := others start slot found
    rcases Nat.lt_or_gt_of_ne other with before | behind
    · have := booked.apart start slot page _ found here before
      omega
    · have apart := booked.apart page _ start slot here found behind
      change page + n / 4096 ≤ start at apart
      omega
  · intro i borrowed
    obtain ⟨inside, use⟩ := booked.lends i borrowed
    refine ⟨inside, ?_, fun start slot found within =>
      (booked.taken start slot i (others start slot found).2 within.1 within.2 inside).2 borrowed⟩
    rw [Call.exec_used]
    split
    next => exact use
    next addr len ranged =>
      obtain ⟨first, length⟩ := range addr len ranged
      rw [if_neg]
      · exact use
      · rw [first]
        rintro ⟨low, high, _⟩
        exact (booked.taken page _ i here low (by change i < page + n / 4096; omega) inside).2 borrowed

/-- `get_cache` finds the cache of an address in the first page of a slab exactly
when the page has an entry that it can reach and that nobody has rewritten. -/
theorem Booked.getCache_iff (booked : Booked boot m lent slots) {slot : Slot} (here : slots page = some slot) {offset : Nat}
    (within : offset < 4096) (real : slot.cache ≠ 0) (elsewhere : boot.linkAddr page ≠ slot.cache) :
    getCache m.physmm (UInt64.ofNat (directAddr page + offset)) = slot.cache ↔
      page < m.physmm.memoryMapSize.toNat ∧ page < 2 ^ 31 ∧ rewritten page m.calls = false := by
  have shape := booked.inside page slot here
  have small := Nat.lt_trans shape.2.1 (mapBits_lt m.physmm)
  have nonzero : UInt64.ofNat (directAddr page + offset) ≠ 0 := by
    intro zero
    have value := congrArg UInt64.toNat zero
    rw [UInt64.toNat_ofNat', directAddr, physMemBase_toNat,
      UInt64.toNat_zero] at value
    omega
  rw [getCache, if_pos nonzero, getPageMap_direct small within]
  by_cases low : page < m.physmm.memoryMapSize.toNat ∧ page < 2 ^ 31
  · have labelled := booked.labels page slot here low.1 low.2
    rw [if_pos low]
    simp only [low, true_and]
    unfold Labelled at labelled
    cases dirty : rewritten page m.calls with
    | false =>
      rw [dirty, if_neg Bool.false_ne_true] at labelled
      rw [if_pos labelled.1]
      simp [labelled.2]
    | true =>
      rw [dirty, if_pos rfl] at labelled
      simp only [Bool.true_eq_false, iff_false]
      rcases labelled with plain | lost
      · rw [if_neg (not_not.mpr plain)]
        exact real.symm
      · split
        · rw [lost, State.linkAddr, booked.layout.array]
          exact elsewhere
        · exact real.symm
  · rw [if_neg low]
    refine iff_of_false real.symm fun all => low ⟨all.1, all.2.1⟩

/-- Where `get_cache` does not find the cache of an address in the first page of a
slab, it finds no cache. -/
theorem Booked.getCache_cases (booked : Booked boot m lent slots) {slot : Slot} (here : slots page = some slot)
    {offset : Nat} (within : offset < 4096) :
    getCache m.physmm (UInt64.ofNat (directAddr page + offset)) = slot.cache ∨
      getCache m.physmm (UInt64.ofNat (directAddr page + offset)) = 0 ∨
      getCache m.physmm (UInt64.ofNat (directAddr page + offset)) = boot.linkAddr page := by
  have small := Nat.lt_trans (booked.inside page slot here).2.1 (mapBits_lt m.physmm)
  rw [getCache, getPageMap_direct small within]
  split
  next =>
    by_cases low : page < m.physmm.memoryMapSize.toNat ∧ page < 2 ^ 31
    · have labelled := booked.labels page slot here low.1 low.2
      rw [if_pos low]
      simp only
      split
      next slab =>
        unfold Labelled at labelled
        split at labelled
        next =>
          rw [State.linkAddr, booked.layout.array] at labelled
          exact .inr (.inr (labelled.resolve_left slab))
        next => exact .inl labelled.2
      next => exact .inr (.inl rfl)
    · rw [if_neg low]
      exact .inr (.inl rfl)
  next => exact .inr (.inl rfl)

end Booking

end Hotarubi.Memory.Kmalloc
