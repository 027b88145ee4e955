import Hotarubi.Proofs.PhysmmAccounting

/-! Clients of the page allocator and the pages they hold. The ghost ownership
map is kept in step with the bitmap over any interleaving of atomic calls. -/

namespace Hotarubi.Memory.Physmm
open Base Base.Bitmap

/-- The search and the map agree on its extent: either the number of pages fits
32 bits, or the books that `init` establishes are balanced. -/
def State.Sound (m : State) : Prop := m.memoryMapSize.toNat * 8 < 2 ^ 32 ∨ m.Accounted

theorem Call.exec_sound (call : Call) {m : State} (sound : m.Sound) : (call.exec m).2.Sound := by
  rcases sound with fits | balanced
  · exact .inl (by rw [(call.exec_layout m).size]; exact fits)
  · exact .inr (call.exec_accounted m balanced)

theorem exists_free {m : State} (balanced : m.Accounted) (some' : freePageCount m ≠ 0) :
    ∃ i < m.mapBits, m.used i = false := by
  have count := (freePageCount_eq balanced).2.2
  have positive : 0 < freePages m := by
    rw [← count, Nat.pos_iff_ne_zero]
    intro zero
    exact some' (UInt32.toNat_inj.mp (by simpa using zero))
  obtain ⟨i, member⟩ := Finset.card_pos.mp positive
  have := Finset.mem_filter.mp member
  exact ⟨i, by simpa using this.1, this.2⟩

/-- A page handed out by the single-page path is the lowest free page of the
map, and never page 0. -/
theorem allocPage_some {m : State} (sound : m.Sound) {flags : Flags} {ptr : UInt64}
    (granted : (allocPage m flags).1 = some ptr) :
    ∃ page, 0 < page ∧ page < m.mapBits ∧ m.used page = false ∧ (∀ i < page, m.used i = true) ∧
      ((ptr - m.memoryMapBase) / pageSize).toNat = page ∧
      ptr = UInt64.ofNat page * pageSize + m.memoryMapBase ∧
      ∀ i, (allocPage m flags).2.used i = (m.used i || decide (i = page)) := by
  have bits := (Call.allocPage flags).exec_used m
  obtain ⟨addr, len, ranged, takes, rfl⟩ := Call.granted (.allocPage flags) granted
  obtain ⟨rfl, enough, page, rfl, positive, searched, run, first⟩ := Call.range_alloc takes ranged
  have free : peekUsed m page = false := freeRun_one.mp run
  have earlier (i : Nat) (lower : i < page) : peekUsed m i = true := by
    rw [← Bool.not_eq_false]
    exact fun clear => first i lower (freeRun_one.mpr clear)
  have inside : page < m.mapBits := by
    rcases sound with fits | balanced
    · exact Nat.lt_of_lt_of_le searched (searched_le fits)
    · obtain ⟨i, bound, clear⟩ := exists_free balanced fun zero => by
        rw [zero] at enough
        cases enough
      by_contra beyond
      have used := earlier i (by omega)
      rw [peekUsed_inside bound, clear] at used
      cases used
  refine ⟨page, positive, inside, by rwa [← peekUsed_inside inside], fun i lower => ?_, ?_, rfl, fun i => ?_⟩
  · rw [← peekUsed_inside (by omega)]
    exact earlier i lower
  · rw [UInt64.add_sub_cancel, pageAddr_div searched]
  · have here := bits i
    simp only [ranged, pageAddr_div searched, Call.pages] at here
    rw [show (allocPage m flags).2 = ((Call.allocPage flags).exec m).2 from rfl, here]
    by_cases same : i = page
    · subst same
      simp [inside, Call.takes]
    · rw [if_neg (by omega)]
      simp [same]

/-- The number of pages that single-page allocation can find. -/
def spare (m : State) : Nat :=
  ((Finset.range m.mapBits).filter fun i => i < m.searched ∧ m.used i = false).card

theorem spare_pos {m : State} : 0 < spare m ↔ ∃ i < m.mapBits, i < m.searched ∧ m.used i = false := by
  rw [spare, Finset.card_pos]
  constructor
  · rintro ⟨i, member⟩
    obtain ⟨inside, found⟩ := Finset.mem_filter.mp member
    exact ⟨i, Finset.mem_range.mp inside, found⟩
  · rintro ⟨i, inside, found⟩
    exact ⟨i, Finset.mem_filter.mpr ⟨Finset.mem_range.mpr inside, found⟩⟩

/-- With balanced books `alloc_page` fails only when there is no page to find. -/
theorem allocPage_granted_iff {m : State} (balanced : m.Accounted) (first : m.used 0 = true) (flags : Flags) :
    (∃ ptr, (allocPage m flags).1 = some ptr) ↔ 0 < spare m := by
  rw [spare_pos]
  constructor
  · rintro ⟨ptr, granted⟩
    obtain ⟨page, positive, inside, free, earlier, _⟩ := allocPage_some (.inr balanced) granted
    refine ⟨page, inside, ?_, free⟩
    by_contra beyond
    have missing : (searchFirstFree m).1 = 0 := by
      rcases searchFirstFree_cases m with ⟨bit, below, clear, _⟩ | ⟨_, missing⟩
      · rw [peekUsed_inside (by omega), earlier bit (by omega)] at clear
        cases clear
      · exact missing
    simp [allocPage, missing] at granted
  · rintro ⟨i, inside, found, free⟩
    have some' : freePageCount m ≠ 0 := by
      intro zero
      have count := (freePageCount_eq balanced).2.2
      rw [zero, UInt32.toNat_zero] at count
      have empty := Finset.card_eq_zero.mp count.symm
      exact absurd (Finset.mem_filter.mpr ⟨Finset.mem_range.mpr inside, free⟩) (by rw [empty]; exact Finset.notMem_empty i)
    rcases searchFirstFree_cases m with ⟨bit, below, clear, _, address⟩ | ⟨all, _⟩
    · have positive : bit ≠ 0 := by
        rintro rfl
        rw [peekUsed_inside (by omega), first] at clear
        cases clear
      have nonzero : (searchFirstFree m).1 ≠ 0 := by
        rw [address, ne_eq, pageAddr_eq_zero below]
        exact positive
      exact ⟨_, by simp only [allocPage, some', nonzero, if_false]; rfl⟩
    · have used := all i found
      rw [peekUsed_inside inside, free] at used
      cases used

theorem allocPage_refused {m : State} {flags : Flags} (refused : (allocPage m flags).1 = none) :
    (allocPage m flags).2 = m := by
  unfold allocPage at refused ⊢
  split
  · rfl
  next some' =>
    rw [if_neg some'] at refused
    dsimp only at refused ⊢
    split
    · rfl
    next found =>
      rw [if_neg found] at refused
      cases refused

theorem allocPage_spare {m : State} (balanced : m.Accounted) (first : m.used 0 = true) {flags : Flags} {ptr : UInt64}
    (granted : (allocPage m flags).1 = some ptr) : spare (allocPage m flags).2 + 1 = spare m := by
  obtain ⟨page, _, inside, free, earlier, _, _, after⟩ := allocPage_some (.inr balanced) granted
  obtain ⟨i, _, found, clear⟩ := spare_pos.mp ((allocPage_granted_iff balanced first flags).mp ⟨ptr, granted⟩)
  have lowest : page ≤ i := by
    by_contra above
    rw [earlier i (by omega)] at clear
    cases clear
  have layout := (Call.allocPage flags).exec_layout m
  have bits : (allocPage m flags).2.mapBits = m.mapBits := layout.mapBits
  have searched : (allocPage m flags).2.searched = m.searched := by
    rw [State.searched, State.searched, mapWords_eq, mapWords_eq]
    exact congrArg (fun size : UInt32 => 32 * (size.toNat / 4)) layout.size
  have member : page ∈ (Finset.range m.mapBits).filter fun i => i < m.searched ∧ m.used i = false :=
    Finset.mem_filter.mpr ⟨Finset.mem_range.mpr inside, by omega, free⟩
  rw [spare, spare, ← Finset.card_erase_add_one member, bits, searched]
  congr 1
  refine congrArg Finset.card (Finset.ext fun k => ?_)
  simp only [Finset.mem_filter, Finset.mem_erase, Finset.mem_range, after, Bool.or_eq_false_iff, decide_eq_false_iff_not]
  tauto

/-- The page a pointer denotes once the base offset is removed. -/
def pageOf (m : State) (ptr : UInt64) : Nat := (dropOffset m ptr / pageSize).toNat

theorem pageOf_pos {m : State} {ptr : UInt64} (high : ¬ dropOffset m ptr < pageSize) : 0 < pageOf m ptr := by
  rw [UInt64.lt_iff_toNat_lt, pageSize_toNat] at high
  rw [pageOf, UInt64.toNat_div, pageSize_toNat]
  omega

inductive Event (κ : Type) where
  | alloc (client : κ) (flags : Flags)
  | free (client : κ) (page : UInt64)
  | freeRange (client : κ) (page : UInt64) (count : UInt32)

namespace Event
variable {κ : Type}

def call : Event κ → Call
  | .alloc _ flags => .allocPage flags
  | .free _ page => .freePage page
  | .freeRange _ page count => .freePageRange page count

def client : Event κ → κ
  | .alloc client _ | .free client _ | .freeRange client _ _ => client

/-- The pages an event gives back, going by its arguments alone. -/
def frees (m : State) : Event κ → Nat → Prop
  | .alloc _ _, _ => False
  | .free _ page, i => i = pageOf m page
  | .freeRange _ page count, i => pageOf m page ≤ i ∧ i < pageOf m page + max count.toNat 1

instance (m : State) (event : Event κ) : DecidablePred (event.frees m) :=
  fun i => match event with
    | .alloc _ _ => inferInstanceAs (Decidable False)
    | .free _ page => inferInstanceAs (Decidable (i = pageOf m page))
    | .freeRange _ page count =>
      inferInstanceAs (Decidable (pageOf m page ≤ i ∧ i < pageOf m page + max count.toNat 1))

/-- The page an event is granted. -/
def grants (m : State) (event : Event κ) : Option Nat :=
  (event.call.exec m).1.map fun ptr => ((ptr - m.memoryMapBase) / pageSize).toNat

def touches (m : State) (event : Event κ) (i : Nat) : Prop :=
  event.grants m = some i ∨ event.frees m i

private theorem range_frees {m : State} {event : Event κ} {addr : PhysAddr} {len i : Nat}
    (release : event.call.takes = false) (ranged : event.call.range m = some (addr, len))
    (low : (addr / pageSize).toNat ≤ i) (high : i < (addr / pageSize).toNat + len) :
    event.frees m i ∧ 0 < i := by
  cases event with
  | alloc client flags => cases release
  | free client page =>
    obtain ⟨rfl, rfl, kept, _⟩ := Call.range_freePage ranged
    have positive := pageOf_pos kept
    simp only [frees, pageOf] at positive ⊢
    omega
  | freeRange client page count =>
    have length := Call.freePageRange_length ranged
    obtain ⟨rfl, _, kept, _⟩ := Call.range_freePageRange ranged
    have positive := pageOf_pos kept
    simp only [frees, pageOf] at positive ⊢
    omega

end Event

/-- The bitmap together with the ghost map from pages to the clients holding them. -/
structure World (κ : Type) where
  map : State
  held : Nat → Option κ

namespace World
variable {κ : Type}

structure Valid (w : World κ) : Prop where
  sound : w.map.Sound
  first : w.map.used 0 = true
  held : ∀ i client, w.held i = some client → i < w.map.mapBits ∧ w.map.used i = true

theorem grants_cases {w : World κ} (valid : w.Valid) {event : Event κ} {page : Nat}
    (granted : event.grants w.map = some page) :
    0 < page ∧ page < w.map.mapBits ∧ w.map.used page = false ∧
      ∀ i, (event.call.exec w.map).2.used i = (w.map.used i || decide (i = page)) := by
  cases event with
  | alloc client flags =>
    obtain ⟨ptr, result, located⟩ := Option.map_eq_some_iff.mp granted
    obtain ⟨found, positive, inside, free, _, index, _, bits⟩ := allocPage_some valid.sound result
    have same : found = page := index.symm.trans located
    subst same
    exact ⟨positive, inside, free, bits⟩
  | free client page => simp [Event.grants, Event.call, Call.exec] at granted
  | freeRange client page count => simp [Event.grants, Event.call, Call.exec] at granted

private theorem used_of_no_grant {w : World κ} {event : Event κ} (none' : event.grants w.map = none) {i : Nat}
    (kept : ¬ (event.frees w.map i ∧ 0 < i)) : (event.call.exec w.map).2.used i = w.map.used i := by
  have bits := event.call.exec_used w.map i
  have effect := event.call.exec_eq w.map
  split at bits
  next => exact bits
  next addr len ranged =>
    rw [ranged] at effect
    cases takes : event.call.takes with
    | true => simp [Event.grants, effect, takes] at none'
    | false =>
      rw [bits, if_neg]
      intro ⟨low, high, _⟩
      exact kept (Event.range_frees takes ranged low high)

theorem start_valid {m : State} (sound : m.Sound) (first : m.used 0 = true) :
    (World.mk (κ := κ) m fun _ => none).Valid :=
  ⟨sound, first, fun _ _ held => by cases held⟩

variable [DecidableEq κ]

/-- Clients free only pages they hold. -/
def Allowed (w : World κ) (event : Event κ) : Prop :=
  ∀ i, event.frees w.map i → w.held i = some event.client

def next (w : World κ) (event : Event κ) : World κ where
  map := (event.call.exec w.map).2
  held i :=
    if event.grants w.map = some i then some event.client
    else if event.frees w.map i ∧ w.held i = some event.client then none
    else w.held i

/-- Every event of an interleaving is allowed when its turn comes. -/
def Permits : World κ → List (Event κ) → Prop
  | _, [] => True
  | w, event :: events => w.Allowed event ∧ (w.next event).Permits events

def run (w : World κ) (events : List (Event κ)) : World κ := events.foldl next w

/-- Some event of the interleaving allocates or frees page `i`. -/
def Touched : World κ → List (Event κ) → Nat → Prop
  | _, [], _ => False
  | w, event :: events, i => event.touches w.map i ∨ (w.next event).Touched events i

theorem next_used {w : World κ} (valid : w.Valid) {event : Event κ} {i : Nat}
    (untouched : ¬ event.touches w.map i) : (w.next event).map.used i = w.map.used i := by
  obtain ⟨notGranted, notFreed⟩ := not_or.mp untouched
  cases granted : event.grants w.map with
  | none => exact used_of_no_grant granted fun freed => notFreed freed.1
  | some page =>
    have different : i ≠ page := fun same => notGranted (same ▸ granted)
    have bit := (grants_cases valid granted).2.2.2 i
    exact bit.trans (by simp [different])

theorem next_valid {w : World κ} (valid : w.Valid) {event : Event κ} (allowed : w.Allowed event) :
    (w.next event).Valid := by
  have bound : (w.next event).map.mapBits = w.map.mapBits := (event.call.exec_layout w.map).mapBits
  refine ⟨event.call.exec_sound valid.sound, ?_, ?_⟩
  · cases granted : event.grants w.map with
    | none =>
      exact (used_of_no_grant granted fun freed => Nat.lt_irrefl 0 freed.2).trans valid.first
    | some page => exact ((grants_cases valid granted).2.2.2 0).trans (by simp [valid.first])
  · intro i client held
    rw [bound]
    simp only [next] at held
    split at held
    next granted =>
      obtain ⟨_, inside, _, bits⟩ := grants_cases valid granted
      exact ⟨inside, (bits i).trans (by simp)⟩
    next notGranted =>
      split at held
      next => cases held
      next keeps =>
        have notFreed : ¬ event.frees w.map i := fun freed => keeps ⟨freed, allowed i freed⟩
        have old := valid.held i client held
        exact ⟨old.1, (next_used valid (not_or.mpr ⟨notGranted, notFreed⟩)).trans old.2⟩

private theorem run_valid {w : World κ} (valid : w.Valid) {events : List (Event κ)} (permitted : w.Permits events) :
    (w.run events).Valid := by
  induction events generalizing w with
  | nil => exact valid
  | cons event events ih => exact ih (next_valid valid permitted.1) permitted.2

private theorem run_used {w : World κ} (valid : w.Valid) {events : List (Event κ)} (permitted : w.Permits events)
    {i : Nat} (untouched : ¬ w.Touched events i) : (w.run events).map.used i = w.map.used i := by
  induction events generalizing w with
  | nil => rfl
  | cons event events ih =>
    obtain ⟨first, rest⟩ := not_or.mp untouched
    exact (ih (next_valid valid permitted.1) permitted.2 rest).trans (next_used valid first)

end World

/-- No page is handed out twice. After any interleaving in which clients free
only what they hold, a page that `alloc_page` returns is a page of the map other
than page 0, was free, and is held by nobody; untouched pages keep their state. -/
theorem no_page_handed_out_twice {κ : Type} [DecidableEq κ] (m : State) (sound : m.Sound)
    (first : m.used 0 = true) (events : List (Event κ))
    (permitted : (World.mk m fun _ => none).Permits events) :
    let w := (World.mk m fun _ => none).run events
    (∀ flags ptr, (allocPage w.map flags).1 = some ptr →
      ∃ page, 1 ≤ page ∧ page < w.map.mapBits ∧
        ptr = UInt64.ofNat page * pageSize + w.map.memoryMapBase ∧
        w.map.used page = false ∧ w.held page = none) ∧
    ∀ i, ¬ (World.mk m fun _ => none).Touched events i → w.map.used i = m.used i := by
  have start := World.start_valid (κ := κ) sound first
  have valid := World.run_valid start permitted
  refine ⟨?_, fun i untouched => World.run_used start permitted untouched⟩
  intro flags ptr granted
  obtain ⟨page, positive, inside, free, _, _, pointer, _⟩ := allocPage_some valid.sound granted
  refine ⟨page, positive, inside, pointer, free, ?_⟩
  cases holder : ((World.mk m fun _ => none).run events).held page with
  | none => rfl
  | some client =>
    have used := (valid.held page client holder).2
    rw [free] at used
    cases used

theorem no_page_handed_out_twice_witness :
    let m := setMemoryMap [0xfffffff1, 0xffffffff] 61
    let events : List (Event Bool) := [.alloc true kActive, .alloc false kActive, .free true 0x1000, .alloc false kLocked]
    let w := (World.mk m fun _ => none).run events
    (∀ flags ptr, (allocPage w.map flags).1 = some ptr →
      ∃ page, 1 ≤ page ∧ page < w.map.mapBits ∧
        ptr = UInt64.ofNat page * pageSize + w.map.memoryMapBase ∧
        w.map.used page = false ∧ w.held page = none) ∧
    ∀ i, ¬ (World.mk m fun _ => none).Touched events i → w.map.used i = m.used i := by
  apply no_page_handed_out_twice _ (.inr (by decide +kernel)) (by decide +kernel) _
  refine ⟨nofun, nofun, ?_, nofun, trivial⟩
  intro i freed
  simp only [Event.frees] at freed
  subst freed
  decide +kernel

end Hotarubi.Memory.Physmm
