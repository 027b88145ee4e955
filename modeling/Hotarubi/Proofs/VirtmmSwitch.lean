import Mathlib.Data.List.Pairwise
import Hotarubi.Proofs.KmallocPages
import Hotarubi.Proofs.PhysmmReserved
import Hotarubi.Proofs.VirtmmSystem

/-! The switch to the kernel's own address space. The window of physical memory shows
the tables at the addresses they had before, moved by its base, so they stand for
the same space there. -/

namespace Hotarubi.Memory.Virtmm
open Base Radix

/-- What a processor reads through the tables below a root. Without a page it reads
nothing, which is a zero here. -/
def seen (mem : UInt64 → UInt64) (root : UInt64) (a : VirtAddr) : UInt64 :=
  match processorWalk mem root a with
  | none => 0
  | some (p, _) => mem p

/-- `init`. Up to the switch the tables of boot.S show physical memory where it is. -/
def init (s : State Physmm.State) (image : Image) (memoryUpperBound : PhysAddr) : Option (State Physmm.State) := do
  let s ← createSystemVm physmmSource s image memoryUpperBound
  some { s with
    mem := seen s.mem s.systemPml4
    cr3 := s.systemPml4
    physmm := Physmm.setPhysicalBaseOffset s.physmm kVMRangePhysMemBase }

/-- It panics where `_create_system_vm` does. -/
theorem init_isSome (s : State Physmm.State) (image : Image) (memoryUpperBound : PhysAddr) :
    (init s image memoryUpperBound).isSome = (createSystemVm physmmSource s image memoryUpperBound).isSome := by
  rw [init]
  cases createSystemVm physmmSource s image memoryUpperBound with
  | none => rfl
  | some after => rfl

/-- The leaf entries of an address space by page number. -/
abbrev Space := Nat → UInt64

/-- The entries `_create_system_vm` makes. -/
def systemSpace (image : Image) (memoryUpperBound : PhysAddr) : Space := fun n =>
  match (systemRegions image memoryUpperBound).find? fun r =>
      pageNumber r.vaddr ≤ n && n ≤ pageNumber r.vaddr + r.last with
  | none => 0
  | some r => (r.paddr + UInt64.ofNat (n - pageNumber r.vaddr) * pageSize) ||| (kPresent ||| r.flags)

section Created

variable {σ : Type} {pages : PageSource σ} {valid : σ → Prop} {live : σ → UInt64 → Prop} {s s' : State σ}
  {image : Image} {memoryUpperBound : PhysAddr}

private theorem covers_unique {regions : List Region} (apart : regions.Pairwise Region.Apart) {r q : Region} {w : VirtAddr}
    (member : r ∈ regions) (member' : q ∈ regions) (covered : r.Covers w) (covered' : q.Covers w) : r = q := by
  by_contra different
  have symmetric : Std.Symm Region.Apart := ⟨fun _ _ apart => apart.symm⟩
  have between := apart.forall member member' different
  unfold Region.Apart at between
  unfold Region.Covers at covered covered'
  omega

theorem systemSpace_covered (apart : (systemRegions image memoryUpperBound).Pairwise Region.Apart) {r : Region}
    {w : VirtAddr} (member : r ∈ systemRegions image memoryUpperBound) (covered : r.Covers w) :
    systemSpace image memoryUpperBound (pageNumber w) = r.entry w := by
  unfold systemSpace
  cases found : (systemRegions image memoryUpperBound).find? fun r =>
      pageNumber r.vaddr ≤ pageNumber w && pageNumber w ≤ pageNumber r.vaddr + r.last with
  | none =>
    have missing := List.find?_eq_none.mp found r member
    simp only [Bool.and_eq_true, decide_eq_true_eq] at missing
    exact absurd covered missing
  | some q =>
    have here := List.find?_some found
    simp only [Bool.and_eq_true, decide_eq_true_eq] at here
    obtain rfl := covers_unique apart member (List.mem_of_find?_eq_some found) covered here
    rfl

private theorem systemSpace_outside {w : VirtAddr} (outside : ∀ r ∈ systemRegions image memoryUpperBound, ¬ r.Covers w) :
    systemSpace image memoryUpperBound (pageNumber w) = 0 := by
  unfold systemSpace
  have none : (systemRegions image memoryUpperBound).find? (fun r =>
      pageNumber r.vaddr ≤ pageNumber w && pageNumber w ≤ pageNumber r.vaddr + r.last) = none := by
    apply List.find?_eq_none.mpr
    intro r member
    simp only [Bool.and_eq_true, decide_eq_true_eq]
    exact outside r member
  rw [none]

/-- The tables and the entries that the six calls leave. -/
theorem createSystemVm_entries (supply : Supply pages 0 valid live) (ready : valid s.physmm) (linked : image.Linked)
    (low : 0 < memoryUpperBound.toNat) (high : memoryUpperBound.toNat ≤ 2 ^ 46)
    (created : createSystemVm pages s image memoryUpperBound = some s') :
    Good 0 valid live s'.systemPml4 s' ∧
      ∀ w, pte 0 s'.mem s'.systemPml4 w = systemSpace image memoryUpperBound (pageNumber w) := by
  have sound := systemRegions_sound linked low high
  have apart := systemRegions_apart linked low high
  rw [createSystemVm_eq] at created
  obtain ⟨s0, started, mapped⟩ := Option.bind_eq_some_iff.mp created
  obtain ⟨good, empty⟩ := emptySpace_good supply ready started
  rw [← UInt64.add_zero s0.systemPml4] at mapped
  obtain ⟨good', same, entries, others⟩ := mapAll_spec supply (.inl rfl) sound apart good mapped
  rw [same.systemPml4]
  refine ⟨good', fun w => ?_⟩
  by_cases covered : ∃ r ∈ systemRegions image memoryUpperBound, r.Covers w
  · obtain ⟨r, member, covers⟩ := covered
    rw [entries r member w covers, systemSpace_covered apart member covers]
  · have outside : ∀ r ∈ systemRegions image memoryUpperBound, ¬ r.Covers w := fun r member covers =>
      covered ⟨r, member, covers⟩
    rw [others w outside, empty, systemSpace_outside outside]

theorem window_member :
    Region.mk kVMRangePhysMemBase 0 memoryUpperBound kWritable ∈ systemRegions image memoryUpperBound := by
  simp [systemRegions]

theorem window_contains (high : memoryUpperBound.toNat ≤ 2 ^ 46) {x : PhysAddr} (below : x < memoryUpperBound) :
    Region.Contains ⟨kVMRangePhysMemBase, 0, memoryUpperBound, kWritable⟩ (x + kVMRangePhysMemBase) := by
  have inside := UInt64.lt_iff_toNat_lt.mp below
  have address : (x + kVMRangePhysMemBase).toNat = kVMRangePhysMemBase.toNat + x.toNat := by
    rw [UInt64.toNat_add, physMemBase_toNat]
    omega
  unfold Region.Contains
  rw [address]
  exact ⟨Nat.le_add_right _ _, Nat.add_lt_add_left inside _⟩

private theorem seen_window (good : Good 0 valid live s.systemPml4 s) (linked : image.Linked)
    (low : 0 < memoryUpperBound.toNat)
    (high : memoryUpperBound.toNat ≤ 2 ^ 46)
    (entries : ∀ w, pte 0 s.mem s.systemPml4 w = systemSpace image memoryUpperBound (pageNumber w)) {x : PhysAddr}
    (below : x < memoryUpperBound) : seen s.mem s.systemPml4 (x + kVMRangePhysMemBase) = s.mem x := by
  have apart := systemRegions_apart linked low high
  have walked := region_walk good (window_sound low high)
    (fun w covered => (entries w).trans (systemSpace_covered apart window_member covered)) (window_contains high below)
  have whole : (0 : UInt64) + (x + kVMRangePhysMemBase - kVMRangePhysMemBase) = x := by
    rw [UInt64.zero_add, UInt64.add_sub_cancel]
  rw [seen, walked]
  simp only [whole]

end Created

section Switch

variable {σ : Type} {valid : σ → Prop} {live : σ → UInt64 → Prop} {s : State σ} {mem : UInt64 → UInt64}
  {base root : UInt64}

/-- The memory shows each table of a tree at the base offset. -/
def Shifted (base : UInt64) (s : State σ) (mem : UInt64 → UInt64) (root : UInt64) : Prop :=
  ∀ t, Reached (link 0 s.mem) root 3 t → ∀ i, mem (slot (t + base) i) = s.mem (slot (t + 0) i)

theorem Shifted.links (shifted : Shifted base s mem root) : ∀ path t, path.length < 3 →
    walk (link 0 s.mem) root path = some t → ∀ i, link base mem t i = link 0 s.mem t i := by
  intro path t short found i
  rw [link, link, shifted t ⟨path, Nat.le_of_lt short, found⟩]

theorem Shifted.walk (shifted : Shifted base s mem root) {path : List (Fin 512)} (short : path.length ≤ 3) :
    Radix.walk (link base mem) root path = Radix.walk (link 0 s.mem) root path :=
  walk_congr shifted.links short

theorem Shifted.tables (shifted : Shifted base s mem root) (tables : Tables 0 (live s.physmm) s.mem root) :
    Tables base (live s.physmm) mem root where
  unshared := unshared_congr shifted.links tables.unshared
  frames t reached := by
    obtain ⟨path, short, found⟩ := reached
    rw [shifted.walk short] at found
    exact tables.frames t ⟨path, short, found⟩
  directory t i reached := by
    obtain ⟨path, short, found⟩ := reached
    rw [shifted.walk (Nat.le_succ_of_le short)] at found
    rw [shifted t ⟨path, Nat.le_succ_of_le short, found⟩]
    exact tables.directory t i ⟨path, short, found⟩

theorem Shifted.pte (shifted : Shifted base s mem root) (v : VirtAddr) : Virtmm.pte base mem root v =
    Virtmm.pte 0 s.mem root v := by
  have short : (directories v).length ≤ 3 := Nat.le_refl 3
  unfold Virtmm.pte
  rw [shifted.walk short]
  cases found : Radix.walk (link 0 s.mem) root (directories v) with
  | none => rfl
  | some t => exact shifted t ⟨directories v, short, found⟩ _

end Switch

/-- physmm with a map of `bits` pages, some of which are lent to callers. -/
structure Lending (base : UInt64) (bits : Nat) (lent : Nat → Prop) (m : Physmm.State) : Prop extends Ready base m where
  extent : m.mapBits = bits
  lends : ∀ i, lent i → i < bits ∧ m.used i = true

/-- The pages in use that no caller has. -/
def Unlent (bits : Nat) (lent : Nat → Prop) (m : Physmm.State) (page : UInt64) : Prop :=
  page.toNat / 4096 < bits ∧ Taken m page ∧ ¬ lent (page.toNat / 4096)

section Lent

variable {base : UInt64} {bits : Nat} {lent : Nat → Prop} {m : Physmm.State} {page : UInt64} {call : Physmm.Call}

/-- physmm supplies page tables from the pages that nobody has. -/
theorem physmm_lending (base : UInt64) (bits : Nat) (lent : Nat → Prop) :
    Supply physmmSource base (Lending base bits lent) (Unlent bits lent) where
  offset m lending := lending.offset
  keeps m flags lending := by
    have layout := (Physmm.Call.allocPage flags).exec_layout m
    refine ⟨(physmm_supply base).keeps m flags lending.toReady, layout.mapBits.trans lending.extent, fun i has => ?_⟩
    obtain ⟨inside, used⟩ := lending.lends i has
    exact ⟨inside, (Physmm.Call.allocPage flags).exec_taken m rfl used⟩
  grows m flags page lending unlent := by
    obtain ⟨inside, taken, free⟩ := unlent
    exact ⟨inside, (physmm_supply base).grows m flags page lending.toReady taken, free⟩
  grants m flags ptr lending granted := by
    obtain ⟨page, address, inside, fresh, taken⟩ := (physmm_supply base).grants m flags ptr lending.toReady granted
    obtain ⟨number, _, bound, _, _, index, _, _⟩ := Physmm.allocPage_some lending.sound granted
    rw [address, lending.offset, UInt64.add_sub_cancel, page_toNat] at index
    rw [lending.extent, ← index] at bound
    refine ⟨page, address, inside, fun unlent => fresh unlent.2.1, bound, taken, fun has => ?_⟩
    exact fresh (lending.lends _ has).2

/-- A page in use that nobody has is left alone by callers who give back their own. -/
theorem Lending.keeps (lending : Lending base bits lent m) (entitled : Kmalloc.Entitled m lent call) {i : Nat}
    (used : m.used i = true) (free : ¬ lent i) :
    (call.exec m).2.used i = true ∧ ¬ Kmalloc.lentAfter m call lent i := by
  rw [call.exec_used, Kmalloc.lentAfter]
  cases ranged : call.range m with
  | none => exact ⟨used, free⟩
  | some range =>
    obtain ⟨addr, len⟩ := range
    have apart : ¬ ((addr / pageSize).toNat ≤ i ∧ i < (addr / pageSize).toNat + len ∧ i < m.mapBits) := by
      intro ⟨low, high, within⟩
      cases takes : call.takes with
      | false => exact free (entitled takes addr len ranged i low high within)
      | true =>
        obtain ⟨page, _, rfl, _, _, _, clear⟩ := Physmm.Call.range_take lending.sound takes ranged
        rw [clear i low high within] at used
        cases used
    simp only [if_neg apart]
    exact ⟨used, free⟩

private theorem Lending.zero_used (lending : Lending base bits lent m) (call : Physmm.Call) :
    (call.exec m).2.used 0 = true := by
  rw [call.exec_used]
  cases ranged : call.range m with
  | none => exact lending.reserved
  | some range =>
    obtain ⟨addr, len⟩ := range
    cases takes : call.takes with
    | true =>
      dsimp only
      split
      next => rfl
      next => exact lending.reserved
    | false =>
      have positive := Physmm.Call.range_give takes ranged
      dsimp only
      rw [if_neg fun within => Nat.not_le_of_lt positive within.1]
      exact lending.reserved

theorem Lending.exec (lending : Lending base bits lent m) (call : Physmm.Call) :
    Lending base bits (Kmalloc.lentAfter m call lent) (call.exec m).2 := by
  have layout := call.exec_layout m
  refine ⟨⟨call.exec_sound lending.sound, lending.zero_used call, layout.base.trans lending.offset⟩,
    layout.mapBits.trans lending.extent, fun i has => ?_⟩
  rw [call.exec_used]
  rw [Kmalloc.lentAfter] at has
  cases ranged : call.range m with
  | none =>
    rw [ranged] at has
    exact lending.lends i has
  | some range =>
    obtain ⟨addr, len⟩ := range
    simp only [ranged] at has ⊢
    split at has
    next within =>
      rw [if_pos within]
      exact ⟨lending.extent ▸ within.2.2, has⟩
    next outside =>
      rw [if_neg outside]
      exact lending.lends i has

theorem Unlent.exec (lending : Lending base bits lent m) (entitled : Kmalloc.Entitled m lent call)
    (unlent : Unlent bits lent m page) : Unlent bits (Kmalloc.lentAfter m call lent) (call.exec m).2 page := by
  obtain ⟨inside, taken, free⟩ := unlent
  obtain ⟨used, free'⟩ := lending.keeps entitled taken free
  exact ⟨inside, used, free'⟩

end Lent

private theorem seen_shifted {σ : Type} {valid : σ → Prop} {live : σ → UInt64 → Prop} {s : State σ} {image : Image}
    {memoryUpperBound : PhysAddr} {bits : Nat} (good : Good 0 valid live s.systemPml4 s) (linked : image.Linked)
    (low : 0 < memoryUpperBound.toNat) (high : memoryUpperBound.toNat ≤ 2 ^ 46)
    (entries : ∀ w, pte 0 s.mem s.systemPml4 w = systemSpace image memoryUpperBound (pageNumber w))
    (inside : ∀ t, Reached (link 0 s.mem) s.systemPml4 3 t → t.toNat / 4096 < bits)
    (covered : 4096 * bits ≤ memoryUpperBound.toNat) :
    Shifted kVMRangePhysMemBase s (seen s.mem s.systemPml4) s.systemPml4 := by
  intro t reached i
  have frame := (good.tables.frames t reached).1
  have within := inside t reached
  have aligned := frame.aligned
  have last := i.isLt
  have place : (slot (t + 0) i).toNat = t.toNat + 8 * i.val := slot_toNat (.inl rfl) frame.bound frame.aligned i
  have moved : slot (t + kVMRangePhysMemBase) i = slot (t + 0) i + kVMRangePhysMemBase := by
    unfold slot
    grind
  rw [moved]
  apply seen_window good linked low high entries
  rw [UInt64.lt_iff_toNat_lt, place]
  omega

/-- The switch keeps what the tables stand for, and from then on they are reached through
the window. -/
theorem init_entries {s s' : State Physmm.State} {image : Image} {memoryUpperBound : PhysAddr} {bits : Nat}
    (ready : Lending 0 bits (fun _ => False) s.physmm) (linked : image.Linked) (low : 0 < memoryUpperBound.toNat)
    (high : memoryUpperBound.toNat ≤ 2 ^ 46) (covered : 4096 * bits ≤ memoryUpperBound.toNat)
    (started : init s image memoryUpperBound = some s') :
    Good kVMRangePhysMemBase (Lending kVMRangePhysMemBase bits fun _ => False) (Unlent bits fun _ => False) s'.cr3 s' ∧
      ∀ w, pte kVMRangePhysMemBase s'.mem s'.cr3 w = systemSpace image memoryUpperBound (pageNumber w) := by
  obtain ⟨s1, created, same⟩ := Option.bind_eq_some_iff.mp started
  cases same
  obtain ⟨good, entries⟩ := createSystemVm_entries (physmm_lending 0 bits _) ready linked low high created
  have shifted := seen_shifted good linked low high entries (fun t reached => (good.tables.frames t reached).2.1) covered
  have valid := good.valid
  refine ⟨⟨shifted.tables good.tables, ⟨⟨valid.sound, valid.reserved, rfl⟩, valid.extent, valid.lends⟩⟩, fun w => ?_⟩
  exact (shifted.pte w).trans (entries w)

section Boot

/-- What `init` of physmm leaves for that of virtmm. The image is linked as in link.ld,
no base offset is set, and the last entry of the loader's map, which gives the bound of
the window, ends above all memory that is available. -/
structure Booting (m : Physmm.State) (image : Image) (info : Physmm.BootInfo) (b : Physmm.Booted) : Prop where
  linked : image.Linked
  booted : Physmm.init m image.ending info = some b
  fresh : m.memoryMapBase = 0
  last : (Physmm.surveyMap info.mmap).lastChunkEnd ≤ b.memoryUpperBound
  high : b.memoryUpperBound.toNat ≤ 2 ^ 46

variable {m : Physmm.State} {image : Image} {info : Physmm.BootInfo} {b : Physmm.Booted}

theorem Booting.started (boot : Booting m image info b) : Physmm.Started m image.ending info b := by
  have linked := boot.linked
  have text : kVMRangeKernelBase ≤ image.text :=
    UInt64.le_iff_toNat_le.mpr (Nat.le_trans (Nat.le_add_right _ _) linked.loaded)
  have above : image.text ≤ image.ending := UInt64.le_of_lt
    (UInt64.lt_trans linked.textFirst (UInt64.lt_trans linked.irqstubNext linked.dataLast))
  exact Physmm.init_started (UInt64.le_trans text above) boot.booted

/-- 16 MiB are the least. -/
theorem Booting.enough (boot : Booting m image info b) : 0x1000000 ≤ (Physmm.surveyMap info.mmap).lastChunkEnd.toNat := by
  have booted := boot.booted
  unfold Physmm.init at booted
  split at booted
  next => cases booted
  next enough => exact UInt64.le_iff_toNat_le.mp (UInt64.not_lt.mp enough)

theorem Booting.size (boot : Booting m image info b) :
    info.size.toNat = (Physmm.surveyMap info.mmap).lastChunkEnd.toNat / 32768 := by
  have last := UInt64.le_iff_toNat_le.mp boot.last
  have high := boot.high
  rw [Physmm.BootInfo.size, Physmm.mapSize, UInt64.toNat_toUInt32, UInt64.toNat_div, UInt64.toNat_div, pageSize_toNat,
    show (8 : UInt64).toNat = 8 from rfl]
  omega

theorem Booting.nonempty (boot : Booting m image info b) : 0 < b.memoryUpperBound.toNat := by
  have enough := boot.enough
  have last := UInt64.le_iff_toNat_le.mp boot.last
  omega

/-- The page map ends below the bound of the window. -/
theorem Booting.covered (boot : Booting m image info b) : 4096 * b.state.mapBits ≤ b.memoryUpperBound.toNat := by
  have last := UInt64.le_iff_toNat_le.mp boot.last
  rw [boot.started.mapBits, boot.size]
  omega

/-- Page 0 is taken, the books are balanced, and nobody has a page. -/
theorem Booting.lending (boot : Booting m image info b) : Lending 0 b.state.mapBits (fun _ => False) b.state := by
  have enough := boot.enough
  have real : 0 < info.size.toNat := by
    rw [boot.size]
    omega
  have offset : b.state.memoryMapBase = 0 := boot.started.base.trans boot.fresh
  refine ⟨⟨.inr boot.started.accounted, boot.started.first real, offset⟩, rfl, ?_⟩
  exact fun _ has => has.elim

end Boot

end Hotarubi.Memory.Virtmm
