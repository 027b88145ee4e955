import Hotarubi.Proofs.VirtmmRefinement

/-! Mapping an address to a page of its own. The pointer of `alloc_page` includes
the base offset and becomes the entry as it is, and a null pointer becomes frame 0. -/

namespace Hotarubi.Memory.Virtmm
open Base Radix

/-- A supply that knows how many pages it has left. -/
structure CountedSupply {σ : Type} (pages : PageSource σ) (base : UInt64) (valid : σ → Prop)
    (live : σ → UInt64 → Prop) (spare : σ → Nat) : Prop extends Supply pages base valid live where
  granted : ∀ m flags, valid m → ((∃ ptr, (pages.allocPage flags m).1 = some ptr) ↔ 0 < spare m)
  spends : ∀ m flags ptr, valid m → (pages.allocPage flags m).1 = some ptr → spare (pages.allocPage flags m).2 + 1 = spare m
  refuses : ∀ m flags, (pages.allocPage flags m).1 = none → (pages.allocPage flags m).2 = m

/-- The levels of `_map_region` in one: from a table down along the indices. -/
def descend {σ : Type} (pages : PageSource σ) (s : State σ) (table : UInt64) : List (Fin 512) → Option UInt64 × State σ
  | [] => (some table, s)
  | i :: rest =>
    match nextTable pages s table i with
    | (none, s) => (none, s)
    | (some next, s) => descend pages s next rest

/-- The number of tables that are missing on the way down. -/
def lacking (base : UInt64) (mem : UInt64 → UInt64) (t : UInt64) : List (Fin 512) → Nat
  | [] => 0
  | i :: rest =>
    match link base mem t i with
    | none => rest.length + 1
    | some u => lacking base mem u rest

/-- The number of tables that the walk to `v` lacks. -/
def missing (base : UInt64) (mem : UInt64 → UInt64) (root : UInt64) (v : VirtAddr) : Nat :=
  lacking base mem root [pml4Index v, pdptIndex v, pdtIndex v]

theorem mapPage_eq {σ : Type} (pages : PageSource σ) (s : State σ) (pml4 : UInt64) (v : VirtAddr) (p : PhysAddr)
    (flags : UInt64) :
    mapPage pages s pml4 v p flags =
      match descend pages s pml4 [pml4Index v, pdptIndex v, pdtIndex v] with
      | (none, s) => (false, s)
      | (some pt, s) => (true, s.store pt (ptIndex v) (p ||| (kPresent ||| flags))) := by
  simp only [mapPage, descend]
  cases nextTable pages s pml4 (pml4Index v) with
  | mk answer s1 =>
    cases answer with
    | none => rfl
    | some pdpt =>
      dsimp only
      cases nextTable pages s1 pdpt (pdptIndex v) with
      | mk answer s2 =>
        cases answer with
        | none => rfl
        | some pdt =>
          dsimp only
          cases nextTable pages s2 pdt (pdtIndex v) with
          | mk answer s3 => cases answer <;> rfl

section Steps

variable {σ : Type} {pages : PageSource σ} {base : UInt64} {valid : σ → Prop} {live : σ → UInt64 → Prop}
  {spare : σ → Nat} {root : UInt64} {s s' : State σ}

theorem nextTable_present (supply : Supply pages base valid live) (offset : BaseOffset base)
    (good : Good base valid live root s) {t u : UInt64} {i : Fin 512}
    (reached : Reached (link base s.mem) root 2 t) (linked : link base s.mem t i = some u) :
    nextTable pages s (t + base) i = (some (u + base), s) := by
  rcases tableAt_cases (supply.offset _ good.valid) good reached i with ⟨empty, _⟩ | ⟨w, linked', inside, found⟩
  · rw [linked] at empty
    cases empty
  · rw [linked] at linked'
    cases linked'
    simp only [nextTable, found, add_base_ne_zero offset inside, if_false]

/-- A table that is missing costs one page, and the new one is empty. -/
theorem nextTable_missing (supply : CountedSupply pages base valid live spare) (offset : BaseOffset base)
    (good : Good base valid live root s) {path : List (Fin 512)} (short : path.length < 3) {t : UInt64} {i : Fin 512}
    (reached : walk (link base s.mem) root path = some t) (empty : link base s.mem t i = none) :
    ((nextTable pages s (t + base) i).1 = none ∧ spare s.physmm = 0) ∨
      ∃ u, (nextTable pages s (t + base) i).1 = some (u + base) ∧
        spare (nextTable pages s (t + base) i).2.physmm + 1 = spare s.physmm ∧
        ∀ j, link base (nextTable pages s (t + base) i).2.mem u j = none := by
  rcases tableAt_cases (supply.offset _ good.valid) good ⟨path, Nat.le_of_lt_succ short, reached⟩ i with
    ⟨_, null⟩ | ⟨u, linked, _⟩
  · have granted := supply.granted s.physmm Physmm.kLocked good.valid
    have spends := supply.spends s.physmm Physmm.kLocked
    have grants := supply.grants s.physmm Physmm.kLocked
    have parent := good.tables.frames t ⟨path, Nat.le_of_lt short, reached⟩
    simp only [nextTable, null, if_true]
    cases allocated : pages.allocPage Physmm.kLocked s.physmm with
    | mk answer physmm =>
      rw [allocated] at granted spends grants
      cases answer with
      | none =>
        refine .inl ⟨rfl, Nat.eq_zero_of_not_pos fun positive => ?_⟩
        obtain ⟨ptr, answered⟩ := granted.mpr positive
        cases answered
      | some ptr =>
        obtain ⟨u, rfl, child, fresh, _⟩ := grants ptr good.valid rfl
        have other : u ≠ t := by
          rintro rfl
          exact fresh parent.2
        refine .inr ⟨u, rfl, spends _ good.valid rfl, fun j => ?_⟩
        have entry := mem_hook (s := { s with physmm }) offset parent.1 child child i j
          (physAddr (pages.physicalBaseOffset physmm) (u + base) ||| (kPresent ||| kWritable))
        rw [if_neg (fun same => other same.1), if_pos rfl] at entry
        simp only [State.zeroPage] at entry ⊢
        rw [link, entry]
        rfl
  · rw [empty] at linked
    cases linked

theorem lacking_of_empty {mem : UInt64 → UInt64} {t : UInt64} (empty : ∀ i, link base mem t i = none)
    (path : List (Fin 512)) : lacking base mem t path = path.length := by
  cases path with
  | nil => rfl
  | cons i rest => simp only [lacking, empty, List.length_cons]

private theorem descend_granted (supply : CountedSupply pages base valid live spare) (offset : BaseOffset base)
    {rest path : List (Fin 512)} (good : Good base valid live root s) (short : path.length + rest.length ≤ 3) {t : UInt64}
    (reached : walk (link base s.mem) root path = some t) :
    (descend pages s (t + base) rest).1.isSome ↔ lacking base s.mem t rest ≤ spare s.physmm := by
  induction rest generalizing s path t with
  | nil => simp [descend, lacking]
  | cons i rest ih =>
    rw [List.length_cons] at short
    cases linked : link base s.mem t i with
    | some u =>
      have present := nextTable_present supply.toSupply offset good ⟨path, by omega, reached⟩ linked
      have further : walk (link base s.mem) root (i :: path) = some u := by rw [walk_cons reached, linked]
      simp only [descend, present, lacking, linked]
      exact ih good (by rw [List.length_cons]; omega) further
    | none =>
      obtain ⟨grown, next⟩ := nextTable_spec supply.toSupply offset good (by omega) reached i
      simp only [descend, lacking, linked]
      rcases nextTable_missing supply offset good (by omega) reached linked with ⟨refused, zero⟩ |
        ⟨u, granted, spent, empty⟩
      · cases level : nextTable pages s (t + base) i with
        | mk answer s1 =>
          rw [level] at refused
          cases refused
          simp [zero]
      · obtain ⟨w, same, further⟩ := next _ granted
        obtain rfl : u = w := by simpa using same
        cases level : nextTable pages s (t + base) i with
        | mk answer s1 =>
          rw [level] at grown granted spent empty further
          cases granted
          dsimp only at grown spent empty further
          rw [ih grown.good (by rw [List.length_cons]; omega) further, lacking_of_empty empty, ← spent]
          omega

theorem mapPage_granted (supply : CountedSupply pages base valid live spare) (offset : BaseOffset base)
    (good : Good base valid live root s) (v : VirtAddr) (p : PhysAddr) (flags : UInt64) :
    (mapPage pages s (root + base) v p flags).1 = true ↔ missing base s.mem root v ≤ spare s.physmm := by
  have short : ([] : List (Fin 512)).length + [pml4Index v, pdptIndex v, pdtIndex v].length ≤ 3 := Nat.le_refl 3
  rw [missing, ← descend_granted supply offset good short rfl, mapPage_eq]
  split
  next level => simp [level]
  next level => simp [level]

private theorem descend_present (supply : Supply pages base valid live) (offset : BaseOffset base)
    {rest path : List (Fin 512)} (good : Good base valid live root s) (short : path.length + rest.length ≤ 3) {t : UInt64}
    (reached : walk (link base s.mem) root path = some t) (complete : lacking base s.mem t rest = 0) :
    (descend pages s (t + base) rest).2 = s := by
  induction rest generalizing path t with
  | nil => rfl
  | cons i rest ih =>
    rw [List.length_cons] at short
    cases linked : link base s.mem t i with
    | none => simp [lacking, linked] at complete
    | some u =>
      have present := nextTable_present supply offset good ⟨path, by omega, reached⟩ linked
      have further : walk (link base s.mem) root (i :: path) = some u := by rw [walk_cons reached, linked]
      simp only [lacking, linked] at complete
      simp only [descend, present]
      exact ih (by rw [List.length_cons]; omega) further complete

private theorem mapPage_present (supply : Supply pages base valid live) (offset : BaseOffset base)
    (good : Good base valid live root s) {v : VirtAddr} (complete : missing base s.mem root v = 0) (p : PhysAddr)
    (flags : UInt64) : (mapPage pages s (root + base) v p flags).2.physmm = s.physmm := by
  have short : ([] : List (Fin 512)).length + [pml4Index v, pdptIndex v, pdtIndex v].length ≤ 3 := Nat.le_refl 3
  have same := descend_present supply offset good short rfl complete
  rw [mapPage_eq]
  split
  next level => rw [← same, level]
  next pt last level =>
    rw [level] at same
    have unchanged : last = s := same
    rw [unchanged]
    rfl

theorem mapAddress_eq (supply : Supply pages base valid live) (offset : BaseOffset base)
    (good : Good base valid live s.cr3 s) (v : VirtAddr) (flags : UInt64) :
    mapAddress pages s v flags =
      mapPage pages { s with physmm := (pages.allocPage Physmm.kActive s.physmm).2 } (s.cr3 + base) v
        ((pages.allocPage Physmm.kActive s.physmm).1.getD 0) flags := by
  have once : (pageCount pageSize - 1).toNat = 0 := by decide
  have pml4 := pml4_eq supply good.valid good.root
  have start := add_base_ne_zero offset good.root
  simp only [mapAddress, mapRegion, pml4, start, once, if_false, mapPages]

theorem good_alloc (supply : Supply pages base valid live) (good : Good base valid live root s) (flags : Physmm.Flags) :
    Good base valid live root { s with physmm := (pages.allocPage flags s.physmm).2 } := by
  refine ⟨⟨good.tables.unshared, fun t there => ?_, good.tables.directory⟩, supply.keeps _ flags good.valid⟩
  have table := good.tables.frames t there
  exact ⟨table.1, supply.grows _ flags t good.valid table.2⟩

/-- `map_address` returns true exactly if the tables that `v` lacks can be had
after the page itself. -/
private theorem mapAddress_granted (supply : CountedSupply pages base valid live spare) (offset : BaseOffset base)
    (good : Good base valid live s.cr3 s) (v : VirtAddr) (flags : UInt64) :
    (mapAddress pages s v flags).1 = false ↔
      0 < missing base s.mem s.cr3 v ∧ spare s.physmm ≤ missing base s.mem s.cr3 v := by
  have later := good_alloc supply.toSupply good Physmm.kActive
  rw [mapAddress_eq supply.toSupply offset good, ← Bool.not_eq_true, mapPage_granted supply offset later]
  dsimp only
  cases allocated : (pages.allocPage Physmm.kActive s.physmm).1 with
  | some ptr =>
    have spent := supply.spends _ _ ptr good.valid allocated
    omega
  | none =>
    have zero : spare s.physmm = 0 := by
      apply Nat.eq_zero_of_not_pos
      intro positive
      obtain ⟨ptr, answered⟩ := (supply.granted _ Physmm.kActive good.valid).mpr positive
      rw [allocated] at answered
      cases answered
    rw [supply.refuses _ _ allocated]
    omega

end Steps

section Owning

/-- The books of physmm are balanced as well. -/
structure Balanced (base : UInt64) (m : Physmm.State) : Prop extends Ready base m where
  accounted : m.Accounted

theorem physmm_counted (base : UInt64) : CountedSupply physmmSource base (Balanced base) Taken Physmm.spare where
  offset _ balanced := balanced.offset
  keeps m flags balanced :=
    ⟨(physmm_supply base).keeps m flags balanced.toReady,
      (Physmm.Call.allocPage flags).exec_accounted m balanced.accounted⟩
  grows m flags page balanced := (physmm_supply base).grows m flags page balanced.toReady
  grants m flags ptr balanced := (physmm_supply base).grants m flags ptr balanced.toReady
  granted _ flags balanced := Physmm.allocPage_granted_iff balanced.accounted balanced.reserved flags
  spends _ _ _ balanced granted := Physmm.allocPage_spare balanced.accounted balanced.reserved granted
  refuses _ _ refused := Physmm.allocPage_refused refused

/-- What `map_address` and a following `unmap_address` promise about the page. -/
structure OwnsFrame (s : State Physmm.State) (v : VirtAddr) (flags : UInt64) : Prop where
  mapped : (mapAddress physmmSource s v flags).1 = true → ∃ page < s.physmm.mapBits,
    s.physmm.used page = false ∧ (mapAddress physmmSource s v flags).2.physmm.used page = true ∧
    (translation physmmSource (mapAddress physmmSource s v flags).2 v).map frame = some (UInt64.ofNat page * pageSize) ∧
    translation physmmSource (unmapAddress physmmSource (mapAddress physmmSource s v flags).2 v) v = none ∧
    (unmapAddress physmmSource (mapAddress physmmSource s v flags).2 v).physmm.used page = false
  refused : Physmm.freePages s.physmm = 0 → (mapAddress physmmSource s v flags).1 = false ∧
    ∀ w, translation physmmSource (mapAddress physmmSource s v flags).2 w = translation physmmSource s w

variable {s : State Physmm.State}

theorem frame_direct_map {page : UInt64} (inside : IsFrame page) (rest : UInt64) :
    2 ^ 52 ≤ (frame ((page + kVMRangePhysMemBase) ||| rest)).toNat := by
  apply Nat.ge_two_pow_of_testBit
  have value : (page + kVMRangePhysMemBase).toNat = page.toNat + 0xffff880000000000 := by
    have bound := inside.bound
    rw [UInt64.toNat_add, physMemBase_toNat]
    omega
  have high : (page + kVMRangePhysMemBase).toNat.testBit 52 = true := by
    have bound := inside.bound
    rw [value, Nat.testBit_eq_decide_div_mod_eq, decide_eq_true_eq]
    omega
  have kept : (~~~kMask).toNat.testBit 52 = true := by decide +kernel
  rw [frame, UInt64.toNat_and, UInt64.toNat_or, Nat.testBit_and, Nat.testBit_or, high, kept]
  rfl

private theorem pageAddr_small {m : Physmm.State} {page : Nat} (inside : page < m.mapBits) :
    (UInt64.ofNat page * pageSize).toNat = page * 4096 ∧ page * 4096 < 2 ^ 44 := by
  have bound := Nat.lt_trans inside (Physmm.mapBits_lt m)
  rw [UInt64.toNat_mul, UInt64.toNat_ofNat', pageSize_toNat]
  omega

private theorem granted_not_owned (good : Good kVMRangePhysMemBase (Balanced kVMRangePhysMemBase) Taken s.cr3 s)
    {v : VirtAddr} {flags : UInt64} (granted : (mapAddress physmmSource s v flags).1 = true) :
    ¬ OwnsFrame s v flags := by
  intro owns
  have counted := physmm_counted kVMRangePhysMemBase
  have later := good_alloc counted.toSupply good Physmm.kActive
  obtain ⟨page, inside, free, used, maps, _⟩ := owns.mapped granted
  rw [mapAddress_eq counted.toSupply (.inr rfl) good] at granted used maps
  have spec := mapPage_spec counted.toSupply (.inr rfl) later v
    ((physmmSource.allocPage Physmm.kActive s.physmm).1.getD 0) flags
  obtain ⟨entry, found, frames⟩ := Option.map_eq_some_iff.mp maps
  have same := spec.registers.cr3
  have leaf := spec.ptes v
  rw [if_pos ⟨granted, rfl⟩] at leaf
  rw [translation_pte counted.toSupply (.inr rfl) (by rw [same]; exact spec.good), same, leaf] at found
  split at found
  · cases found
  next points =>
    cases found
    cases allocated : (physmmSource.allocPage Physmm.kActive s.physmm).1 with
    | some ptr =>
      obtain ⟨q, rfl, isFrame, _⟩ := counted.grants _ _ ptr good.valid allocated
      rw [allocated, Option.getD_some] at frames
      have high := frame_direct_map isFrame (kPresent ||| flags)
      have small := pageAddr_small inside
      rw [frames, small.1] at high
      omega
    | none =>
      have full : (mapPage physmmSource { s with physmm := (physmmSource.allocPage Physmm.kActive s.physmm).2 }
          (s.cr3 + kVMRangePhysMemBase) v ((physmmSource.allocPage Physmm.kActive s.physmm).1.getD 0)
          flags).2.physmm = s.physmm := by
        have unchanged := counted.refuses _ _ allocated
        have complete := (mapPage_granted counted (.inr rfl) later v _ flags).mp granted
        dsimp only at complete
        have zero : Physmm.spare s.physmm = 0 := by
          apply Nat.eq_zero_of_not_pos
          intro positive
          obtain ⟨ptr, answered⟩ := (counted.granted _ Physmm.kActive good.valid).mpr positive
          rw [allocated] at answered
          cases answered
        rw [unchanged, zero] at complete
        exact (mapPage_present counted.toSupply (.inr rfl) later (Nat.le_zero.mp complete) _ flags).trans unchanged
      rw [full, free] at used
      cases used

/-- `map_address` keeps its promise exactly when it returns false, that is when a
table for the address is missing and physmm has no more pages than tables are missing. -/
theorem owns_frame_iff (good : Good kVMRangePhysMemBase (Balanced kVMRangePhysMemBase) Taken s.cr3 s)
    (v : VirtAddr) (flags : UInt64) :
    OwnsFrame s v flags ↔ 0 < missing kVMRangePhysMemBase s.mem s.cr3 v ∧
      Physmm.spare s.physmm ≤ missing kVMRangePhysMemBase s.mem s.cr3 v := by
  have counted := physmm_counted kVMRangePhysMemBase
  rw [← mapAddress_granted counted (.inr rfl) good v flags]
  constructor
  · intro owns
    rw [← Bool.not_eq_true]
    exact fun granted => granted_not_owned good granted owns
  · intro refused
    refine ⟨fun granted => absurd granted (by rw [refused]; decide), fun _ => ⟨refused, fun w => ?_⟩⟩
    have later := good_alloc counted.toSupply good Physmm.kActive
    rw [mapAddress_eq counted.toSupply (.inr rfl) good] at refused ⊢
    have spec := mapPage_spec counted.toSupply (.inr rfl) later v
      ((physmmSource.allocPage Physmm.kActive s.physmm).1.getD 0) flags
    have same := spec.registers.cr3
    rw [translation_pte counted.toSupply (.inr rfl) (by rw [same]; exact spec.good), same, spec.ptes w, refused,
      translation_pte counted.toSupply (.inr rfl) good]
    simp

/-- An empty PML4 in page 1 and the given bitmap, behind the direct map. -/
def emptyTables (words : List (BitVec 32)) (used : UInt32) : State Physmm.State :=
  ⟨fun _ => 0, 0x1000, 0, Physmm.setPhysicalBaseOffset (Physmm.setMemoryMap words used) kVMRangePhysMemBase⟩

private theorem emptyTables_good {words : List (BitVec 32)} {used : UInt32}
    (accounted : (emptyTables words used).physmm.Accounted) (reserved : (emptyTables words used).physmm.used 0 = true)
    (root : (emptyTables words used).physmm.used 1 = true) :
    Good kVMRangePhysMemBase (Balanced kVMRangePhysMemBase) Taken 0x1000 (emptyTables words used) :=
  (Empty.good ⟨⟨by decide, by decide, by decide⟩, root, fun _ => rfl⟩ ⟨⟨.inr accounted, reserved, rfl⟩, accounted⟩).1

theorem owns_frame_iff_witness : OwnsFrame (emptyTables [0xfffffff3] 30) 0x400000 kWritable :=
  (owns_frame_iff (emptyTables_good (by decide +kernel) (by decide +kernel) (by decide +kernel)) _ _).mpr
    (by decide +kernel)

theorem frame_not_owned : ¬ ∀ (s : State Physmm.State) (v : VirtAddr) (flags : UInt64),
    Good kVMRangePhysMemBase (Balanced kVMRangePhysMemBase) Taken s.cr3 s → v.toNat % 4096 = 0 →
      translation physmmSource s v = none → OwnsFrame s v flags := by
  intro claim
  have good : Good kVMRangePhysMemBase (Balanced kVMRangePhysMemBase) Taken 0x1000 (emptyTables [0x3] 2) :=
    emptyTables_good (by decide +kernel) (by decide +kernel) (by decide +kernel)
  exact granted_not_owned good (by decide +kernel)
    (claim (emptyTables [0x3] 2) 0x400000 kWritable good (by decide) (by decide +kernel))

end Owning

end Hotarubi.Memory.Virtmm
