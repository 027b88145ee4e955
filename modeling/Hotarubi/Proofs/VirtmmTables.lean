import Hotarubi.Base.Radix
import Hotarubi.Memory.Virtmm

/-! The page tables form a radix tree of frames. Growing the tree changes no
entry of a leaf table, and writing a leaf entry changes no table. -/

namespace Hotarubi.Memory.Virtmm
open Base Radix

/-- A page the direct map can reach: aligned, not zero, and below 64 TiB. -/
structure IsFrame (page : UInt64) : Prop where
  nonzero : page ≠ 0
  aligned : page.toNat % 4096 = 0
  bound : page.toNat < 2 ^ 46

/-- The base offsets the kernel runs with. -/
def BaseOffset (base : UInt64) : Prop := base = 0 ∨ base = kVMRangePhysMemBase

/-- Pages handed out are frames that nobody holds, returned by a pointer that
includes the base offset. `live` may be any account of the pages in use. -/
structure Supply {σ : Type} (pages : PageSource σ) (base : UInt64) (valid : σ → Prop)
    (live : σ → UInt64 → Prop) : Prop where
  offset : ∀ m, valid m → pages.physicalBaseOffset m = base
  keeps : ∀ m flags, valid m → valid (pages.allocPage flags m).2
  grows : ∀ m flags page, valid m → live m page → live (pages.allocPage flags m).2 page
  grants : ∀ m flags ptr, valid m → (pages.allocPage flags m).1 = some ptr →
    ∃ page, ptr = page + base ∧ IsFrame page ∧ ¬ live m page ∧ live (pages.allocPage flags m).2 page

/-- The frame the entry `i` of the table in frame `t` points to. -/
def link (base : UInt64) (mem : UInt64 → UInt64) (t : UInt64) (i : Fin 512) : Option UInt64 :=
  if frame (mem (slot (t + base) i)) = 0 then none else some (frame (mem (slot (t + base) i)))

/-- The indices that select the page table of an address, the last one first. -/
def directories (v : VirtAddr) : List (Fin 512) := [pdtIndex v, pdptIndex v, pml4Index v]

/-- All four indices of an address. -/
def indices (v : VirtAddr) : List (Fin 512) := ptIndex v :: directories v

/-- The leaf entry of an address, zero where there is no page table. -/
def pte (base : UInt64) (mem : UInt64 → UInt64) (root : UInt64) (v : VirtAddr) : UInt64 :=
  match walk (link base mem) root (directories v) with
  | none => 0
  | some t => mem (slot (t + base) (ptIndex v))

private theorem baseOffset_bound {base : UInt64} (offset : BaseOffset base) : base.toNat + 2 ^ 46 < 2 ^ 64 := by
  rcases offset with rfl | rfl
  · decide
  · decide

theorem slot_toNat {base t : UInt64} (offset : BaseOffset base) (small : t.toNat < 2 ^ 46) (aligned : t.toNat % 4096 = 0)
    (i : Fin 512) : (slot (t + base) i).toNat = t.toNat + base.toNat + 8 * i.val := by
  have := baseOffset_bound offset
  have := i.isLt
  simp only [slot, UInt64.toNat_add, UInt64.toNat_mul, UInt64.toNat_ofNat', show (8 : UInt64).toNat = 8 from rfl]
  omega

theorem slot_inj {base t u : UInt64} (offset : BaseOffset base) (first : IsFrame t) (second : IsFrame u)
    {i j : Fin 512} : slot (t + base) i = slot (u + base) j ↔ t = u ∧ i = j := by
  constructor
  · intro same
    have values := congrArg UInt64.toNat same
    rw [slot_toNat offset first.bound first.aligned, slot_toNat offset second.bound second.aligned] at values
    have := first.aligned
    have := second.aligned
    have := i.isLt
    have := j.isLt
    exact ⟨UInt64.toNat_inj.mp (by omega), Fin.ext (by omega)⟩
  · rintro ⟨rfl, rfl⟩
    rfl

theorem mem_store {σ : Type} {base : UInt64} (offset : BaseOffset base) (s : State σ) {t u : UInt64} (first : IsFrame t)
    (second : IsFrame u) (i j : Fin 512) (entry : UInt64) :
    (s.store (t + base) i entry).mem (slot (u + base) j) =
      if u = t ∧ j = i then entry else s.mem (slot (u + base) j) := by
  simp only [State.store, Function.update_apply, slot_inj offset second first]

theorem mem_zeroPage {σ : Type} {base : UInt64} (offset : BaseOffset base) (s : State σ) {t u : UInt64}
    (first : IsFrame t) (second : IsFrame u) (j : Fin 512) :
    (s.zeroPage (t + base)).mem (slot (u + base) j) = if u = t then 0 else s.mem (slot (u + base) j) := by
  have := baseOffset_bound offset
  have inside : slot (u + base) j - (t + base) < pageSize ↔ u = t := by
    have := j.isLt
    have := slot_toNat offset second.bound second.aligned j
    have := first.aligned
    have := first.bound
    have := second.aligned
    have := second.bound
    rw [UInt64.lt_iff_toNat_lt, UInt64.toNat_sub, UInt64.toNat_add, pageSize_toNat,
      ← UInt64.toNat_inj]
    omega
  simp only [State.zeroPage, inside]

theorem frame_union (a b : UInt64) : frame (a ||| b) = frame a ||| frame b :=
  UInt64.toBitVec_inj.mp BitVec.and_or_distrib_right

theorem frame_toNat {addr : UInt64} (bound : addr.toNat < 2 ^ 46) : (frame addr).toNat = addr.toNat / 4096 * 4096 := by
  rw [frame, UInt64.toNat_and, show (~~~kMask).toNat = 0x1ffffffffff000 from rfl]
  apply Nat.eq_of_testBit_eq
  intro i
  rw [Nat.testBit_and, show 4096 = 2 ^ 12 from rfl, Nat.testBit_mul_two_pow, Nat.testBit_div_two_pow]
  by_cases high : 46 ≤ i
  · have clear : addr.toNat.testBit i = false :=
      Nat.testBit_lt_two_pow (Nat.lt_of_lt_of_le bound (Nat.pow_le_pow_right (by decide) high))
    by_cases low : 12 ≤ i
    · simp [clear, low]
    · omega
  · have mask : ∀ j < 46, (0x1ffffffffff000).testBit j = decide (12 ≤ j) := by decide
    rw [mask i (by omega)]
    by_cases low : 12 ≤ i
    · simp [low]
    · simp [low]

private theorem frame_eq {page : UInt64} (aligned : page.toNat % 4096 = 0) (bound : page.toNat < 2 ^ 46) :
    frame page = page := by
  apply UInt64.toNat_inj.mp
  rw [frame_toNat bound]
  omega

theorem frame_or {page flags : UInt64} (aligned : page.toNat % 4096 = 0) (bound : page.toNat < 2 ^ 46)
    (masked : frame flags = 0) : frame (page ||| flags) = page := by
  rw [frame_union, frame_eq aligned bound, masked, UInt64.or_zero]

/-- The tables below a root: no two paths share one, each lies in a live frame,
and every entry above the leaf tables is empty or points to a writable table. -/
structure Tables (base : UInt64) (live : UInt64 → Prop) (mem : UInt64 → UInt64) (root : UInt64) : Prop where
  unshared : Unshared (link base mem) root 3
  frames : ∀ t, Reached (link base mem) root 3 t → IsFrame t ∧ live t
  directory : ∀ t i, Reached (link base mem) root 2 t → mem (slot (t + base) i) = 0 ∨
    ∃ u, IsFrame u ∧ mem (slot (t + base) i) = u ||| (kPresent ||| kWritable)

private theorem reached_mono {ν ι : Type*} {link : ν → ι → Option ν} {root node : ν} {short long : Nat}
    (order : short ≤ long)
    (reached : Reached link root short node) : Reached link root long node := by
  obtain ⟨path, brief, found⟩ := reached
  exact ⟨path, Nat.le_trans brief order, found⟩

theorem add_base_ne_zero {base page : UInt64} (offset : BaseOffset base) (inside : IsFrame page) :
    page + base ≠ 0 := by
  intro zero
  have := baseOffset_bound offset
  have := inside.bound
  have value := congrArg UInt64.toNat zero
  rw [UInt64.toNat_add, UInt64.toNat_zero] at value
  exact inside.nonzero (UInt64.toNat_inj.mp (by rw [UInt64.toNat_zero]; omega))

theorem frame_directory {page : UInt64} (inside : IsFrame page) :
    frame (page ||| (kPresent ||| kWritable)) = page :=
  frame_or inside.aligned inside.bound (by decide)

/-- What a step may assume of the state: the tables are in order and so is physmm. -/
structure Good {σ : Type} (base : UInt64) (valid : σ → Prop) (live : σ → UInt64 → Prop) (root : UInt64)
    (s : State σ) : Prop where
  tables : Tables base (live s.physmm) s.mem root
  valid : valid s.physmm

/-- A PML4 in use that holds no entry. -/
structure Empty (base : UInt64) (live : UInt64 → Prop) (mem : UInt64 → UInt64) (root : UInt64) : Prop where
  frame : IsFrame root
  live : live root
  zeroed : ∀ i, mem (slot (root + base) i) = 0

/-- No step but a new address space touches these. -/
structure SameRegisters {σ : Type} (s s' : State σ) : Prop where
  cr3 : s'.cr3 = s.cr3
  systemPml4 : s'.systemPml4 = s.systemPml4

/-- Tables may have been added; every walk that led to a table still does, and
every leaf entry is as before. -/
structure Grown {σ : Type} (base : UInt64) (valid : σ → Prop) (live : σ → UInt64 → Prop) (root : UInt64)
    (s s' : State σ) : Prop where
  good : Good base valid live root s'
  walks : ∀ path t, path.length ≤ 3 → walk (link base s.mem) root path = some t →
    walk (link base s'.mem) root path = some t
  ptes : ∀ v, pte base s'.mem root v = pte base s.mem root v
  registers : SameRegisters s s'

section Steps

variable {σ : Type} {pages : PageSource σ} {base : UInt64} {valid : σ → Prop} {live : σ → UInt64 → Prop}
  {root : UInt64} {s s' s'' : State σ}

theorem Empty.good (start : Empty base (live s.physmm) s.mem root) (ready : valid s.physmm) :
    Good base valid live root s ∧ ∀ v, pte base s.mem root v = 0 := by
  have links : ∀ i, link base s.mem root i = none := by
    intro i
    rw [link, start.zeroed]
    rfl
  refine ⟨⟨⟨unshared_of_empty links, ?_, ?_⟩, ready⟩, ?_⟩
  · rintro t ⟨path, _, found⟩
    obtain ⟨_, rfl⟩ := walk_of_empty links found
    exact ⟨start.frame, start.live⟩
  · rintro t i ⟨path, _, found⟩
    obtain ⟨_, rfl⟩ := walk_of_empty links found
    exact .inl (start.zeroed i)
  · intro v
    have missing : walk (link base s.mem) root (directories v) = none := by
      cases found : walk (link base s.mem) root (directories v) with
      | none => rfl
      | some t => cases (walk_of_empty links found).1
    rw [pte, missing]

theorem SameRegisters.trans (first : SameRegisters s s') (second : SameRegisters s' s'') : SameRegisters s s'' :=
  ⟨second.cr3.trans first.cr3, second.systemPml4.trans first.systemPml4⟩

theorem Grown.refl (good : Good base valid live root s) : Grown base valid live root s s :=
  ⟨good, fun _ _ _ found => found, fun _ => rfl, rfl, rfl⟩

theorem Grown.trans (first : Grown base valid live root s s') (second : Grown base valid live root s' s'') :
    Grown base valid live root s s'' :=
  ⟨second.good, fun path t short found => second.walks path t short (first.walks path t short found),
    fun v => (second.ptes v).trans (first.ptes v), first.registers.trans second.registers⟩

theorem tableAt_cases (same : pages.physicalBaseOffset s.physmm = base)
    (good : Good base valid live root s) {t : UInt64} (reached : Reached (link base s.mem) root 2 t) (i : Fin 512) :
    (link base s.mem t i = none ∧ tableAt pages s (t + base) i = 0) ∨
      ∃ u, link base s.mem t i = some u ∧ IsFrame u ∧ tableAt pages s (t + base) i = u + base := by
  simp only [tableAt, State.load, same, link]
  rcases good.tables.directory t i reached with empty | ⟨u, inside, points⟩
  · left
    simp [empty, frame, virtAddr]
  · right
    refine ⟨u, ?_, inside, ?_⟩
    · rw [points, frame_directory inside, if_neg inside.nonzero]
    · rw [points, frame_directory inside, virtAddr, if_neg inside.nonzero]

/-- The memory after a new table in frame `u` has been hooked into entry `i` of
the table in frame `t`. -/
theorem mem_hook (offset : BaseOffset base) {t u w : UInt64} (parent : IsFrame t) (child : IsFrame u) (table : IsFrame w)
    (i j : Fin 512) (entry : UInt64) :
    ((s.zeroPage (u + base)).store (t + base) i entry).mem (slot (w + base) j) =
      if w = t ∧ j = i then entry else if w = u then 0 else s.mem (slot (w + base) j) := by
  rw [mem_store offset _ parent table, mem_zeroPage offset _ child table]

/-- The tables' memory with an empty table in frame `u` hooked into entry `i` of the
table in frame `t`, against the memory before. -/
def Hooks (base : UInt64) (mem mem' : UInt64 → UInt64) (t : UInt64) (i : Fin 512) (u : UInt64) : Prop :=
  ∀ w, IsFrame w → ∀ j, mem' (slot (w + base) j) =
    if w = t ∧ j = i then u ||| (kPresent ||| kWritable) else if w = u then 0 else mem (slot (w + base) j)

section Hook

variable {mem : UInt64 → UInt64} {path : List (Fin 512)} {t u w : UInt64} {i : Fin 512}

theorem Hooks.parent (hooks : Hooks base s.mem mem t i u) (parent : IsFrame t) :
    mem (slot (t + base) i) = u ||| (kPresent ||| kWritable) := by
  rw [hooks t parent i, if_pos ⟨rfl, rfl⟩]

theorem Hooks.child (hooks : Hooks base s.mem mem t i u) (child : IsFrame u) (other : u ≠ t) (j : Fin 512) :
    mem (slot (u + base) j) = 0 := by
  rw [hooks u child j, if_neg (fun same => other same.1), if_pos rfl]

theorem Hooks.kept (hooks : Hooks base s.mem mem t i u) (table : IsFrame w) (old : w ≠ u) {j : Fin 512}
    (slot' : ¬ (w = t ∧ j = i)) : mem (slot (w + base) j) = s.mem (slot (w + base) j) := by
  rw [hooks w table j, if_neg slot', if_neg old]

theorem Good.old (good : Good base valid live root s) (fresh : ¬ live s.physmm u)
    (found : Reached (link base s.mem) root 3 w) :
    w ≠ u := by
  rintro rfl
  exact fresh (good.tables.frames w found).2

theorem Hooks.hooked (hooks : Hooks base s.mem mem t i u) (good : Good base valid live root s) (short : path.length < 3)
    (reached : walk (link base s.mem) root path = some t) (empty : link base s.mem t i = none) (child : IsFrame u)
    (fresh : ¬ live s.physmm u) : Hooked (link base s.mem) (link base mem) root 3 path t i u := by
  have there : Reached (link base s.mem) root 3 t := ⟨path, Nat.le_of_lt short, reached⟩
  refine ⟨short, reached, empty, fun found => fresh (good.tables.frames u found).2, ?_,
    fun w j found other => ?_, fun j => ?_⟩
  · rw [link, hooks.parent (good.tables.frames t there).1, frame_directory child, if_neg child.nonzero]
  · rw [link, hooks.kept (good.tables.frames w found).1 (good.old fresh found) (not_and_or.mpr other), link]
  · rw [link, hooks.child child (good.old fresh there).symm]
    rfl

private theorem Good.leaf_ne (good : Good base valid live root s) {v : VirtAddr} (short : path.length < 3)
    (reached : walk (link base s.mem) root path = some t) (found : walk (link base s.mem) root (directories v) = some w) :
    w ≠ t := by
  rintro rfl
  have same := good.tables.unshared (by simp [directories]) (Nat.le_of_lt short) found reached
  rw [← same] at short
  simp [directories] at short

theorem Hooks.ptes (hooks : Hooks base s.mem mem t i u) (good : Good base valid live root s) (short : path.length < 3)
    (reached : walk (link base s.mem) root path = some t) (empty : link base s.mem t i = none) (child : IsFrame u)
    (fresh : ¬ live s.physmm u) (v : VirtAddr) : pte base mem root v = pte base s.mem root v := by
  have hook := hooks.hooked good short reached empty child fresh
  unfold pte
  rw [hook.walk_eq good.tables.unshared (by simp [directories])]
  by_cases new : directories v = i :: path
  · rw [if_pos new, new, walk_cons reached, empty]
    simp only
    rw [hooks.child child (good.old fresh ⟨path, Nat.le_of_lt short, reached⟩).symm]
  · rw [if_neg new]
    cases found : walk (link base s.mem) root (directories v) with
    | none => rfl
    | some w =>
      have there : Reached (link base s.mem) root 3 w := ⟨directories v, by simp [directories], found⟩
      simp only
      rw [hooks.kept (good.tables.frames w there).1 (good.old fresh there)
        (fun same => good.leaf_ne short reached found same.1)]

end Hook

/-- Hooking an empty table into an empty entry keeps the tables in order and
every leaf entry as it was. -/
private theorem hook_grown (offset : BaseOffset base) (good : Good base valid live root s) {physmm : σ}
    (later : valid physmm)
    (grows : ∀ page, live s.physmm page → live physmm page) {path : List (Fin 512)} (short : path.length < 3)
    {t u : UInt64} (reached : walk (link base s.mem) root path = some t) {i : Fin 512}
    (empty : link base s.mem t i = none) (child : IsFrame u) (fresh : ¬ live s.physmm u) (taken : live physmm u) :
    let after := (({ s with physmm } : State σ).zeroPage (u + base)).store (t + base) i
      (u ||| (kPresent ||| kWritable))
    Grown base valid live root s after ∧ walk (link base after.mem) root (i :: path) = some u := by
  intro after
  have there : Reached (link base s.mem) root 3 t := ⟨path, Nat.le_of_lt short, reached⟩
  have parent : IsFrame t := (good.tables.frames t there).1
  have hooks : Hooks base s.mem after.mem t i u := fun w table j => mem_hook offset parent child table i j _
  have hook := hooks.hooked good short reached empty child fresh
  have walks := fun {q : List (Fin 512)} (brief : q.length ≤ 3) => hook.walk_eq good.tables.unshared brief
  have kept : ∀ w q, q.length ≤ 3 → walk (link base s.mem) root q = some w →
      walk (link base after.mem) root q = some w := by
    intro w q brief found
    rw [walks brief]
    split
    next same =>
      rw [same, walk_cons reached, empty] at found
      cases found
    next => exact found
  have origin : ∀ w d, d ≤ 3 → Reached (link base after.mem) root d w → w = u ∨ Reached (link base s.mem) root d w := by
    rintro w d deep ⟨q, brief, found⟩
    rw [walks (Nat.le_trans brief deep)] at found
    split at found
    next => exact .inl (Option.some_injective _ found).symm
    next => exact .inr ⟨q, brief, found⟩
  refine ⟨⟨⟨⟨hook.unshared good.tables.unshared, ?_, ?_⟩, later⟩, fun q w brief found => kept w q brief found,
    hooks.ptes good short reached empty child fresh, rfl, rfl⟩, ?_⟩
  · intro w found
    rcases origin w 3 (by decide) found with rfl | before
    · exact ⟨child, taken⟩
    · have table := good.tables.frames w before
      exact ⟨table.1, grows w table.2⟩
  · intro w j found
    rcases origin w 2 (by decide) found with rfl | before
    · exact .inl (hooks.child child (good.old fresh there).symm j)
    · have before' := reached_mono (show 2 ≤ 3 by decide) before
      have table := (good.tables.frames w before').1
      by_cases slot : w = t ∧ j = i
      · exact .inr ⟨u, child, by rw [hooks w table j, if_pos slot]⟩
      · rw [hooks.kept table (good.old fresh before') slot]
        exact good.tables.directory w j before
  · rw [walks (show (i :: path).length ≤ 3 from short), if_pos rfl]

/-- One level of the walk: whatever happens only tables are added, and a table
that is returned is the one the tree holds there. -/
theorem nextTable_spec (supply : Supply pages base valid live) (offset : BaseOffset base)
    (good : Good base valid live root s) {path : List (Fin 512)} (short : path.length < 3) {t : UInt64}
    (reached : walk (link base s.mem) root path = some t) (i : Fin 512) :
    Grown base valid live root s (nextTable pages s (t + base) i).2 ∧
      ∀ ptr, (nextTable pages s (t + base) i).1 = some ptr → ∃ u, ptr = u + base ∧
        walk (link base (nextTable pages s (t + base) i).2.mem) root (i :: path) = some u := by
  rcases tableAt_cases (supply.offset _ good.valid) good ⟨path, Nat.le_of_lt_succ short, reached⟩ i with
    ⟨empty, null⟩ | ⟨u, linked, inside, found⟩
  · have keeps := supply.keeps s.physmm Physmm.kLocked good.valid
    have grows := supply.grows s.physmm Physmm.kLocked
    have grants := supply.grants s.physmm Physmm.kLocked
    simp only [nextTable, null, if_true]
    cases allocated : pages.allocPage Physmm.kLocked s.physmm with
    | mk answer physmm =>
      rw [allocated] at keeps grows grants
      cases answer with
      | none =>
        refine ⟨⟨⟨⟨good.tables.unshared, fun w there => ?_, good.tables.directory⟩, keeps⟩,
          fun _ _ _ there => there, fun _ => rfl, rfl, rfl⟩, fun ptr granted => by cases granted⟩
        have table := good.tables.frames w there
        exact ⟨table.1, grows w good.valid table.2⟩
      | some ptr =>
        obtain ⟨u, rfl, child, fresh, taken⟩ := grants ptr good.valid rfl
        have entry : physAddr (pages.physicalBaseOffset physmm) (u + base) = u := by
          rw [supply.offset physmm keeps, physAddr, if_neg (add_base_ne_zero offset child), UInt64.add_sub_cancel]
        have hooked := hook_grown offset good keeps (fun page => grows page good.valid) short reached empty child
          fresh taken
        simp only [State.zeroPage] at hooked ⊢
        rw [entry]
        exact ⟨hooked.1, fun ptr granted => ⟨u, (Option.some_injective _ granted).symm, hooked.2⟩⟩
  · simp only [nextTable, found, add_base_ne_zero offset inside, if_false]
    refine ⟨.refl good, fun ptr granted => ⟨u, (Option.some_injective _ granted).symm, ?_⟩⟩
    rw [walk_cons reached, linked]

/-- The tables as before, and the leaf entries changed as `ptes` says. -/
structure Rewritten {σ : Type} (base : UInt64) (valid : σ → Prop) (live : σ → UInt64 → Prop) (root : UInt64)
    (ptes : VirtAddr → UInt64) (s' : State σ) : Prop where
  good : Good base valid live root s'
  ptes : ∀ v, pte base s'.mem root v = ptes v

private theorem leaf_apart (good : Good base valid live root s) {v : VirtAddr} {t w : UInt64}
    (reached : walk (link base s.mem) root (directories v) = some t) (above : Reached (link base s.mem) root 2 w) :
    IsFrame w ∧ w ≠ t := by
  obtain ⟨path, short, found⟩ := above
  refine ⟨(good.tables.frames w ⟨path, Nat.le_succ_of_le short, found⟩).1, ?_⟩
  rintro rfl
  have same := good.tables.unshared (Nat.le_succ_of_le short) (by simp [directories]) found reached
  rw [same] at short
  simp [directories] at short

private theorem store_links (offset : BaseOffset base) (good : Good base valid live root s) {v : VirtAddr} {t : UInt64}
    (reached : walk (link base s.mem) root (directories v) = some t) (entry : UInt64) :
    ∀ path w, path.length < 3 → walk (link base s.mem) root path = some w →
      ∀ i, link base (s.store (t + base) (ptIndex v) entry).mem w i = link base s.mem w i := by
  intro path w short found i
  have leaf : IsFrame t := (good.tables.frames t ⟨directories v, by simp [directories], reached⟩).1
  have table := leaf_apart good reached ⟨path, Nat.le_of_lt_succ short, found⟩
  have entry := mem_store offset s leaf table.1 (ptIndex v) i entry
  rw [if_neg (fun same => table.2 same.1)] at entry
  rw [link, entry, link]

/-- Writing a leaf entry leaves every walk to a table as it was. -/
theorem store_walk (offset : BaseOffset base) (good : Good base valid live root s) {v : VirtAddr} {t : UInt64}
    (reached : walk (link base s.mem) root (directories v) = some t) (entry : UInt64) {path : List (Fin 512)}
    (short : path.length ≤ 3) :
    walk (link base (s.store (t + base) (ptIndex v) entry).mem) root path = walk (link base s.mem) root path :=
  walk_congr (store_links offset good reached entry) short

/-- Writing a leaf entry changes that entry and no table. -/
theorem store_leaf (offset : BaseOffset base) (good : Good base valid live root s) {v : VirtAddr} {t : UInt64}
    (reached : walk (link base s.mem) root (directories v) = some t) (entry : UInt64) :
    Rewritten base valid live root (fun w => if indices w = indices v then entry else pte base s.mem root w)
      (s.store (t + base) (ptIndex v) entry) := by
  have leaf : IsFrame t := (good.tables.frames t ⟨directories v, by simp [directories], reached⟩).1
  have memory : ∀ {w}, IsFrame w → ∀ j, (s.store (t + base) (ptIndex v) entry).mem (slot (w + base) j) =
      if w = t ∧ j = ptIndex v then entry else s.mem (slot (w + base) j) :=
    fun table j => mem_store offset s leaf table _ j entry
  have walks := fun {path : List (Fin 512)} (short : path.length ≤ 3) => store_walk offset good reached entry short
  have origin : ∀ w d, d ≤ 3 → Reached (link base (s.store (t + base) (ptIndex v) entry).mem) root d w →
      Reached (link base s.mem) root d w := by
    rintro w d deep ⟨path, short, found⟩
    exact ⟨path, short, by rw [← walks (Nat.le_trans short deep), found]⟩
  refine ⟨⟨⟨unshared_congr (store_links offset good reached entry) good.tables.unshared, ?_, ?_⟩,
    good.valid⟩, ?_⟩
  · exact fun w found => good.tables.frames w (origin w 3 (by decide) found)
  · intro w i found
    have before := origin w 2 (by decide) found
    have table := leaf_apart good reached before
    rw [memory table.1, if_neg (fun same => table.2 same.1)]
    exact good.tables.directory w i before
  · intro w
    rw [pte, walks (by simp [directories])]
    unfold pte
    cases found : walk (link base s.mem) root (directories w) with
    | none =>
      have elsewhere : indices w ≠ indices v := by
        intro same
        rw [(List.cons_eq_cons.mp same).2, reached] at found
        cases found
      simp only [elsewhere, if_false]
    | some u =>
      have table := good.tables.frames u ⟨directories w, by simp [directories], found⟩
      simp only [memory table.1, indices, List.cons.injEq]
      by_cases page : ptIndex w = ptIndex v ∧ directories w = directories v
      · have same : u = t := by
          rw [page.2, reached] at found
          exact (Option.some_injective _ found).symm
        rw [if_pos ⟨same, page.1⟩, if_pos page]
      · rw [if_neg page, if_neg]
        rintro ⟨rfl, index⟩
        exact page ⟨index, good.tables.unshared (by simp [directories]) (by simp [directories]) found reached⟩

/-- What one pass of the mapping loop does: it sets exactly the leaf entry of
its address, and if it fails it sets none. -/
structure Mapped {σ : Type} (base : UInt64) (valid : σ → Prop) (live : σ → UInt64 → Prop) (root : UInt64)
    (s : State σ) (v : VirtAddr) (entry : UInt64) (result : Bool × State σ) : Prop where
  good : Good base valid live root result.2
  registers : SameRegisters s result.2
  ptes : ∀ w, pte base result.2.mem root w =
    if result.1 = true ∧ indices w = indices v then entry else pte base s.mem root w

theorem Grown.failed (grown : Grown base valid live root s s') (v : VirtAddr) (entry : UInt64) :
    Mapped base valid live root s v entry (false, s') :=
  ⟨grown.good, grown.registers, fun w => by simpa using grown.ptes w⟩

theorem mapPage_spec (supply : Supply pages base valid live) (offset : BaseOffset base)
    (good : Good base valid live root s) (v : VirtAddr) (p : PhysAddr) (flags : UInt64) :
    Mapped base valid live root s v (p ||| (kPresent ||| flags)) (mapPage pages s (root + base) v p flags) := by
  obtain ⟨first, pdptAt⟩ := nextTable_spec supply offset good (show [].length < 3 by decide) rfl (pml4Index v)
  unfold mapPage
  cases level3 : nextTable pages s (root + base) (pml4Index v) with
  | mk answer s1 =>
    rw [level3] at first pdptAt
    cases answer with
    | none => exact first.failed v _
    | some pdpt =>
      obtain ⟨pdpt, rfl, atPdpt⟩ := pdptAt _ rfl
      obtain ⟨second, pdtAt⟩ := nextTable_spec supply offset first.good (by simp) atPdpt (pdptIndex v)
      simp only
      cases level2 : nextTable pages s1 (pdpt + base) (pdptIndex v) with
      | mk answer s2 =>
        rw [level2] at second pdtAt
        cases answer with
        | none => exact (first.trans second).failed v _
        | some pdt =>
          obtain ⟨pdt, rfl, atPdt⟩ := pdtAt _ rfl
          obtain ⟨third, ptAt⟩ := nextTable_spec supply offset second.good (by simp) atPdt (pdtIndex v)
          simp only
          cases level1 : nextTable pages s2 (pdt + base) (pdtIndex v) with
          | mk answer s3 =>
            rw [level1] at third ptAt
            cases answer with
            | none => exact ((first.trans second).trans third).failed v _
            | some pt =>
              obtain ⟨pt, rfl, atPt⟩ := ptAt _ rfl
              have grown := (first.trans second).trans third
              have stored := store_leaf offset third.good (v := v) atPt (p ||| (kPresent ||| flags))
              refine ⟨stored.good, ⟨grown.registers.cr3, grown.registers.systemPml4⟩, fun w => ?_⟩
              rw [stored.ptes, grown.ptes]
              simp

theorem pte_missing {mem : UInt64 → UInt64} {v : VirtAddr} (missing : walk (link base mem) root (directories v) = none) :
    pte base mem root v = 0 := by
  rw [pte, missing]

/-- Walking down without allocating: a table is missing at one of the three
levels, or the leaf table is reached. -/
theorem descend_cases (same : pages.physicalBaseOffset s.physmm = base) (offset : BaseOffset base)
    (good : Good base valid live root s) (v : VirtAddr) :
    (walk (link base s.mem) root (directories v) = none ∧
      (tableAt pages s (root + base) (pml4Index v) = 0 ∨ ∃ pdpt, pdpt ≠ 0 ∧
        tableAt pages s (root + base) (pml4Index v) = pdpt ∧
        (tableAt pages s pdpt (pdptIndex v) = 0 ∨ ∃ pdt, pdt ≠ 0 ∧ tableAt pages s pdpt (pdptIndex v) = pdt ∧
          tableAt pages s pdt (pdtIndex v) = 0))) ∨
      ∃ pdpt pdt t, pdpt ≠ 0 ∧ tableAt pages s (root + base) (pml4Index v) = pdpt ∧
        pdt ≠ 0 ∧ tableAt pages s pdpt (pdptIndex v) = pdt ∧
        t + base ≠ 0 ∧ tableAt pages s pdt (pdtIndex v) = t + base ∧
        walk (link base s.mem) root (directories v) = some t := by
  rcases tableAt_cases same good ⟨[], by simp, rfl⟩ (pml4Index v) with ⟨empty, null⟩ | ⟨pdpt, linked, inside, at1⟩
  · exact .inl ⟨by simp [directories, walk, empty], .inl null⟩
  have walk1 : walk (link base s.mem) root [pml4Index v] = some pdpt := by simp [walk, linked]
  rcases tableAt_cases same good ⟨_, by simp, walk1⟩ (pdptIndex v) with ⟨empty, null⟩ | ⟨pdt, linked', inside', at2⟩
  · exact .inl ⟨by simp [directories, walk, linked, empty],
      .inr ⟨_, add_base_ne_zero offset inside, at1, .inl null⟩⟩
  have walk2 : walk (link base s.mem) root [pdptIndex v, pml4Index v] = some pdt := by
    rw [walk_cons walk1, linked']
  rcases tableAt_cases same good ⟨_, by simp, walk2⟩ (pdtIndex v) with ⟨empty, null⟩ | ⟨pt, linked'', inside'', at3⟩
  · exact .inl ⟨by rw [directories, walk_cons walk2, empty],
      .inr ⟨_, add_base_ne_zero offset inside, at1, .inr ⟨_, add_base_ne_zero offset inside', at2, null⟩⟩⟩
  · exact .inr ⟨_, _, pt, add_base_ne_zero offset inside, at1, add_base_ne_zero offset inside', at2,
      add_base_ne_zero offset inside'', at3, by rw [directories, walk_cons walk2, linked'']⟩

/-- Where a table is missing the pass does nothing. -/
theorem unmapPage_missing (same : pages.physicalBaseOffset s.physmm = base) (offset : BaseOffset base)
    (good : Good base valid live root s) {v : VirtAddr} (freePage : Bool)
    (missing : walk (link base s.mem) root (directories v) = none) :
    unmapPage pages s (root + base) v freePage = (v, s) := by
  unfold unmapPage
  rcases descend_cases same offset good v with ⟨_, null | ⟨pdpt, some1, at1, null | ⟨pdt, some2, at2, null⟩⟩⟩ |
    ⟨_, _, _, _, _, _, _, _, _, found⟩
  · simp only [null, if_true]
  · simp only [at1, some1, null, if_true, if_false]
  · simp only [at1, some1, at2, some2, null, if_true, if_false]
  · rw [missing] at found
    cases found

/-- Where there is a leaf table the pass clears an entry that holds a frame. -/
theorem unmapPage_found (same : pages.physicalBaseOffset s.physmm = base) (offset : BaseOffset base)
    (good : Good base valid live root s) {v : VirtAddr} (freePage : Bool) {t : UInt64}
    (reached : walk (link base s.mem) root (directories v) = some t) :
    unmapPage pages s (root + base) v freePage = (v + pageSize,
      if frame (pte base s.mem root v) = 0 then s
      else ({ s with physmm := if freePage then
          pages.freePage s.physmm (virtAddr base (frame (pte base s.mem root v)))
        else s.physmm } : State σ).store (t + base) (ptIndex v) 0) := by
  unfold unmapPage
  rcases descend_cases same offset good v with ⟨missing, _⟩ |
    ⟨pdpt, pdt, u, some1, at1, some2, at2, some3, at3, found⟩
  · rw [missing] at reached
    cases reached
  · obtain rfl : u = t := Option.some_injective _ (found.symm.trans reached)
    have leaf : s.load (u + base) (ptIndex v) = pte base s.mem root v := by rw [pte, found, State.load]
    simp only [at1, some1, at2, some2, at3, some3, leaf, same, if_false, ne_eq, ite_not]
    split
    next => rfl
    next => rfl

/-- One pass of the unmapping loop clears exactly the leaf entry of its address. -/
theorem unmapPage_spec (supply : Supply pages base valid live) (offset : BaseOffset base)
    (good : Good base valid live root s) (v : VirtAddr) :
    SameRegisters s (unmapPage pages s (root + base) v false).2 ∧ Rewritten base valid live root
      (fun w => if indices w = indices v ∧ frame (pte base s.mem root v) ≠ 0 then 0 else pte base s.mem root w)
      (unmapPage pages s (root + base) v false).2 := by
  have anchored := supply.offset _ good.valid
  have untouched (empty : frame (pte base s.mem root v) = 0) : Rewritten base valid live root
      (fun w => if indices w = indices v ∧ frame (pte base s.mem root v) ≠ 0 then 0 else pte base s.mem root w) s :=
    ⟨good, fun w => by simp [empty]⟩
  have same : SameRegisters s s := ⟨rfl, rfl⟩
  cases reached : walk (link base s.mem) root (directories v) with
  | none =>
    rw [unmapPage_missing anchored offset good false reached]
    exact ⟨same, untouched (by rw [pte_missing reached]; rfl)⟩
  | some t =>
    rw [unmapPage_found anchored offset good false reached]
    by_cases empty : frame (pte base s.mem root v) = 0
    · simp only [empty, if_true]
      exact ⟨same, by simpa only [empty] using untouched empty⟩
    · simp only [empty, if_false, Bool.false_eq_true]
      have stored := store_leaf offset good (v := v) reached 0
      refine ⟨⟨rfl, rfl⟩, stored.good, fun w => ?_⟩
      simpa [empty] using stored.ptes w

end Steps

end Hotarubi.Memory.Virtmm
