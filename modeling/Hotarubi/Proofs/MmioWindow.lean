import Hotarubi.Proofs.MmioShape
import Hotarubi.Proofs.VirtmmSystem

/-! Activation of I/O memory. The pages a region starts in are mapped in the window
one after the other, unless the region or one above it is marked as mapped; so
what is marked has to be mapped to its last byte, and nested. -/

namespace Hotarubi.Memory.Mmio
open Base Ring Include

/-- The size of the request. -/
def Resource.size (r : Resource) : UInt64 := r.range - r.start

def Resource.Holds (r : Resource) (a : PhysAddr) : Prop :=
  r.start.toNat ≤ a.toNat ∧ a.toNat < r.start.toNat + r.size.toNat

/-- The bytes from the start of the window to the end of the address space. -/
def windowSize : Nat := 2 ^ 64 - kVMRangeIOMapBase.toNat

section Pages

variable {σ : Type} {pages : Virtmm.PageSource σ} {base : UInt64} {valid : σ → Prop} {live : σ → UInt64 → Prop}
  {v v' : Virtmm.State σ}

/-- The leaf entry of an address in the window. -/
def leaf (base : UInt64) (v : Virtmm.State σ) (a : PhysAddr) : UInt64 :=
  Virtmm.pte base v.mem v.cr3 (kVMRangeIOMapBase + a)

/-- An address is mapped in the window: the processor finds it there, may write,
and does not cache. -/
structure Windowed (base : UInt64) (v : Virtmm.State σ) (a : PhysAddr) : Prop where
  translated : Virtmm.processorWalk (Virtmm.physical base v.mem) v.cr3 (kVMRangeIOMapBase + a) = some (a, true)
  uncached : leaf base v a &&& Virtmm.kCacheDisable ≠ 0

/-- The same of the leaf entry alone. -/
structure Shows (base : UInt64) (v : Virtmm.State σ) (a : PhysAddr) : Prop where
  page : Virtmm.frame (leaf base v a) = Virtmm.frame a
  present : leaf base v a &&& Virtmm.kPresent ≠ 0
  writable : leaf base v a &&& Virtmm.kWritable ≠ 0
  uncached : leaf base v a &&& Virtmm.kCacheDisable ≠ 0

private theorem window_address {a : PhysAddr} (inside : a.toNat < windowSize) :
    (kVMRangeIOMapBase + a).toNat = kVMRangeIOMapBase.toNat + a.toNat := by
  unfold windowSize at inside
  rw [UInt64.toNat_add]
  omega

private theorem window_indices {a p : PhysAddr} (inside : a.toNat < windowSize) (inside' : p.toNat < windowSize) :
    Virtmm.indices (kVMRangeIOMapBase + a) = Virtmm.indices (kVMRangeIOMapBase + p) ↔
      a.toNat / 4096 = p.toNat / 4096 := by
  rw [Virtmm.indices_eq_iff, window_address inside, window_address inside',
    ioMapBase_toNat]
  unfold windowSize at inside inside'
  rw [ioMapBase_toNat] at inside inside'
  omega

private theorem frame_congr {a p : PhysAddr} (inside : a.toNat < windowSize) (same : a.toNat / 4096 = p.toNat / 4096) :
    Virtmm.frame a = Virtmm.frame p := by
  have bound : windowSize < 2 ^ 46 := by decide
  apply UInt64.toNat_inj.mp
  rw [Virtmm.frame_toNat (by omega), Virtmm.frame_toNat (by omega), same]

private theorem windowed_iff (good : Virtmm.Good base valid live v.cr3 v) {a : PhysAddr} (inside : a.toNat < windowSize) :
    Windowed base v a ↔ Shows base v a := by
  have bound : windowSize < 2 ^ 46 := by decide
  have low : ((kVMRangeIOMapBase + a) &&& 0xfff).toNat = a.toNat % 4096 := by
    rw [Virtmm.offset_toNat, window_address inside, ioMapBase_toNat]
    omega
  have whole : Virtmm.frame a + ((kVMRangeIOMapBase + a) &&& 0xfff) = a := by
    apply UInt64.toNat_inj.mp
    rw [UInt64.toNat_add, low, Virtmm.frame_toNat (by omega)]
    omega
  constructor
  · rintro ⟨translated, uncached⟩
    by_cases present : leaf base v a &&& Virtmm.kPresent ≠ 0
    · rw [Virtmm.processorWalk_leaf good present] at translated
      obtain ⟨here, writable⟩ := Prod.mk.inj (Option.some.inj translated)
      have page : Virtmm.frame (leaf base v a) = Virtmm.frame a :=
        (UInt64.add_left_inj _).mp (here.trans whole.symm)
      exact ⟨page, present, bne_iff_ne.mp writable, uncached⟩
    · rw [Virtmm.processorWalk_absent good present] at translated
      cases translated
  · intro shows'
    have frame : Virtmm.frame (Virtmm.pte base v.mem v.cr3 (kVMRangeIOMapBase + a)) = Virtmm.frame a := shows'.page
    have allowed : (Virtmm.pte base v.mem v.cr3 (kVMRangeIOMapBase + a) &&& Virtmm.kWritable != 0) = true :=
      bne_iff_ne.mpr shows'.writable
    refine ⟨?_, shows'.uncached⟩
    rw [Virtmm.processorWalk_leaf good shows'.present, frame, whole, allowed]

private theorem flag_kept {flag flags : UInt64} (part : flags &&& flag = flag) (nonzero : flag ≠ 0) (p : UInt64) :
    (p ||| flags) &&& flag ≠ 0 := by
  have split : (p ||| flags) &&& flag = (p &&& flag) ||| (flags &&& flag) :=
    UInt64.toBitVec_inj.mp BitVec.and_or_distrib_right
  rw [split, part]
  intro zero
  exact nonzero (UInt64.or_eq_zero_iff.mp zero).2

/-- One granted `map_fixed` of the loop maps the page it is about, whatever the
low bits of the address are, and leaves the others as they are. -/
private theorem mapFixed_window (supply : Virtmm.Supply pages base valid live) (offset : Virtmm.BaseOffset base)
    (good : Virtmm.Good base valid live v.cr3 v) {p : PhysAddr} (inside : p.toNat < windowSize)
    (mapped : Virtmm.mapFixed pages v (kVMRangeIOMapBase + p) p (Virtmm.kWritable ||| Virtmm.kCacheDisable) =
      (true, v')) :
    Virtmm.Good base valid live v'.cr3 v' ∧ ∀ a, a.toNat < windowSize →
      (Shows base v' a ↔ a.toNat / 4096 = p.toNat / 4096 ∨ Shows base v a) := by
  have step := Virtmm.mapPage_spec supply offset good (kVMRangeIOMapBase + p) p
    (Virtmm.kWritable ||| Virtmm.kCacheDisable)
  rw [← Virtmm.mapFixed_eq supply offset good, mapped] at step
  have cr3 : v'.cr3 = v.cr3 := step.registers.cr3
  refine ⟨by rw [cr3]; exact step.good, fun a inside' => ?_⟩
  have entry : leaf base v' a = if a.toNat / 4096 = p.toNat / 4096 then
      p ||| (Virtmm.kPresent ||| (Virtmm.kWritable ||| Virtmm.kCacheDisable)) else leaf base v a := by
    rw [leaf, cr3, step.ptes]
    simp only [true_and, window_indices inside' inside]
    rfl
  by_cases same : a.toNat / 4096 = p.toNat / 4096
  · rw [if_pos same] at entry
    refine iff_of_true ?_ (.inl same)
    constructor
    · rw [entry, Virtmm.frame_union, frame_congr inside' same,
        show Virtmm.frame (Virtmm.kPresent ||| (Virtmm.kWritable ||| Virtmm.kCacheDisable)) = 0 by decide, UInt64.or_zero]
    · rw [entry]
      exact flag_kept (by decide) (by decide) p
    · rw [entry]
      exact flag_kept (by decide) (by decide) p
    · rw [entry]
      exact flag_kept (by decide) (by decide) p
  · rw [if_neg same] at entry
    rw [or_iff_right same]
    constructor
    · rintro ⟨page, present, writable, uncached⟩
      exact ⟨by rwa [← entry], by rwa [← entry], by rwa [← entry], by rwa [← entry]⟩
    · rintro ⟨page, present, writable, uncached⟩
      exact ⟨by rwa [entry], by rwa [entry], by rwa [entry], by rwa [entry]⟩

private theorem mapWindow_spec (supply : Virtmm.Supply pages base valid live) (offset : Virtmm.BaseOffset base)
    {start size : UInt64} (straight : start.toNat + size.toNat ≤ windowSize) {passes : Nat} {i : UInt64}
    (good : Virtmm.Good base valid live v.cr3 v) (ran : mapWindow pages start size passes v i = some (true, v')) :
    Virtmm.Good base valid live v'.cr3 v' ∧ ∀ a, a.toNat < windowSize →
      (Shows base v' a ↔ Shows base v a ∨ ∃ k, i.toNat + 4096 * k < size.toNat ∧
        a.toNat / 4096 = (start.toNat + i.toNat) / 4096 + k) := by
  have top : windowSize < 2 ^ 46 := by decide
  induction passes generalizing v i with
  | zero => cases ran
  | succ passes ih =>
    rw [mapWindow] at ran
    split at ran
    next more =>
      rw [UInt64.lt_iff_toNat_lt] at more
      have place : (start + i).toNat = start.toNat + i.toNat := by
        rw [UInt64.toNat_add]
        omega
      have advance : (i + pageSize).toNat = i.toNat + 4096 := by
        rw [UInt64.toNat_add, pageSize_toNat]
        omega
      rw [UInt64.add_assoc kVMRangeIOMapBase] at ran
      cases step : Virtmm.mapFixed pages v (kVMRangeIOMapBase + (start + i)) (start + i)
          (Virtmm.kWritable ||| Virtmm.kCacheDisable) with
      | mk granted v1 =>
        simp only [step] at ran
        obtain ⟨⟨others, v2⟩, later, same⟩ := Option.map_eq_some_iff.mp ran
        obtain ⟨all, rfl⟩ := Prod.mk.inj same
        obtain ⟨rfl, rfl⟩ := Bool.and_eq_true_iff.mp all
        obtain ⟨good1, shown1⟩ := mapFixed_window supply offset good (by omega) step
        obtain ⟨good2, shown2⟩ := ih good1 later
        rw [place] at shown1
        rw [advance] at shown2
        refine ⟨good2, fun a inside => ?_⟩
        rw [shown2 a inside, shown1 a inside]
        constructor
        · rintro ((page | before) | ⟨k, below, page⟩)
          · exact .inr ⟨0, by omega, page⟩
          · exact .inl before
          · exact .inr ⟨k + 1, by omega, by omega⟩
        · rintro (before | ⟨k, below, page⟩)
          · exact .inl (.inr before)
          · cases k with
            | zero => exact .inl (.inl page)
            | succ k => exact .inr ⟨k, by omega, by omega⟩
    next done =>
      obtain ⟨_, rfl⟩ := Prod.mk.inj (Option.some.inj ran)
      rw [UInt64.lt_iff_toNat_lt] at done
      refine ⟨good, fun a _ => (or_iff_left ?_).symm⟩
      rintro ⟨k, below, _⟩
      omega

private theorem mapWindow_good (supply : Virtmm.Supply pages base valid live)
    (offset : Virtmm.BaseOffset base) {start size : UInt64}
    {passes : Nat} {i : UInt64} (good : Virtmm.Good base valid live v.cr3 v)
    (ran : mapWindow pages start size passes v i = some (true, v')) : Virtmm.Good base valid live v'.cr3 v' := by
  induction passes generalizing v i with
  | zero => cases ran
  | succ passes ih =>
    rw [mapWindow] at ran
    split at ran
    next =>
      cases mapped : Virtmm.mapFixed pages v (kVMRangeIOMapBase + start + i) (start + i)
          (Virtmm.kWritable ||| Virtmm.kCacheDisable) with
      | mk granted v1 =>
        simp only [mapped] at ran
        obtain ⟨⟨others, v2⟩, later, same⟩ := Option.map_eq_some_iff.mp ran
        obtain ⟨all, rfl⟩ := Prod.mk.inj same
        obtain ⟨rfl, rfl⟩ := Bool.and_eq_true_iff.mp all
        have step := Virtmm.mapPage_spec supply offset good (kVMRangeIOMapBase + start + i) (start + i)
          (Virtmm.kWritable ||| Virtmm.kCacheDisable)
        rw [← Virtmm.mapFixed_eq supply offset good, mapped] at step
        have cr3 : v1.cr3 = v.cr3 := step.registers.cr3
        exact ih (cr3 ▸ step.good) later
    next =>
      obtain ⟨_, rfl⟩ := Prod.mk.inj (Option.some.inj ran)
      exact good

private theorem mapWindow_total (pages : Virtmm.PageSource σ) (start : UInt64) {size : UInt64}
    (straight : size.toNat ≤ windowSize) {passes : Nat} {i : UInt64} (v : Virtmm.State σ)
    (started : i.toNat ≤ size.toNat + 4096)
    (enough : (size.toNat + 4096 - i.toNat) / 4096 < passes) :
    (mapWindow pages start size passes v i).isSome := by
  have top : windowSize < 2 ^ 46 := by decide
  induction passes generalizing v i with
  | zero => omega
  | succ passes ih =>
    rw [mapWindow]
    split
    next more =>
      rw [UInt64.lt_iff_toNat_lt] at more
      have advance : (i + pageSize).toNat = i.toNat + 4096 := by
        rw [UInt64.toNat_add, pageSize_toNat]
        omega
      rw [Option.isSome_map]
      exact ih _ (by omega) (by omega)
    next => rfl

end Pages

section Tree

variable {s s' : State} {t : Base.Tree Rid} {r m : Rid}

/-- `m` is the first region marked as mapped on the way up from `r`. -/
inductive State.Nearest (s : State) : Rid → Rid → Prop
  | here {r : Rid} (marked : flagSet (s.resource r).flags kMapped = true) : s.Nearest r r
  | above {r p m : Rid} (unmarked : flagSet (s.resource r).flags kMapped = false)
      (parent : (s.resource r).parent = some p) (nearest : s.Nearest p m) : s.Nearest r m

/-- The way up from `r` ends, at a marked region or at a root. -/
inductive State.Ends (s : State) : Rid → Prop
  | here {r : Rid} (marked : flagSet (s.resource r).flags kMapped = true) : s.Ends r
  | root {r : Rid} (top : (s.resource r).parent = none) : s.Ends r
  | above {r p : Rid} (parent : (s.resource r).parent = some p) (ends : s.Ends p) : s.Ends r

theorem State.Nearest.marked (nearest : s.Nearest r m) : flagSet (s.resource m).flags kMapped = true := by
  induction nearest with
  | here marked => exact marked
  | above _ _ _ ih => exact ih

theorem State.Nearest.unique {k : Rid} (nearest : s.Nearest r m) (other : s.Nearest r k) : k = m := by
  induction nearest with
  | here marked =>
    cases other with
    | here => rfl
    | above unmarked =>
      rw [marked] at unmarked
      cases unmarked
  | above unmarked parent _ ih =>
    cases other with
    | here marked =>
      rw [marked] at unmarked
      cases unmarked
    | above _ parent' other =>
      rw [parent] at parent'
      cases parent'
      exact ih other

private theorem mappedAbove_spec {depth : Nat} {mapped : Bool} (walked : mappedAbove s depth r = some mapped) :
    mapped = true ↔ ∃ m, s.Nearest r m := by
  induction depth generalizing r with
  | zero => cases walked
  | succ depth ih =>
    rw [mappedAbove] at walked
    split at walked
    next marked =>
      rw [← Option.some.inj walked]
      exact iff_of_true rfl ⟨r, .here marked⟩
    next unmarked =>
      have clear := Bool.eq_false_iff.mpr unmarked
      split at walked
      next top =>
        rw [← Option.some.inj walked]
        apply iff_of_false (by simp)
        rintro ⟨m, nearest⟩
        cases nearest with
        | here marked => exact unmarked marked
        | above _ parent _ =>
          rw [top] at parent
          cases parent
      next p parent =>
        rw [ih walked]
        constructor
        · rintro ⟨m, nearest⟩
          exact ⟨m, .above clear parent nearest⟩
        · rintro ⟨m, nearest⟩
          cases nearest with
          | here marked => exact absurd marked unmarked
          | above _ parent' nearest =>
            rw [parent] at parent'
            cases parent'
            exact ⟨m, nearest⟩

private theorem mappedAbove_total (ends : s.Ends r) : ∃ enough, ∀ depth ≥ enough, (mappedAbove s depth r).isSome := by
  induction ends with
  | @here r marked =>
    refine ⟨1, fun depth positive => ?_⟩
    obtain ⟨depth, rfl⟩ := Nat.exists_eq_add_of_le' positive
    rw [mappedAbove, if_pos marked]
    rfl
  | @root r top =>
    refine ⟨1, fun depth positive => ?_⟩
    obtain ⟨depth, rfl⟩ := Nat.exists_eq_add_of_le' positive
    rw [mappedAbove]
    split
    next => rfl
    next => simp only [top, Option.isSome_some]
  | @above r p parent _ ih =>
    obtain ⟨enough, all⟩ := ih
    refine ⟨enough + 1, fun depth more => ?_⟩
    obtain ⟨depth, rfl⟩ := Nat.exists_eq_add_of_le' (Nat.le_trans (Nat.le_add_left 1 enough) more)
    rw [mappedAbove]
    split
    next => rfl
    next =>
      simp only [parent]
      exact all depth (by omega)

private theorem nested_nearest (represents : Represents s t) (nested : Nested s t) (member : t.Mem r)
    (nearest : s.Nearest r m) : contains (s.resource m) (s.resource r).start (s.resource r).range := by
  induction nearest with
  | here => exact ⟨UInt64.le_refl _, UInt64.le_refl _⟩
  | @above r p m _ parent _ ih =>
    rcases Tree.mem_cases member with rfl | ⟨q, inside, child⟩
    · rw [represents.top] at parent
      cases parent
    · rw [represents.parents q r child] at parent
      cases parent
      exact contains_trans (ih inside) (nested.inside _ r child)

theorem represents_ends (represents : Represents s t) (member : t.Mem r) : s.Ends r := by
  induction member with
  | refl => exact .root represents.top
  | tail _ child ih => exact .above (represents.parents _ _ child) ih

end Tree

/-- What is marked afterwards was marked before, and has its interval. -/
def Kept (s s' : State) : Prop :=
  ∀ x, flagSet (s'.resource x).flags kMapped = true → flagSet (s.resource x).flags kMapped = true ∧
    (s'.resource x).start = (s.resource x).start ∧ (s'.resource x).range = (s.resource x).range

section Marks

variable {s s' s'' : State}

theorem Kept.refl (s : State) : Kept s s := fun _ marked => ⟨marked, rfl, rfl⟩

theorem Kept.trans (first : Kept s s') (second : Kept s' s'') : Kept s s'' := by
  intro x marked
  obtain ⟨marked', start', range'⟩ := second x marked
  obtain ⟨marked'', start'', range''⟩ := first x marked'
  exact ⟨marked'', start'.trans start'', range'.trans range''⟩

private theorem kept_set (s : State) (r : Rid) {value : Resource} (flags : value.flags = (s.resource r).flags)
    (start : value.start = (s.resource r).start) (range : value.range = (s.resource r).range) :
    Kept s (s.setResource r value) := by
  intro x marked
  by_cases same : x = r
  · subst same
    simp only [State.setResource, Function.update_self] at marked ⊢
    exact ⟨flags ▸ marked, start, range⟩
  · have other : (s.setResource r value).resource x = s.resource x := Function.update_of_ne same _ _
    rw [other] at marked ⊢
    exact ⟨marked, rfl, rfl⟩

private theorem kept_setParent (s : State) (r : Rid) (parent : Option Rid) : Kept s (s.setParent r parent) :=
  kept_set s r rfl rfl rfl

private theorem kept_setRefcount (s : State) (r : Rid) (refcount : UInt32) : Kept s (s.setRefcount r refcount) :=
  kept_set s r rfl rfl rfl

private theorem unmarked_new (flags : Flags) : flagSet (flags &&& ~~~kMapped) kMapped = false := by
  have clear : flags &&& ~~~kMapped &&& kMapped = 0 := by
    rw [UInt32.and_assoc, show ~~~kMapped &&& kMapped = 0 by decide, UInt32.and_zero]
  rw [flagSet, clear]
  rfl

private theorem kept_new (s : State) (request : Rid) (start range : PhysAddr) (flags : Flags) :
    Kept s (newResource s request start range flags) := by
  intro x marked
  by_cases same : x = request
  · subst same
    rw [newResource_self] at marked
    simp [unmarked_new] at marked
  · rw [newResource_other same] at marked ⊢
    exact ⟨marked, rfl, rfl⟩

private theorem addNested_kept {limit depth : Nat} {child root : Rid}
    (added : addNested limit s child depth root = some (some s')) : Kept s s' := by
  induction depth generalizing root with
  | zero => cases added
  | succ depth ih =>
    rw [addNested] at added
    split at added
    next =>
      obtain ⟨later, _, added⟩ := Option.bind_eq_some_iff.mp added
      have placed : ∃ links, State.setParent { s with links } child (s.resource root).parent = s' := by
        cases later with
        | some sibling =>
          obtain ⟨links, _, same⟩ := Option.bind_eq_some_iff.mp added
          exact ⟨links, Option.some.inj (Option.some.inj same)⟩
        | none =>
          simp only [Option.bind_eq_bind] at added
          split at added
          next =>
            obtain ⟨links, _, same⟩ := Option.bind_eq_some_iff.mp added
            exact ⟨links, Option.some.inj (Option.some.inj same)⟩
          next =>
            obtain ⟨links, _, same⟩ := Option.bind_eq_some_iff.mp added
            exact ⟨links, Option.some.inj (Option.some.inj same)⟩
      obtain ⟨links, rfl⟩ := placed
      exact kept_setParent { s with links } child _
    next =>
      split at added
      next =>
        simp only [Option.bind_eq_bind, Option.bind_eq_some_iff, Option.some.injEq] at added
        obtain ⟨links, _, rfl⟩ := added
        exact kept_setParent { s with links } child _
      next =>
        obtain ⟨ptr, found⟩ := search_found added
        obtain ⟨next, _, found⟩ := Option.bind_eq_some_iff.mp found
        exact ih found

private theorem requestResource_kept {limit : Nat} {root request : Rid} {answer : Option Rid}
    (ran : requestResource limit s root request = some (answer, s')) : Kept s s' := by
  unfold requestResource at ran
  obtain ⟨collision, _, ran⟩ := Option.bind_eq_some_iff.mp ran
  cases collision with
  | some hit =>
    cases ran
    exact .refl s
  | none =>
    obtain ⟨added, nested, ran⟩ := Option.bind_eq_some_iff.mp ran
    cases added with
    | some s1 =>
      cases ran
      exact addNested_kept nested
    | none =>
      cases ran
      exact .refl s

private theorem requestRegion_kept {limit : Nat} {start size : UInt64} {flags : Flags} {request : Rid} {answer : Option Rid}
    (ran : requestRegion limit s start size flags request = some (answer, s')) : Kept s s' := by
  have fresh (ran : (requestResource limit (newResource s request start (start + size) flags) (rootFor flags) request).bind
      (fun result => some (if result.1 = some request then some request else none, result.2)) = some (answer, s')) :
      Kept s s' := by
    obtain ⟨result, requested, ran⟩ := Option.bind_eq_some_iff.mp ran
    cases ran
    exact (kept_new s request start (start + size) flags).trans (requestResource_kept requested)
  unfold requestRegion at ran
  simp only [Option.bind_eq_bind, Option.bind_some] at ran
  split at ran
  next =>
    obtain ⟨shared, _, ran⟩ := Option.bind_eq_some_iff.mp ran
    cases shared with
    | some hit =>
      cases ran
      exact kept_setRefcount s hit _
    | none => exact fresh ran
  next => exact fresh ran

private theorem releaseResource_kept {limit : Nat} {region : Rid} (ran : releaseResource limit s region = some s') :
    Kept s s' := by
  unfold releaseResource at ran
  split at ran
  next =>
    cases ran
    exact .refl s
  next parent _ =>
    split at ran
    next =>
      have finish (s1 : State) (moved : Kept s s1) (ran : ((listDel s1.links (.siblings region)).bind fun links =>
          some (State.setRefcount { s1 with links } region 0)) = some s') : Kept s s' := by
        obtain ⟨links, _, ran⟩ := Option.bind_eq_some_iff.mp ran
        cases ran
        exact moved.trans (kept_setRefcount { s1 with links } region 0)
      simp only [Option.bind_eq_bind, Option.bind_some] at ran
      split at ran
      next => exact finish s (.refl s) ran
      next =>
        obtain ⟨s1, visited, ran⟩ := Option.bind_eq_some_iff.mp ran
        obtain ⟨links, _, ran⟩ := Option.bind_eq_some_iff.mp ran
        have moved : Kept s s1 := visit_kept (fun state ptr state' before step => by
          obtain ⟨child, _, step⟩ := Option.bind_eq_some_iff.mp step
          cases step
          exact before.trans (kept_setParent state child _)) (.refl s) visited
        exact finish { s1 with links } moved ran
    next =>
      cases ran
      exact kept_setRefcount s region _

private theorem releaseRegion_kept {limit : Nat} {region : Rid} {handle : Option Rid}
    (ran : releaseRegion limit s region = some (handle, s')) : Kept s s' := by
  obtain ⟨s1, released, ran⟩ := Option.bind_eq_some_iff.mp ran
  cases ran
  exact releaseResource_kept released

theorem Event.exec_kept {limit : Nat} {w w' : World} {event : Event} {answer : Option Rid}
    (ran : event.exec limit w = some (answer, w')) : Kept w.state w'.state := by
  cases event with
  | request start size flags addr =>
    obtain ⟨⟨granted, s1⟩, requested, ran⟩ := Option.bind_eq_some_iff.mp ran
    cases ran
    exact requestRegion_kept requested
  | release r =>
    obtain ⟨⟨handle, s1⟩, released, ran⟩ := Option.bind_eq_some_iff.mp ran
    cases ran
    exact releaseRegion_kept released

end Marks

/-- The regions with their handles, and the page tables. -/
structure System (σ : Type) where
  world : World
  virt : Virtmm.State σ

inductive Action where
  | call (event : Event)
  | activate (r : Rid)
  deriving DecidableEq, Repr

section Runs

variable {σ : Type} (pages : Virtmm.PageSource σ)

/-- The answer is whether every `map_fixed` of the step succeeded. -/
def Action.exec (limit : Nat) (x : System σ) : Action → Option (Bool × System σ)
  | .call event => (event.exec limit x.world).map fun result => (true, ⟨result.2, x.virt⟩)
  | .activate r => (activateRegion pages limit x.world.state x.virt r).map fun result =>
      (result.granted, ⟨⟨result.state, x.world.held⟩, result.virt⟩)

/-- Each `map_fixed` call succeeds. -/
def Action.Granted (limit : Nat) (x : System σ) (action : Action) : Prop :=
  ∀ result, action.exec pages limit x = some result → result.1 = true

/-- A memory region that is activated lies inside the marked one above it. If there is
none, its last byte is not further into its page than the size leaves room for, and the
window has an address for it. A port region is not mapped at all. -/
def Action.Covered (x : System σ) : Action → Prop
  | .call _ => True
  | .activate r =>
    let region := x.world.state.resource r
    flagSet region.flags kIOPort = false →
    (∀ m, x.world.state.Nearest r m → (x.world.state.resource m).start.toNat ≤ region.start.toNat ∧
      region.start.toNat + region.size.toNat ≤
        (x.world.state.resource m).start.toNat + (x.world.state.resource m).size.toNat) ∧
    ((∀ m, ¬ x.world.state.Nearest r m) → region.start.toNat + region.size.toNat ≤ windowSize ∧
      (region.size = 0 ∨ region.start.toNat % 4096 + (region.size.toNat - 1) % 4096 < 4096))

variable {pages} {base : UInt64} {valid : σ → Prop} {live : σ → UInt64 → Prop} {limit : Nat} {x x' : System σ}

/-- What is marked is mapped, to its last byte. -/
structure Mapped (base : UInt64) (valid : σ → Prop) (live : σ → UInt64 → Prop) (x : System σ) : Prop where
  good : Virtmm.Good base valid live x.virt.cr3 x.virt
  marked : ∀ m, flagSet (x.world.state.resource m).flags kMapped = true →
    (x.world.state.resource m).start.toNat + (x.world.state.resource m).size.toNat ≤ windowSize ∧
      ∀ a, (x.world.state.resource m).Holds a → Shows base x.virt a

private theorem initial_mapped {virt : Virtmm.State σ} (good : Virtmm.Good base valid live virt.cr3 virt) :
    Mapped base valid live ⟨.initial, virt⟩ := by
  refine ⟨good, fun m marked => ?_⟩
  have clear : flagSet (World.initial.state.resource m).flags kMapped = false := by
    cases m with
    | memRoot => rfl
    | portRoot => rfl
    | heap addr => simp [World.initial, init, boot, flagSet]
  rw [show (World.initial.state.resource m).flags = _ from rfl, clear] at marked
  cases marked

theorem Mapped.call (mapped : Mapped base valid live x) {event : Event} {answer : Option Rid} {world : World}
    (ran : event.exec limit x.world = some (answer, world)) : Mapped base valid live ⟨world, x.virt⟩ := by
  refine ⟨mapped.good, fun m marked => ?_⟩
  obtain ⟨before, start, range⟩ := Event.exec_kept ran m marked
  have old := mapped.marked m before
  simp only [Resource.Holds, Resource.size, start, range] at old ⊢
  exact old

private theorem activate_spec (supply : Virtmm.Supply pages base valid live) (offset : Virtmm.BaseOffset base)
    (mapped : Mapped base valid live x) {r : Rid} (covered : (Action.activate r).Covered x)
    (memory : flagSet (x.world.state.resource r).flags kIOPort = false) {result : Activated σ}
    (ran : activateRegion pages limit x.world.state x.virt r = some result) (granted : result.granted = true) :
    result.address = kVMRangeIOMapBase + (x.world.state.resource r).start ∧
      result.state = x.world.state.setResource r
        { x.world.state.resource r with flags := (x.world.state.resource r).flags ||| kMapped } ∧
      Virtmm.Good base valid live result.virt.cr3 result.virt ∧
      (∀ a, a.toNat < windowSize → Shows base x.virt a → Shows base result.virt a) ∧
      (x.world.state.resource r).start.toNat + (x.world.state.resource r).size.toNat ≤ windowSize ∧
      ∀ a, (x.world.state.resource r).Holds a → Shows base result.virt a := by
  obtain ⟨inside, alone⟩ := covered memory
  simp only [activateRegion, memory, Bool.false_eq_true, if_false, Option.bind_eq_bind] at ran
  obtain ⟨above, walked, ran⟩ := Option.bind_eq_some_iff.mp ran
  have found := mappedAbove_spec walked
  cases above with
  | true =>
    obtain ⟨m, nearest⟩ := found.mp rfl
    obtain ⟨low, high⟩ := inside m nearest
    obtain ⟨straight, all⟩ := mapped.marked m nearest.marked
    cases ran
    exact ⟨rfl, rfl, mapped.good, fun _ _ before => before, Nat.le_trans high straight,
      fun a holds => all a ⟨Nat.le_trans low holds.1, Nat.lt_of_lt_of_le holds.2 high⟩⟩
  | false =>
    obtain ⟨straight, fits⟩ := alone fun m nearest => by simpa using found.mpr ⟨m, nearest⟩
    obtain ⟨⟨ok, virt⟩, looped, ran⟩ := Option.bind_eq_some_iff.mp ran
    cases ran
    have same : ok = true := granted
    subst same
    obtain ⟨good, shown⟩ := mapWindow_spec supply offset straight mapped.good looped
    refine ⟨rfl, rfl, good, fun a window before => (shown a window).mpr (.inl before), straight, fun a holds => ?_⟩
    obtain ⟨low, high⟩ := holds
    rcases fits with empty | fits
    · rw [empty, UInt64.toNat_zero] at high
      omega
    · refine (shown a (by omega)).mpr (.inr ⟨a.toNat / 4096 - (x.world.state.resource r).start.toNat / 4096, ?_, ?_⟩)
      · rw [UInt64.toNat_zero]
        omega
      · rw [UInt64.toNat_zero]
        omega

private theorem activate_port {r : Rid} (port : flagSet (x.world.state.resource r).flags kIOPort = true)
    {result : Activated σ} (ran : activateRegion pages limit x.world.state x.virt r = some result) :
    result.state = x.world.state ∧ result.virt = x.virt := by
  simp only [activateRegion, port, if_true] at ran
  cases ran
  exact ⟨rfl, rfl⟩

theorem Mapped.step (supply : Virtmm.Supply pages base valid live) (offset : Virtmm.BaseOffset base)
    (mapped : Mapped base valid live x) {action : Action} (covered : action.Covered x)
    (granted : action.Granted pages limit x) {answer : Bool} (ran : action.exec pages limit x = some (answer, x')) :
    Mapped base valid live x' := by
  have succeeded : answer = true := granted _ ran
  cases action with
  | call event =>
    obtain ⟨⟨handle, world⟩, executed, same⟩ := Option.map_eq_some_iff.mp ran
    cases same
    exact mapped.call executed
  | activate r =>
    obtain ⟨result, executed, same⟩ := Option.map_eq_some_iff.mp ran
    obtain ⟨rfl, rfl⟩ := Prod.mk.inj same
    cases kind : flagSet (x.world.state.resource r).flags kIOPort with
    | true =>
      obtain ⟨state, virt⟩ := activate_port kind executed
      exact ⟨by rw [virt]; exact mapped.good, by rw [state, virt]; exact mapped.marked⟩
    | false =>
      obtain ⟨_, state, good, kept, straight, all⟩ := activate_spec supply offset mapped covered kind executed succeeded
      refine ⟨good, fun m marked => ?_⟩
      by_cases same : m = r
      · subst same
        simp only [state, State.setResource, Function.update_self]
        exact ⟨straight, all⟩
      · simp only [state, State.setResource, Function.update_of_ne same] at marked ⊢
        obtain ⟨straight', all'⟩ := mapped.marked m marked
        exact ⟨straight', fun a holds => kept a (Nat.lt_of_lt_of_le holds.2 straight') (all' a holds)⟩

private theorem activate_total {r : Rid} (covered : (Action.activate r).Covered x) (ends : x.world.state.Ends r) :
    ∃ enough, ∀ limit ≥ enough, (activateRegion pages limit x.world.state x.virt r).isSome := by
  obtain ⟨depth, walk⟩ := mappedAbove_total ends
  refine ⟨depth + (x.world.state.resource r).size.toNat + 4097, fun limit more => ?_⟩
  obtain ⟨above, walked⟩ := Option.isSome_iff_exists.mp (walk limit (by omega))
  simp only [activateRegion]
  split
  next => rfl
  next memory =>
    simp only [walked, Option.bind_eq_bind, Option.bind_some]
    split
    next => rfl
    next unmarked =>
      have none' : ∀ m, ¬ x.world.state.Nearest r m := fun m nearest =>
        unmarked ((mappedAbove_spec walked).mpr ⟨m, nearest⟩)
      have straight := ((covered (Bool.eq_false_iff.mpr memory)).2 none').1
      have few : ((x.world.state.resource r).size.toNat + 4096 - (0 : UInt64).toNat) / 4096 < limit := by
        rw [UInt64.toNat_zero]
        omega
      have looped := mapWindow_total pages (x.world.state.resource r).start (by omega) x.virt (Nat.zero_le _) few
      obtain ⟨window, found⟩ := Option.isSome_iff_exists.mp looped
      rw [show mapWindow pages (x.world.state.resource r).start
        ((x.world.state.resource r).range - (x.world.state.resource r).start) limit x.virt 0 = some window from found]
      rfl

private theorem good_step (supply : Virtmm.Supply pages base valid live) (offset : Virtmm.BaseOffset base)
    (good : Virtmm.Good base valid live x.virt.cr3 x.virt) {action : Action} (granted : action.Granted pages limit x)
    {answer : Bool} (ran : action.exec pages limit x = some (answer, x')) :
    Virtmm.Good base valid live x'.virt.cr3 x'.virt := by
  have succeeded : answer = true := granted _ ran
  cases action with
  | call event =>
    obtain ⟨result, _, same⟩ := Option.map_eq_some_iff.mp ran
    cases same
    exact good
  | activate r =>
    obtain ⟨result, activated, same⟩ := Option.map_eq_some_iff.mp ran
    obtain ⟨rfl, rfl⟩ := Prod.mk.inj same
    cases kind : flagSet (x.world.state.resource r).flags kIOPort with
    | true =>
      rw [(activate_port kind activated).2]
      exact good
    | false =>
      simp only [activateRegion, kind, Bool.false_eq_true, if_false, Option.bind_eq_bind] at activated
      obtain ⟨above, _, activated⟩ := Option.bind_eq_some_iff.mp activated
      cases above with
      | true =>
        cases activated
        exact good
      | false =>
        obtain ⟨⟨ok, virt⟩, looped, activated⟩ := Option.bind_eq_some_iff.mp activated
        cases activated
        have same : ok = true := succeeded
        subst same
        exact mapWindow_good supply offset good looped

/-- The loop of `activate_region` steps through the page of an address. -/
def Stepped (s : State) (r : Rid) (a : PhysAddr) : Prop :=
  (∀ m, ¬ s.Nearest r m) ∧
    a.toNat / 4096 < (s.resource r).start.toNat / 4096 + ((s.resource r).size.toNat + 4095) / 4096

/-- The condition on one activation is exact: all of the region is mapped afterwards if and
only if the loop steps through every page of it that was not mapped before. -/
private theorem activate_maps_iff (supply : Virtmm.Supply pages base valid live) (offset : Virtmm.BaseOffset base)
    (good : Virtmm.Good base valid live x.virt.cr3 x.virt) {r : Rid}
    (memory : flagSet (x.world.state.resource r).flags kIOPort = false)
    (straight : (x.world.state.resource r).start.toNat + (x.world.state.resource r).size.toNat ≤ windowSize)
    {result : Activated σ} (ran : activateRegion pages limit x.world.state x.virt r = some result)
    (granted : result.granted = true) :
    (∀ a, (x.world.state.resource r).Holds a → Windowed base result.virt a) ↔
      ∀ a, (x.world.state.resource r).Holds a → Windowed base x.virt a ∨ Stepped x.world.state r a := by
  refine forall₂_congr fun a holds => ?_
  have window : a.toNat < windowSize := Nat.lt_of_lt_of_le holds.2 straight
  rw [windowed_iff good window]
  simp only [activateRegion, memory, Bool.false_eq_true, if_false, Option.bind_eq_bind] at ran
  obtain ⟨above, walked, ran⟩ := Option.bind_eq_some_iff.mp ran
  have found := mappedAbove_spec walked
  cases above with
  | true =>
    obtain ⟨m, nearest⟩ := found.mp rfl
    cases ran
    rw [windowed_iff good window, or_iff_left fun stepped => stepped.1 m nearest]
  | false =>
    have unmarked : ∀ m, ¬ x.world.state.Nearest r m := fun m nearest => by simpa using found.mpr ⟨m, nearest⟩
    obtain ⟨⟨ok, virt⟩, looped, ran⟩ := Option.bind_eq_some_iff.mp ran
    cases ran
    have same : ok = true := granted
    subst same
    obtain ⟨good', shown⟩ := mapWindow_spec supply offset straight good looped
    rw [windowed_iff good' window, shown a window, Stepped, and_iff_right unmarked, UInt64.toNat_zero]
    have low := holds.1
    apply or_congr_right
    constructor
    · rintro ⟨k, below, page⟩
      omega
    · intro stepped
      exact ⟨a.toNat / 4096 - (x.world.state.resource r).start.toNat / 4096, by omega, by omega⟩

/-- After any run of requests, releases and activations that meet the condition, an
activation that returns has mapped every byte of its region, and one whose way up the
tree ends does return. In any run at all, an activation inside the window has mapped the
region if and only if the loop steps through what was not mapped before. -/
theorem region_mapped (supply : Virtmm.Supply pages base valid live) (offset : Virtmm.BaseOffset base)
    {virt : Virtmm.State σ} (good : Virtmm.Good base valid live virt.cr3 virt) {actions : List Action} {r : Rid}
    (granted : EachStep (Action.exec pages limit) (Action.Granted pages limit) ⟨.initial, virt⟩ (actions ++ [.activate r]))
    (reached : runCalls (Action.exec pages limit) ⟨.initial, virt⟩ actions = some x)
    (memory : flagSet (x.world.state.resource r).flags kIOPort = false) :
    (EachStep (Action.exec pages limit) Action.Covered ⟨.initial, virt⟩ (actions ++ [.activate r]) →
      (∀ result, activateRegion pages limit x.world.state x.virt r = some result →
        result.address = kVMRangeIOMapBase + (x.world.state.resource r).start ∧
          ∀ a, (x.world.state.resource r).Holds a → Windowed base result.virt a) ∧
        (x.world.state.Ends r → ∃ enough, ∀ limit ≥ enough,
          (activateRegion pages limit x.world.state x.virt r).isSome)) ∧
    ((x.world.state.resource r).start.toNat + (x.world.state.resource r).size.toNat ≤ windowSize →
      ∀ result, activateRegion pages limit x.world.state x.virt r = some result →
        ((∀ a, (x.world.state.resource r).Holds a → Windowed base result.virt a) ↔
          ∀ a, (x.world.state.resource r).Holds a → Windowed base x.virt a ∨ Stepped x.world.state r a)) := by
  obtain ⟨before, last⟩ := run_kept (fun _ _ _ _ good granted ran => good_step supply offset good granted ran) good granted
    reached
  have succeeded : ∀ result, activateRegion pages limit x.world.state x.virt r = some result → result.granted = true :=
    fun result ran => last (result.granted, _) (by rw [Action.exec, ran]; rfl)
  refine ⟨fun covered => ?_, fun straight result ran =>
    activate_maps_iff supply offset before memory straight ran (succeeded result ran)⟩
  have kept : ∀ (x : System σ) (action : Action) answer x', Mapped base valid live x →
      action.Covered x ∧ action.Granted pages limit x → action.exec pages limit x = some (answer, x') →
      Mapped base valid live x' :=
    fun x action answer x' mapped condition ran => mapped.step supply offset condition.1 condition.2 ran
  obtain ⟨mapped, covered, _⟩ := run_kept kept (initial_mapped good) (eachStep_and.mpr ⟨covered, granted⟩) reached
  refine ⟨fun result ran => ?_, activate_total covered⟩
  obtain ⟨address, _, good', _, straight, all⟩ := activate_spec supply offset mapped covered memory ran
    (succeeded result ran)
  exact ⟨address, fun a holds => (windowed_iff good' (Nat.lt_of_lt_of_le holds.2 straight)).mpr (all a holds)⟩

theorem shaped_covers {root : Rid} {w : World} {t : Base.Tree Rid} {n : Nat} (valid : Valid root w t n)
    (nested : Nested w.state t) {r m : Rid} (held : 0 < w.held r) (nearest : w.state.Nearest r m) :
    (w.state.resource m).start.toNat ≤ (w.state.resource r).start.toNat ∧
      (w.state.resource r).start.toNat + (w.state.resource r).size.toNat ≤
        (w.state.resource m).start.toNat + (w.state.resource m).size.toNat := by
  have member := valid.mem_iff.mpr (.inr held)
  obtain ⟨low, high⟩ := nested_nearest valid.represents nested member nearest
  have order := valid.nonempty r member
  rw [UInt64.le_iff_toNat_le] at low high
  rw [UInt64.lt_iff_toNat_lt] at order
  have inner := UInt64.toNat_sub_of_le _ _ (UInt64.le_iff_toNat_le.mpr (Nat.le_of_lt order))
  have outer := UInt64.toNat_sub_of_le (w.state.resource m).range (w.state.resource m).start
    (UInt64.le_iff_toNat_le.mpr (by omega))
  unfold Resource.size
  omega

end Runs

/-- A PML4 in page 1 behind the direct map, and a few pages to build tables with. -/
def windowTables : Virtmm.State Physmm.State :=
  ⟨fun _ => 0, 0x1000, 0, { Physmm.setMemoryMap [0x3, 0] 2 with memoryMapBase := kVMRangePhysMemBase }⟩

private theorem windowTables_good :
    Virtmm.Good kVMRangePhysMemBase (Virtmm.Ready kVMRangePhysMemBase) Virtmm.Taken windowTables.cr3 windowTables := by
  have ready : Virtmm.Ready kVMRangePhysMemBase windowTables.physmm :=
    ⟨.inr (by decide +kernel), by decide +kernel, rfl⟩
  have start : Virtmm.Empty kVMRangePhysMemBase (Virtmm.Taken windowTables.physmm) windowTables.mem windowTables.cr3 :=
    ⟨⟨by decide, by decide, by decide⟩, by unfold Virtmm.Taken; decide +kernel, fun _ => rfl⟩
  exact (start.good ready).1

section Examples

abbrev execPhysmm : System Physmm.State → Action → Option (Bool × System Physmm.State) :=
  Action.exec Virtmm.physmmSource 9

private theorem granted_of_exec {σ : Type} {pages : Virtmm.PageSource σ} {limit : Nat} {x : System σ} {action : Action}
    (answered : (action.exec pages limit x).map Prod.fst = some true) : action.Granted pages limit x := by
  intro result ran
  rw [ran] at answered
  exact Option.some.inj answered

private theorem covered_of_unmarked {σ : Type} {x : System σ} {r : Rid}
    (walked : mappedAbove x.world.state 9 r = some false)
    (straight : (x.world.state.resource r).start.toNat + (x.world.state.resource r).size.toNat ≤ windowSize)
    (fits : (x.world.state.resource r).start.toNat % 4096 + ((x.world.state.resource r).size.toNat - 1) % 4096 < 4096) :
    (Action.activate r).Covered x := by
  have none' : ∀ m, ¬ x.world.state.Nearest r m := fun m nearest => by
    simpa using (mappedAbove_spec walked).mpr ⟨m, nearest⟩
  exact fun _ => ⟨fun m nearest => absurd nearest (none' m), fun _ => ⟨straight, .inr fits⟩⟩

private theorem covered_of_nearest {σ : Type} {x : System σ} {r m : Rid} (nearest : x.world.state.Nearest r m)
    (inside : (x.world.state.resource m).start.toNat ≤ (x.world.state.resource r).start.toNat ∧
      (x.world.state.resource r).start.toNat + (x.world.state.resource r).size.toNat ≤
        (x.world.state.resource m).start.toNat + (x.world.state.resource m).size.toNat) :
    (Action.activate r).Covered x := by
  intro _
  refine ⟨fun k other => ?_, fun none' => absurd nearest (none' m)⟩
  rw [nearest.unique other]
  exact inside

/-- A region inside one that was activated before. -/
theorem region_mapped_witness :
    let actions : List Action := [.call (.request 0xfec00000 0x2000 kIOMem 1),
      .call (.request 0xfec01004 0x20 (kIOMem ||| kBusy) 2), .activate (.heap 1)]
    ∃ x, runCalls execPhysmm ⟨.initial, windowTables⟩ actions = some x ∧
      ((∀ result, activateRegion Virtmm.physmmSource 9 x.world.state x.virt (.heap 2) = some result →
        result.address = kVMRangeIOMapBase + (x.world.state.resource (.heap 2)).start ∧
          ∀ a, (x.world.state.resource (.heap 2)).Holds a → Windowed kVMRangePhysMemBase result.virt a) ∧
        (x.world.state.Ends (.heap 2) → ∃ enough, ∀ limit ≥ enough,
          (activateRegion Virtmm.physmmSource limit x.world.state x.virt (.heap 2)).isSome)) ∧
      ∀ result, activateRegion Virtmm.physmmSource 9 x.world.state x.virt (.heap 2) = some result →
        ((∀ a, (x.world.state.resource (.heap 2)).Holds a → Windowed kVMRangePhysMemBase result.virt a) ↔
          ∀ a, (x.world.state.resource (.heap 2)).Holds a →
            Windowed kVMRangePhysMemBase x.virt a ∨ Stepped x.world.state (.heap 2) a) := by
  intro actions
  have granted : EachStep execPhysmm (Action.Granted Virtmm.physmmSource 9) ⟨.initial, windowTables⟩
      (actions ++ [.activate (.heap 2)]) :=
    (eachStep_get (by decide +kernel)).mpr ⟨granted_of_exec (by decide +kernel),
      (eachStep_get (by decide +kernel)).mpr ⟨granted_of_exec (by decide +kernel),
        (eachStep_get (by decide +kernel)).mpr ⟨granted_of_exec (by decide +kernel),
          (eachStep_get (by decide +kernel)).mpr ⟨granted_of_exec (by decide +kernel), trivial⟩⟩⟩⟩
  obtain ⟨mapped, exact'⟩ := region_mapped (Virtmm.physmm_supply kVMRangePhysMemBase) (.inr rfl) windowTables_good granted
    (Option.some_get (by decide +kernel : (runCalls execPhysmm ⟨.initial, windowTables⟩ actions).isSome)).symm
    (by decide +kernel)
  refine ⟨_, (Option.some_get _).symm, mapped ?_, exact' (by decide +kernel)⟩
  refine (eachStep_get (by decide +kernel)).mpr ⟨trivial, (eachStep_get (by decide +kernel)).mpr ⟨trivial,
    (eachStep_get (by decide +kernel)).mpr ⟨covered_of_unmarked (by decide +kernel) (by decide +kernel)
      (by decide +kernel), (eachStep_get (by decide +kernel)).mpr ⟨covered_of_nearest (m := .heap 1) ?_ (by decide +kernel),
        trivial⟩⟩⟩⟩
  exact .above (by decide +kernel) (p := .heap 1) (by decide +kernel) (.here (by decide +kernel))

/-- A region of one page that starts in the middle of a page: its second half is not mapped. -/
theorem region_unmapped : ¬ ∀ (actions : List Action) (r : Rid) (x : System Physmm.State)
    (result : Activated Physmm.State),
    EachStep execPhysmm (Action.Granted Virtmm.physmmSource 9) ⟨.initial, windowTables⟩
      (actions ++ [.activate r]) →
    runCalls execPhysmm ⟨.initial, windowTables⟩ actions = some x → 0 < x.world.held r →
    activateRegion Virtmm.physmmSource 9 x.world.state x.virt r = some result →
    ∀ a, (x.world.state.resource r).Holds a → Windowed kVMRangePhysMemBase result.virt a := by
  intro claim
  let actions : List Action := [.call (.request 0x1800 0x1000 kIOMem 1)]
  let x := (runCalls execPhysmm ⟨.initial, windowTables⟩ actions).get (by decide +kernel)
  let result := (activateRegion Virtmm.physmmSource 9 x.world.state x.virt (.heap 1)).get (by decide +kernel)
  have granted : EachStep execPhysmm (Action.Granted Virtmm.physmmSource 9) ⟨.initial, windowTables⟩
      (actions ++ [.activate (.heap 1)]) :=
    (eachStep_get (by decide +kernel)).mpr ⟨granted_of_exec (by decide +kernel),
      (eachStep_get (by decide +kernel)).mpr ⟨granted_of_exec (by decide +kernel), trivial⟩⟩
  have mapped := claim actions (.heap 1) x result granted (Option.some_get _).symm (by decide +kernel)
    (Option.some_get _).symm 0x2000 ⟨by decide +kernel, by decide +kernel⟩
  exact absurd mapped.translated (by decide +kernel)

end Examples

end Hotarubi.Memory.Mmio
