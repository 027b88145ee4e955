import Mathlib.Algebra.BigOperators.Group.Finset.Piecewise
import Mathlib.Order.Interval.Finset.Nat
import Hotarubi.Base.Stock
import Hotarubi.Proofs.VirtmmAddress
import Hotarubi.Proofs.VirtmmSwitch

/-! How many pages the kernel's own address space takes. Each table is made once, by the
first page below it, so the free pages are enough exactly if there is one for the
PML4 and one for each table that some region reaches into. -/

namespace Hotarubi.Memory.Virtmm
open Base Radix Stock

/-- The indices that lead to a table, from its number on its level. -/
def pathOf : Nat → Nat → List (Fin 512)
  | 0, _ => []
  | depth + 1, n => ⟨n % 512, Nat.mod_lt n (by decide)⟩ :: pathOf depth (n / 512)

/-- The tables above the pages of an interval. Level 1 has the page tables, level 3 the
PDPTs, and a table is numbered by the first page below it. -/
def tablesOver (first last : Nat) : Finset (Nat × Nat) :=
  (Finset.Icc 1 3).biUnion fun level => (Finset.Icc (first / 512 ^ level) (last / 512 ^ level)).image (Prod.mk level)

/-- The tables there are below a root. -/
def tablesIn (base : UInt64) (mem : UInt64 → UInt64) (root : UInt64) : Set (Nat × Nat) :=
  {t | (1 ≤ t.1 ∧ t.1 ≤ 3) ∧ t.2 < 512 ^ (4 - t.1) ∧ walk (link base mem) root (pathOf (4 - t.1) t.2) ≠ none}

private theorem mem_tablesOver {first last level n : Nat} : (level, n) ∈ tablesOver first last ↔
    (1 ≤ level ∧ level ≤ 3) ∧ first / 512 ^ level ≤ n ∧ n ≤ last / 512 ^ level := by
  simp [tablesOver]

private theorem tablesOver_succ {first last : Nat} (order : first < last) :
    tablesOver first last = tablesOver first first ∪ tablesOver (first + 1) last := by
  ext ⟨level, n⟩
  simp only [Finset.mem_union, mem_tablesOver, ← and_or_left]
  apply and_congr_right
  intro _
  have up : first / 512 ^ level ≤ (first + 1) / 512 ^ level := Nat.div_le_div_right (Nat.le_succ first)
  have step : (first + 1) / 512 ^ level ≤ first / 512 ^ level + 1 := by
    rw [Nat.succ_div]
    split <;> omega
  have far : first / 512 ^ level ≤ last / 512 ^ level := Nat.div_le_div_right (Nat.le_of_lt order)
  omega

private theorem pathOf_inj {depth n m : Nat} (small : n < 512 ^ depth) (small' : m < 512 ^ depth) :
    pathOf depth n = pathOf depth m ↔ n = m := by
  induction depth generalizing n m with
  | zero => simp only [pathOf, true_iff]; omega
  | succ depth ih =>
    rw [Nat.pow_succ] at small small'
    rw [pathOf, pathOf, List.cons_eq_cons, ih (by omega) (by omega), Fin.mk.injEq]
    omega

private theorem pathOf_length (depth n : Nat) : (pathOf depth n).length = depth := by
  induction depth generalizing n with
  | zero => rfl
  | succ depth ih => rw [pathOf, List.length_cons, ih]

private theorem pageNumber_lt (v : VirtAddr) : pageNumber v < 512 ^ 4 := Nat.mod_lt _ (by decide)

private theorem table_lt (v : VirtAddr) {level : Nat} (within : 1 ≤ level ∧ level ≤ 3) :
    pageNumber v / 512 ^ level < 512 ^ (4 - level) := by
  rw [Nat.div_lt_iff_lt_mul (Nat.pow_pos (by decide)), ← Nat.pow_add, Nat.sub_add_cancel (by omega)]
  exact pageNumber_lt v

private theorem index_val (v : VirtAddr) : (pdtIndex v).val = pageNumber v / 512 % 512 ∧
    (pdptIndex v).val = pageNumber v / 512 / 512 % 512 ∧ (pml4Index v).val = pageNumber v / 512 / 512 / 512 % 512 := by
  simp only [pdtIndex, pdptIndex, pml4Index, tableIndex_val, pageNumber, UInt64.toNat_shiftRight, Nat.shiftRight_eq_div_pow,
    show (21 : UInt64).toNat % 64 = 21 from rfl, show (30 : UInt64).toNat % 64 = 30 from rfl,
    show (39 : UInt64).toNat % 64 = 39 from rfl]
  omega

private theorem pathOf_page (v : VirtAddr) : pathOf 3 (pageNumber v / 512 ^ 1) = directories v ∧
    pathOf 2 (pageNumber v / 512 ^ 2) = [pdptIndex v, pml4Index v] ∧ pathOf 1 (pageNumber v / 512 ^ 3) = [pml4Index v] := by
  obtain ⟨pdt, pdpt, pml4⟩ := index_val v
  have two : pageNumber v / 512 ^ 2 = pageNumber v / 512 / 512 := by omega
  have three : pageNumber v / 512 ^ 3 = pageNumber v / 512 / 512 / 512 := by omega
  rw [two, three, Nat.pow_one]
  simp only [pathOf, directories, List.cons.injEq, Fin.ext_iff, pdt, pdpt, pml4, and_self]

private theorem pageNumber_next {v : VirtAddr} (below : pageNumber v + 1 < 2 ^ 36) : pageNumber (v + pageSize) =
    pageNumber v + 1 := by
  have step := pageNumber_add v 1
  rw [show UInt64.ofNat 1 * pageSize = pageSize from rfl] at step
  omega

section Steps

variable {σ : Type} {pages : PageSource σ} {base : UInt64} {valid : σ → Prop} {live : σ → UInt64 → Prop}
  {spare : σ → Nat} {root : UInt64} {s s' : State σ} {mem : UInt64 → UInt64}

private theorem mem_tablesIn_page (v : VirtAddr) {level : Nat} (within : 1 ≤ level ∧ level ≤ 3) :
    (level, pageNumber v / 512 ^ level) ∈ tablesIn base mem root ↔
      walk (link base mem) root (pathOf (4 - level) (pageNumber v / 512 ^ level)) ≠ none := by
  exact ⟨fun there => there.2.2, fun found => ⟨within, table_lt v within, found⟩⟩

private theorem tablesOver_page (n : Nat) : tablesOver n n = {(1, n / 512 ^ 1), (2, n / 512 ^ 2), (3, n / 512 ^ 3)} := by
  ext ⟨level, k⟩
  simp only [mem_tablesOver, Finset.mem_insert, Finset.mem_singleton, Prod.mk.injEq]
  constructor
  · intro bounds
    obtain ⟨⟨low, high⟩, least, most⟩ := bounds
    obtain rfl := Nat.le_antisymm most least
    have levels : level = 1 ∨ level = 2 ∨ level = 3 := by omega
    rcases levels with rfl | rfl | rfl <;> simp
  · intro cases
    rcases cases with ⟨rfl, rfl⟩ | ⟨rfl, rfl⟩ | ⟨rfl, rfl⟩ <;> simp

private theorem missing_eq_due (v : VirtAddr) :
    missing base mem root v = due (tablesIn base mem root) (tablesOver (pageNumber v) (pageNumber v)) := by
  classical
  obtain ⟨pt, pdt, pdpt⟩ := pathOf_page v
  have at1 := @mem_tablesIn_page base root mem v 1 (by decide)
  have at2 := @mem_tablesIn_page base root mem v 2 (by decide)
  have at3 := @mem_tablesIn_page base root mem v 3 (by decide)
  simp only [pt, pdt, pdpt, Nat.reduceSub] at at1 at2 at3
  rw [due, tablesOver_page, Finset.card_filter, Finset.sum_insert (by simp), Finset.sum_insert (by simp),
    Finset.sum_singleton]
  simp only [at1, at2, at3, not_not, missing, lacking, directories, walk, Option.bind_some]
  cases first : link base mem root (pml4Index v) with
  | none => simp
  | some pdpt =>
    cases second : link base mem pdpt (pdptIndex v) with
    | none => simp [second]
    | some pdt =>
      cases third : link base mem pdt (pdtIndex v) with
      | none => simp [second, third]
      | some pt => simp [second, third]

private theorem nextTable_walks (supply : Supply pages base valid live) (offset : BaseOffset base)
    (good : Good base valid live root s) {path : List (Fin 512)} (short : path.length < 3) {t : UInt64}
    (reached : walk (link base s.mem) root path = some t) {i : Fin 512} {ptr : UInt64}
    (granted : (nextTable pages s (t + base) i).1 = some ptr) {q : List (Fin 512)} (brief : q.length ≤ 3) :
    walk (link base (nextTable pages s (t + base) i).2.mem) root q ≠ none ↔
      walk (link base s.mem) root q ≠ none ∨ q = i :: path := by
  cases linked : link base s.mem t i with
  | some u =>
    rw [nextTable_present supply offset good ⟨path, Nat.le_of_lt_succ short, reached⟩ linked]
    refine ⟨.inl, fun there => there.elim id fun same => ?_⟩
    rw [same, walk_cons reached, linked]
    exact Option.some_ne_none u
  | none =>
    have keeps := supply.keeps s.physmm Physmm.kLocked good.valid
    have grants := supply.grants s.physmm Physmm.kLocked
    have parent := good.tables.frames t ⟨path, Nat.le_of_lt short, reached⟩
    have null : tableAt pages s (t + base) i = 0 := by
      rcases tableAt_cases (supply.offset _ good.valid) good ⟨path, Nat.le_of_lt_succ short, reached⟩ i with
        ⟨_, null⟩ | ⟨u, linked', _⟩
      · exact null
      · rw [linked] at linked'
        cases linked'
    simp only [nextTable, null, if_true] at granted ⊢
    cases allocated : pages.allocPage Physmm.kLocked s.physmm with
    | mk answer physmm =>
      rw [allocated] at keeps grants granted
      cases answer with
      | none => cases granted
      | some ptr =>
        obtain ⟨u, rfl, child, fresh, _⟩ := grants ptr good.valid rfl
        have entry : physAddr (pages.physicalBaseOffset physmm) (u + base) = u := by
          rw [supply.offset physmm keeps, physAddr, if_neg (add_base_ne_zero offset child), UInt64.add_sub_cancel]
        have hooks : Hooks base s.mem ((({ s with physmm } : State σ).zeroPage (u + base)).store (t + base) i
            (u ||| (kPresent ||| kWritable))).mem t i u :=
          fun w table j => mem_hook offset parent.1 child table i j _
        have hook := hooks.hooked good short reached linked child fresh
        have walked := hook.walk_eq good.tables.unshared brief
        simp only [State.zeroPage] at walked ⊢
        rw [entry, walked]
        by_cases new : q = i :: path
        · simp [new]
        · simp [new]

private theorem nextTable_cost (supply : CountedSupply pages base valid live spare) (offset : BaseOffset base)
    (good : Good base valid live root s) {path : List (Fin 512)} (short : path.length < 3) {t u : UInt64}
    (reached : walk (link base s.mem) root path = some t) {i : Fin 512}
    (granted : (nextTable pages s (t + base) i).1 = some (u + base)) (rest : List (Fin 512)) :
    spare (nextTable pages s (t + base) i).2.physmm + lacking base s.mem t (i :: rest) =
      spare s.physmm + lacking base (nextTable pages s (t + base) i).2.mem u rest := by
  cases linked : link base s.mem t i with
  | some w =>
    rw [nextTable_present supply.toSupply offset good ⟨path, Nat.le_of_lt_succ short, reached⟩ linked] at granted ⊢
    obtain rfl : w = u := by simpa using granted
    simp only [lacking, linked]
  | none =>
    rcases nextTable_missing supply offset good short reached linked with ⟨refused, _⟩ | ⟨w, granted', spent, empty⟩
    · rw [refused] at granted
      cases granted
    · obtain rfl : w = u := by
        rw [granted'] at granted
        simpa using granted
      rw [lacking_of_empty empty, ← spent]
      simp only [lacking, linked]
      omega

/-- The paths to the tables on the way down. -/
def along : List (Fin 512) → List (Fin 512) → List (List (Fin 512))
  | _, [] => []
  | path, i :: rest => (i :: path) :: along (i :: path) rest

/-- The way down when it was granted: the tables on it are there, no others are new, and
each that was missing took one page. -/
structure Descended (base : UInt64) (valid : σ → Prop) (live : σ → UInt64 → Prop) (spare : σ → Nat) (root : UInt64)
    (s : State σ) (t : UInt64) (path rest : List (Fin 512)) (ptr : UInt64) (s' : State σ) : Prop where
  good : Good base valid live root s'
  reaches : ∃ u, ptr = u + base ∧ walk (link base s'.mem) root (rest.reverseAux path) = some u
  spends : spare s'.physmm + lacking base s.mem t rest = spare s.physmm
  walks : ∀ q, q.length ≤ 3 →
    (walk (link base s'.mem) root q ≠ none ↔ walk (link base s.mem) root q ≠ none ∨ q ∈ along path rest)

theorem descend_spec (supply : CountedSupply pages base valid live spare) (offset : BaseOffset base)
    {rest path : List (Fin 512)} (good : Good base valid live root s)
      (short : path.length + rest.length ≤ 3) {t ptr : UInt64}
    (reached : walk (link base s.mem) root path = some t) (granted : (descend pages s (t + base) rest).1 = some ptr) :
    Descended base valid live spare root s t path rest ptr (descend pages s (t + base) rest).2 := by
  induction rest generalizing s path t with
  | nil =>
    cases granted
    exact ⟨good, ⟨t, rfl, reached⟩, rfl, fun q brief => by simp [along, descend]⟩
  | cons i rest ih =>
    rw [List.length_cons] at short
    obtain ⟨grown, next⟩ := nextTable_spec supply.toSupply offset good (by omega) reached i
    have walks := fun {ptr} (granted : (nextTable pages s (t + base) i).1 = some ptr) {q : List (Fin 512)}
        (brief : q.length ≤ 3) => nextTable_walks supply.toSupply offset good (by omega) reached granted brief
    have cost := fun {u} => nextTable_cost supply offset good (by omega) reached (i := i) (u := u)
    rw [descend] at granted ⊢
    cases level : nextTable pages s (t + base) i with
    | mk answer s1 =>
      rw [level] at granted grown next walks cost
      cases answer with
      | none => cases granted
      | some ptr1 =>
        obtain ⟨u, rfl, further⟩ := next _ rfl
        have down := ih grown.good (by rw [List.length_cons]; omega) further granted
        have spent := cost rfl rest
        refine ⟨down.good, down.reaches, ?_, fun q brief => ?_⟩
        · have later := down.spends
          dsimp only at spent later ⊢
          omega
        · rw [down.walks q brief, walks rfl brief, along, List.mem_cons, or_assoc]

private theorem mem_along_page (v : VirtAddr) {q : List (Fin 512)} : q ∈ along [] [pml4Index v, pdptIndex v, pdtIndex v] ↔
    ∃ level, (1 ≤ level ∧ level ≤ 3) ∧ q = pathOf (4 - level) (pageNumber v / 512 ^ level) := by
  obtain ⟨pt, pdt, pdpt⟩ := pathOf_page v
  simp only [along, List.mem_cons, List.not_mem_nil, or_false]
  constructor
  · intro cases
    rcases cases with rfl | rfl | rfl
    · exact ⟨3, by decide, pdpt.symm⟩
    · exact ⟨2, by decide, pdt.symm⟩
    · exact ⟨1, by decide, pt.symm⟩
  · intro passed
    obtain ⟨level, within, same⟩ := passed
    have levels : level = 1 ∨ level = 2 ∨ level = 3 := by omega
    rcases levels with rfl | rfl | rfl
    · exact .inr (.inr (same.trans pt))
    · exact .inr (.inl (same.trans pdt))
    · exact .inl (same.trans pdpt)

private theorem pathOf_page_iff (v : VirtAddr) {level n : Nat} (small : n < 512 ^ (4 - level))
    (within : 1 ≤ level ∧ level ≤ 3) :
    pathOf (4 - level) n ∈ along [] [pml4Index v, pdptIndex v, pdtIndex v] ↔ n = pageNumber v / 512 ^ level := by
  rw [mem_along_page]
  constructor
  · intro passed
    obtain ⟨other, within', same⟩ := passed
    have deep := congrArg List.length same
    rw [pathOf_length, pathOf_length] at deep
    obtain rfl : level = other := by omega
    exact (pathOf_inj small (table_lt v within)).mp same
  · intro same
    exact ⟨level, within, congrArg (pathOf (4 - level)) same⟩

private theorem mapPage_drawn (supply : CountedSupply pages base valid live spare) (offset : BaseOffset base)
    (good : Good base valid live root s) {v : VirtAddr} {p : PhysAddr} {flags : UInt64}
    (mapped : mapPage pages s (root + base) v p flags = (true, s')) :
    Drawn (tablesOver (pageNumber v) (pageNumber v)) (tablesIn base s.mem root) (tablesIn base s'.mem root)
      (spare s.physmm) (spare s'.physmm) := by
  have short : ([] : List (Fin 512)).length + [pml4Index v, pdptIndex v, pdtIndex v].length ≤ 3 := Nat.le_refl 3
  rw [mapPage_eq] at mapped
  cases way : descend pages s (root + base) [pml4Index v, pdptIndex v, pdtIndex v] with
  | mk answer s1 =>
    rw [way] at mapped
    cases answer with
    | none => cases mapped
    | some pt =>
      have down := descend_spec supply offset good short rfl (congrArg Prod.fst way)
      rw [way] at down
      obtain ⟨u, rfl, found⟩ := down.reaches
      cases mapped
      have stored := fun {q : List (Fin 512)} (brief : q.length ≤ 3) =>
        store_walk offset down.good (v := v) found (p ||| (kPresent ||| flags)) brief
      constructor
      · intro ⟨level, n⟩
        have brief : (pathOf (4 - level) n).length ≤ 4 - level := Nat.le_of_eq (pathOf_length _ _)
        simp only [tablesIn, Set.mem_ofPred_eq, mem_tablesOver]
        by_cases within : (1 ≤ level ∧ level ≤ 3) ∧ n < 512 ^ (4 - level)
        · obtain ⟨within, small⟩ := within
          rw [stored (by omega), down.walks _ (by omega), pathOf_page_iff v small within]
          simp only [within, small, and_self, true_and]
          apply or_congr_right
          omega
        · constructor
          · intro there
            exact absurd ⟨there.1, there.2.1⟩ within
          · intro there
            rcases there with ⟨levels, small, _⟩ | ⟨levels, least, most⟩
            · exact absurd ⟨levels, small⟩ within
            · exact absurd ⟨levels, Nat.lt_of_le_of_lt most (table_lt v levels)⟩ within
      · rw [← missing_eq_due]
        exact down.spends

private theorem mapPages_drawn (supply : CountedSupply pages base valid live spare) (offset : BaseOffset base)
    (flags : UInt64)
    {more : Nat} (good : Good base valid live root s) {v : VirtAddr} {p : PhysAddr} (inside : pageNumber v + more < 2 ^ 36)
    (mapped : mapPages pages s (root + base) v p flags more = (true, s')) :
    Drawn (tablesOver (pageNumber v) (pageNumber v + more)) (tablesIn base s.mem root) (tablesIn base s'.mem root)
      (spare s.physmm) (spare s'.physmm) := by
  induction more generalizing s v p with
  | zero => exact mapPage_drawn supply offset good mapped
  | succ more ih =>
    rw [mapPages] at mapped
    cases first : mapPage pages s (root + base) v p flags with
    | mk granted s1 =>
      rw [first] at mapped
      cases granted with
      | false => cases mapped
      | true =>
        have spec := mapPage_spec supply.toSupply offset good v p flags
        rw [first] at spec
        have next : pageNumber (v + pageSize) = pageNumber v + 1 := pageNumber_next (by omega)
        have drawn := (mapPage_drawn supply offset good first).trans (ih spec.good (by omega) mapped)
        rw [next, Nat.add_right_comm, ← tablesOver_succ (by omega)] at drawn
        exact drawn

/-- A stretch of pages is mapped exactly if there is a page for each table above it that
is not there yet. -/
private theorem mapPages_granted (supply : CountedSupply pages base valid live spare) (offset : BaseOffset base)
    (flags : UInt64)
    {more : Nat} (good : Good base valid live root s) {v : VirtAddr} {p : PhysAddr}
      (inside : pageNumber v + more < 2 ^ 36) :
    (mapPages pages s (root + base) v p flags more).1 = true ↔
      due (tablesIn base s.mem root) (tablesOver (pageNumber v) (pageNumber v + more)) ≤ spare s.physmm := by
  induction more generalizing s v p with
  | zero => rw [mapPages, mapPage_granted supply offset good, missing_eq_due, Nat.add_zero]
  | succ more ih =>
    have here := mapPage_granted supply offset good v p flags
    have part : tablesOver (pageNumber v) (pageNumber v + (more + 1)) = tablesOver (pageNumber v) (pageNumber v) ∪
        tablesOver (pageNumber v + 1) (pageNumber v + (more + 1)) := tablesOver_succ (by omega)
    rw [mapPages, part]
    rw [missing_eq_due] at here
    cases first : mapPage pages s (root + base) v p flags with
    | mk granted s1 =>
      rw [first] at here
      cases granted with
      | false =>
        have refused := mt here.mpr Bool.false_ne_true
        have contained : tablesOver (pageNumber v) (pageNumber v) ⊆ tablesOver (pageNumber v) (pageNumber v) ∪
            tablesOver (pageNumber v + 1) (pageNumber v + (more + 1)) := Finset.subset_union_left
        have whole : due (tablesIn base s.mem root) _ ≤ due (tablesIn base s.mem root) _ := due_mono contained
        simp only [Bool.false_eq_true, false_iff]
        omega
      | true =>
        have spec := mapPage_spec supply.toSupply offset good v p flags
        rw [first] at spec
        have next : pageNumber (v + pageSize) = pageNumber v + 1 := pageNumber_next (by omega)
        rw [(mapPage_drawn supply offset good first).enough_iff]
        have rest := ih spec.good (v := v + pageSize) (p := p + pageSize) (by omega)
        rw [next, Nat.add_right_comm, Nat.add_assoc] at rest
        exact rest

/-- The tables above the pages of a region. -/
def Region.tables (r : Region) : Finset (Nat × Nat) := tablesOver (pageNumber r.vaddr) (pageNumber r.vaddr + r.last)

def tablesOfAll : List Region → Finset (Nat × Nat)
  | [] => ∅
  | r :: regions => r.tables ∪ tablesOfAll regions

private theorem mapOrPanic_granted (supply : CountedSupply pages base valid live spare) (offset : BaseOffset base)
    (good : Good base valid live root s) {r : Region} (sound : r.Sound) :
    ((mapOrPanic pages (root + base) r.vaddr r.paddr r.len r.flags s).isSome ↔
      due (tablesIn base s.mem root) r.tables ≤ spare s.physmm) ∧
    ∀ s', mapOrPanic pages (root + base) r.vaddr r.paddr r.len r.flags s = some s' →
      Drawn r.tables (tablesIn base s.mem root) (tablesIn base s'.mem root) (spare s.physmm) (spare s'.physmm) := by
  have granted := mapPages_granted supply offset r.flags good (p := r.paddr) sound.inside
  rw [Region.tables, ← granted]
  simp only [mapOrPanic, mapRegion, add_base_ne_zero offset good.root, if_false, pageCount_eq sound]
  cases ran : mapPages pages s (root + base) r.vaddr r.paddr r.flags r.last with
  | mk answer after =>
    cases answer with
    | false => simp
    | true =>
      refine ⟨by simp, fun s' same => ?_⟩
      cases same
      exact mapPages_drawn supply offset r.flags good sound.inside ran

/-- Regions are mapped exactly if there is a page for each of their tables that is not
there yet, and then these are the pages they take. -/
private theorem mapAll_granted (supply : CountedSupply pages base valid live spare) (offset : BaseOffset base)
    {regions : List Region} (sound : ∀ r ∈ regions, r.Sound) (good : Good base valid live root s) :
    ((mapAll pages (root + base) regions s).isSome ↔
      due (tablesIn base s.mem root) (tablesOfAll regions) ≤ spare s.physmm) ∧
    ∀ s', mapAll pages (root + base) regions s = some s' →
      spare s'.physmm + due (tablesIn base s.mem root) (tablesOfAll regions) = spare s.physmm := by
  induction regions generalizing s with
  | nil =>
    refine ⟨by simp [mapAll, tablesOfAll, due], fun s' same => ?_⟩
    cases same
    rfl
  | cons r regions ih =>
    obtain ⟨first, later⟩ := List.forall_mem_cons.mp sound
    obtain ⟨granted, drawn⟩ := mapOrPanic_granted supply offset good first
    rw [mapAll, tablesOfAll]
    cases ran : mapOrPanic pages (root + base) r.vaddr r.paddr r.len r.flags s with
    | none =>
      have refused : ¬ due (tablesIn base s.mem root) r.tables ≤ spare s.physmm := by
        rw [← granted, ran]
        simp
      have contained : r.tables ⊆ r.tables ∪ tablesOfAll regions := Finset.subset_union_left
      have whole : due (tablesIn base s.mem root) _ ≤ due (tablesIn base s.mem root) _ := due_mono contained
      simp only [Option.bind_eq_bind, Option.bind_none, Option.isSome_none, Bool.false_eq_true, false_iff]
      refine ⟨by omega, fun s' same => ?_⟩
      cases same
    | some s1 =>
      obtain ⟨good1, _, _⟩ := mapOrPanic_spec supply.toSupply offset good first ran
      obtain ⟨enough, spent⟩ := ih later good1
      have step := drawn s1 ran
      rw [step.enough_iff]
      refine ⟨enough, fun s' rest => ?_⟩
      have cost := step.spends
      have others := spent s' rest
      rw [due_union step.adds]
      omega

private theorem tablesIn_empty (links : ∀ i, link base mem root i = none) (t : Nat × Nat) : t ∉ tablesIn base mem root := by
  intro ⟨within, _, found⟩
  cases reached : walk (link base mem) root (pathOf (4 - t.1) t.2) with
  | none => exact found reached
  | some w =>
    have top := congrArg List.length (walk_of_empty links reached).1
    rw [pathOf_length, List.length_nil] at top
    omega

private theorem emptySpace_granted (supply : CountedSupply pages 0 valid live spare) (ready : valid s.physmm) :
    ((emptySpace pages s).isSome ↔ 0 < spare s.physmm) ∧ ∀ s', emptySpace pages s = some s' →
      spare s'.physmm + 1 = spare s.physmm ∧ ∀ t, t ∉ tablesIn 0 s'.mem s'.systemPml4 := by
  have granted := supply.granted s.physmm Physmm.kLocked ready
  have spends := supply.spends s.physmm Physmm.kLocked
  have grants := supply.grants s.physmm Physmm.kLocked
  unfold emptySpace
  cases allocated : pages.allocPage Physmm.kLocked s.physmm with
  | mk answer physmm =>
    rw [allocated] at granted spends grants
    cases answer with
    | none => simp [← granted]
    | some ptr =>
      refine ⟨by simp [← granted], fun s' same => ?_⟩
      cases same
      obtain ⟨page, rfl, inside, _, _⟩ := grants ptr ready rfl
      have zeroed := mem_zeroPage (.inl rfl) ({ s with physmm, systemPml4 := page + 0 } : State σ) inside inside
      simp only [UInt64.add_zero, if_true] at zeroed ⊢
      refine ⟨spends _ ready rfl, tablesIn_empty fun i => ?_⟩
      have entry : frame (((State.zeroPage { s with physmm, systemPml4 := page } page : State σ)).mem
        (slot page i)) = 0 := by
        rw [zeroed]
        rfl
      rw [link, UInt64.add_zero]
      exact if_pos entry

/-- `_create_system_vm` returns exactly if there is a page for the PML4 and for each
table of its regions, and these are the pages it takes. -/
theorem createSystemVm_granted (supply : CountedSupply pages 0 valid live spare) (ready : valid s.physmm) {image : Image}
    {memoryUpperBound : PhysAddr} (linked : image.Linked) (low : 0 < memoryUpperBound.toNat)
    (high : memoryUpperBound.toNat ≤ 2 ^ 46) :
    ((createSystemVm pages s image memoryUpperBound).isSome ↔
      (tablesOfAll (systemRegions image memoryUpperBound)).card < spare s.physmm) ∧
    ∀ s', createSystemVm pages s image memoryUpperBound = some s' →
      spare s'.physmm + (tablesOfAll (systemRegions image memoryUpperBound)).card + 1 = spare s.physmm := by
  obtain ⟨granted, spent⟩ := emptySpace_granted supply ready
  have total : (systemRegions image memoryUpperBound).take 6 = systemRegions image memoryUpperBound := rfl
  rw [createSystemVm_eq, afterCalls, total]
  cases started : emptySpace pages s with
  | none =>
    rw [started] at granted
    have exhausted : ¬ 0 < spare s.physmm := by
      rw [← granted]
      simp
    simp only [Option.bind_none, Option.isSome_none, Bool.false_eq_true, false_iff]
    refine ⟨by omega, fun s' same => ?_⟩
    cases same
  | some s0 =>
    obtain ⟨cost, empty⟩ := spent s0 started
    obtain ⟨good, _⟩ := emptySpace_good supply.toSupply ready started
    obtain ⟨all, taken⟩ := mapAll_granted supply (.inl rfl) (systemRegions_sound linked low high) good
    rw [due_of_none empty, UInt64.add_zero] at all taken
    rw [Option.bind_some, all]
    refine ⟨by omega, fun s' rest => ?_⟩
    have others := taken s' rest
    omega

end Steps

section Boot

variable {m : Physmm.State} {image : Image} {info : Physmm.BootInfo} {b : Physmm.Booted}

theorem Booting.created_iff (boot : Booting m image info b) (mem : UInt64 → UInt64) (cr3 systemPml4 : UInt64) :
    (createSystemVm physmmSource ⟨mem, cr3, systemPml4, b.state⟩ image b.memoryUpperBound).isSome ↔
      (tablesOfAll (systemRegions image b.memoryUpperBound)).card < Physmm.spare b.state := by
  have ready : Balanced 0 b.state := ⟨boot.lending.toReady, boot.started.accounted⟩
  exact (createSystemVm_granted (physmm_counted 0) ready boot.linked boot.nonempty boot.high).1

end Boot

section Example

/-- A small image. -/
def smallImage : Image := ⟨0xffffffff80106000, 0xffffffff80110000, 0xffffffff80111000, 0xffffffff80120000⟩

/-- 16 MiB with little memory in them. -/
def smallMemory : Physmm.BootInfo :=
  ⟨0, [], ⟨0, 0x9fc00, 1⟩, [⟨0x9fc00, 0x400, 2⟩, ⟨0x100000, 0x60000, 1⟩, ⟨0xfff000, 0x1000, 1⟩]⟩

def smallBoot : Physmm.Booted :=
  (Physmm.init (Physmm.setMemoryMap [] 0) smallImage.ending smallMemory).get (by decide +kernel)

theorem smallBoot_booting : Booting (Physmm.setMemoryMap [] 0) smallImage smallMemory smallBoot where
  linked := ⟨by decide, by decide, by decide, by decide, by decide, by decide, by decide⟩
  booted := (Option.some_get _).symm
  fresh := rfl
  last := by decide +kernel
  high := by decide +kernel

/-- There are 16 tables, and 24 pages are free from the one at 0x140000 on. -/
theorem smallBoot_enough :
    (tablesOfAll (systemRegions smallImage smallBoot.memoryUpperBound)).card < Physmm.spare smallBoot.state := by
  have tables : (tablesOfAll (systemRegions smallImage smallBoot.memoryUpperBound)).card = 16 := by decide +kernel
  have free : ∀ i ∈ Finset.Ico 328 352, i < smallBoot.state.mapBits ∧ i < smallBoot.state.searched ∧
      smallBoot.state.used i = false := by decide +kernel
  have part : Finset.Ico 328 352 ⊆ (Finset.range smallBoot.state.mapBits).filter fun i =>
      i < smallBoot.state.searched ∧ smallBoot.state.used i = false := by
    intro i member
    obtain ⟨inside, rest⟩ := free i member
    exact Finset.mem_filter.mpr ⟨Finset.mem_range.mpr inside, rest⟩
  have count := Finset.card_le_card part
  rw [Nat.card_Ico] at count
  rw [tables, Physmm.spare]
  omega

end Example

end Hotarubi.Memory.Virtmm
