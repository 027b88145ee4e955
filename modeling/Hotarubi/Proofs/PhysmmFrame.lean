import Hotarubi.Proofs.PhysmmAddress

/-! Page metadata against the bitmap. The metadata loops are entered once more
than the bitmap loops they accompany, so a call rewrites the entry of the page
behind its range as well. -/

namespace Hotarubi.Memory.Physmm

/-- The entry the `k`-th pass of a metadata loop selects. -/
def visited (m : State) (addr : PhysAddr) (k : Nat) : Nat :=
  (xpa m (addr + UInt64.ofNat k * pageSize) >>> pageShift).toNat

private theorem visited_succ {m after : State} (same : after.memoryMapBase = m.memoryMapBase) (addr : PhysAddr) (k : Nat) :
    visited after (addr + pageSize) k = visited m addr (k + 1) := by
  simp only [visited, xpa, same, addr_succ]

/-- The metadata loop rewrites the entries it selects and no others. -/
theorem setPages_pageMaps (m : State) (addr : PhysAddr) (entry : Nat → PageMap) (len i : Nat) :
    (setPages m addr entry len).pageMaps i =
      if ∃ k ≤ len, visited m addr k = i then entry i else m.pageMaps i := by
  have first (m : State) (addr : PhysAddr) (i : Nat) :
      (m.setPage addr entry).pageMaps i = if visited m addr 0 = i then entry i else m.pageMaps i := by
    have start : addr + UInt64.ofNat 0 * pageSize = addr := by simp
    simp only [State.setPage, visited, start, Function.update_apply, eq_comm (a := i)]
    split
    next same => rw [same]
    next => rfl
  induction len generalizing m addr with
  | zero =>
    rw [setPages, first]
    simp
  | succ len ih =>
    rw [setPages, ih, first]
    simp only [visited_succ (show (m.setPage addr entry).memoryMapBase = m.memoryMapBase from rfl)]
    have cases : (∃ k ≤ len + 1, visited m addr k = i) ↔
        visited m addr 0 = i ∨ ∃ k ≤ len, visited m addr (k + 1) = i := by
      constructor
      · rintro ⟨k, bound, same⟩
        cases k with
        | zero => exact .inl same
        | succ k => exact .inr ⟨k, by omega, same⟩
      · rintro (same | ⟨k, bound, same⟩)
        · exact ⟨0, by omega, same⟩
        · exact ⟨k + 1, by omega, same⟩
    simp only [cases]
    split <;> split <;> simp_all

namespace Call

/-- The metadata entries a call rewrites: one more than the pages of its range. -/
def visits (m : State) (call : Call) : List Nat :=
  match call.range m with
  | none => []
  | some (addr, len) => (List.range (len + 1)).map (visited m addr)

/-- The pages of the map a call takes or gives back: those of its range that
were in the other state. -/
def marks (m : State) (call : Call) (i : Nat) : Bool :=
  match call.range m with
  | none => false
  | some (addr, len) =>
    decide ((addr / pageSize).toNat ≤ i ∧ i < (addr / pageSize).toNat + len ∧ i < m.mapBits) &&
      m.used i != call.takes

private theorem marks_iff (m : State) (call : Call) (i : Nat) :
    call.marks m i = true ↔ (call.exec m).2.used i ≠ m.used i := by
  have bits := call.exec_used m i
  unfold marks
  cases ranged : call.range m with
  | none => simpa [ranged] using bits
  | some range =>
    obtain ⟨addr, len⟩ := range
    simp only [ranged] at bits ⊢
    rw [bits]
    by_cases inside : (addr / pageSize).toNat ≤ i ∧ i < (addr / pageSize).toNat + len ∧ i < m.mapBits
    · simp [inside, -UInt64.toNat_div, ne_comm]
    · simp [inside, -not_and, -UInt64.toNat_div]

theorem exec_pageMaps (m : State) (call : Call) (i : Nat) :
    (call.exec m).2.pageMaps i = if i ∈ call.visits m then call.entry m i else m.pageMaps i := by
  rw [exec_eq]
  unfold visits
  cases call.range m with
  | none => simp
  | some range =>
    have same := markRange_layout m call.takes (range.1 / pageSize).toNat range.2
    simp only [setPages_pageMaps, same.2, visited, xpa, same.1.base, List.mem_map, List.mem_range,
      Nat.lt_succ_iff]

end Call

/-- A call rewrites the metadata of exactly the pages whose state it changes. -/
def FrameLaw (m : State) (call : Call) : Prop :=
  ∀ i < m.mapBits, (call.exec m).2.pageMaps i =
    if (call.exec m).2.used i ≠ m.used i then call.entry m i else m.pageMaps i

/-- Wherever the metadata loop and the bitmap loop disagree, the entry already
holds the value the call writes. -/
def MetadataAgrees (m : State) (call : Call) : Prop :=
  ∀ i < m.mapBits, (i ∈ call.visits m ↔ call.marks m i = true) ∨ m.pageMaps i = call.entry m i

private theorem Call.frame_at (m : State) (call : Call) (i : Nat) :
    (call.exec m).2.pageMaps i = (if (call.exec m).2.used i ≠ m.used i then call.entry m i else m.pageMaps i) ↔
      (i ∈ call.visits m ↔ call.marks m i = true) ∨ m.pageMaps i = call.entry m i := by
  simp only [call.exec_pageMaps, ← call.marks_iff]
  by_cases visit : i ∈ call.visits m <;> by_cases mark : call.marks m i = true <;>
    simp [visit, mark, eq_comm]

theorem frame_law_iff (m : State) (call : Call) : FrameLaw m call ↔ MetadataAgrees m call := by
  unfold FrameLaw MetadataAgrees
  exact forall₂_congr fun i _ => call.frame_at m i

theorem page_address {addr : PhysAddr} {k : Nat} (low : addr.toNat / 4096 + k < 2 ^ 38) :
    (addr + UInt64.ofNat k * pageSize).toNat = addr.toNat + k * 4096 := by
  simp only [UInt64.toNat_add, UInt64.toNat_mul, UInt64.toNat_ofNat', pageSize_toNat]
  omega

/-- An address that is physical already leads to its own page. -/
theorem visited_physical {m : State} {addr : PhysAddr} {k : Nat} (low : addr.toNat / 4096 + k < 2 ^ 38)
    (physical : xpa m (addr + UInt64.ofNat k * pageSize) = addr + UInt64.ofNat k * pageSize) :
    visited m addr k = addr.toNat / 4096 + k := by
  rw [visited, physical, shift_page, page_address low]
  omega

theorem visited_at {m : State} {addr : PhysAddr} {k : Nat} (small : addr.toNat / 4096 + k < 2 ^ 31) :
    visited m addr k = addr.toNat / 4096 + k := by
  have low : addr.toNat / 4096 + k < 2 ^ 38 := by omega
  apply visited_physical low
  rw [xpa]
  split
  next =>
    apply pa_eq
    rw [page_address low]
    omega
  next => rfl

private theorem Call.visits_iff {m : State} {call : Call} {addr : PhysAddr} {len : Nat}
    (ranged : call.range m = some (addr, len))
    (low : addr.toNat / 4096 + len < 2 ^ 31) (i : Nat) :
    i ∈ call.visits m ↔ addr.toNat / 4096 ≤ i ∧ i ≤ addr.toNat / 4096 + len := by
  unfold visits
  rw [ranged]
  simp only [List.mem_map, List.mem_range]
  constructor
  · rintro ⟨k, below, rfl⟩
    rw [visited_at (by omega)]
    omega
  · rintro ⟨first, last⟩
    refine ⟨i - addr.toNat / 4096, by omega, ?_⟩
    rw [visited_at (by omega)]
    omega

private theorem Call.marks_range {m : State} {call : Call} {addr : PhysAddr} {len : Nat}
    (ranged : call.range m = some (addr, len))
    (i : Nat) : call.marks m i = true ↔
      (addr.toNat / 4096 ≤ i ∧ i < addr.toNat / 4096 + len ∧ i < m.mapBits) ∧ m.used i ≠ call.takes := by
  unfold marks
  rw [ranged]
  simp only [page_toNat, Bool.and_eq_true, decide_eq_true_eq, bne_iff_ne]

/-- What there is left to ask below 8 TiB: the entries of the page behind the range, and of
the pages of a released range that were free already, have the call's value before it. -/
theorem frame_law_low {m : State} {call : Call} {addr : PhysAddr} {len : Nat} (ranged : call.range m = some (addr, len))
    (low : addr.toNat / 4096 + len < 2 ^ 31) :
    FrameLaw m call ↔
      (addr.toNat / 4096 + len < m.mapBits →
        m.pageMaps (addr.toNat / 4096 + len) = call.entry m (addr.toNat / 4096 + len)) ∧
      ∀ i < m.mapBits, addr.toNat / 4096 ≤ i → i < addr.toNat / 4096 + len → m.used i = call.takes →
        m.pageMaps i = call.entry m i := by
  unfold FrameLaw
  simp only [Call.frame_at, Call.visits_iff ranged low, Call.marks_range ranged]
  generalize addr.toNat / 4096 = page
  constructor
  · intro agrees
    constructor
    · intro inside
      refine (agrees (page + len) inside).resolve_left fun both => ?_
      have marked := both.mp ⟨by omega, Nat.le_refl _⟩
      omega
    · intro i inside first last same
      exact (agrees i inside).resolve_left fun both => (both.mp ⟨first, Nat.le_of_lt last⟩).2 same
  · rintro ⟨behind, already⟩ i inside
    by_cases visit : page ≤ i ∧ i ≤ page + len
    · obtain ⟨first, last⟩ := visit
      rcases Nat.lt_or_eq_of_le last with within | rfl
      · by_cases same : m.used i = call.takes
        · exact .inr (already i inside first within same)
        · exact .inl (iff_of_true ⟨first, last⟩ ⟨⟨first, within, inside⟩, same⟩)
      · exact .inr (behind inside)
    · refine .inl (iff_of_false visit fun marked => visit ?_)
      exact ⟨marked.1.1, Nat.le_of_lt marked.1.2.1⟩

private theorem visited_eq {m : State} {page k : Nat} (small : page + k < 2 ^ 31) :
    visited m (UInt64.ofNat page * pageSize) k = page + k := by
  have start : (UInt64.ofNat page * pageSize).toNat / 4096 = page := by
    rw [UInt64.toNat_mul, UInt64.toNat_ofNat', pageSize_toNat]
    omega
  rw [visited_at (by omega), start]

/-- The page right behind an allocated range has its metadata rewritten although
the call does not allocate it. -/
theorem follower_rewritten {m : State} {call : Call} {page len : Nat}
    (ranged : call.range m = some (UInt64.ofNat page * pageSize, len)) (small : page + len < 2 ^ 31) :
    (call.exec m).2.pageMaps (page + len) = call.entry m (page + len) ∧
      (call.exec m).2.used (page + len) = m.used (page + len) := by
  constructor
  · rw [call.exec_pageMaps, if_pos]
    unfold Call.visits
    rw [ranged]
    exact List.mem_map.mpr ⟨len, by simp, visited_eq small⟩
  · have unmarked : call.marks m (page + len) = false := by
      have index : (UInt64.ofNat page * pageSize / pageSize).toNat = page := by
        rw [UInt64.toNat_div, UInt64.toNat_mul, UInt64.toNat_ofNat', pageSize_toNat]
        omega
      unfold Call.marks
      rw [ranged]
      simp only [index]
      simp
    by_contra changed
    have := (call.marks_iff m (page + len)).mpr changed
    rw [unmarked] at this
    cases this

/-- Allocating page 1 takes the slab mark off page 2. -/
theorem frame_broken :
    ¬ FrameLaw { setMemoryMap [0xfffffffd, 0xffffffff] 63 with
      pageMaps := fun i => if i = 2 then ⟨⟨0, 0xffff880000200000⟩, kLocked ||| kSlab⟩ else unusedPage }
      (.allocPage kActive) := by
  intro law
  exact absurd (law 2 (by decide)) (by decide +kernel)

end Hotarubi.Memory.Physmm
