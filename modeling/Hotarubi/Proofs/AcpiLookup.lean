import Hotarubi.Acpi.Tables
import Mathlib.Data.List.Basic

/-! Looking a table up by its signature. The number of slots is a difference of
unsigned sizes, and a length below that of the header wraps it around. -/

namespace Hotarubi.Acpi

open Memory

/-- Two strings are the same in their first `n` bytes, up to a NUL. -/
def Agree (u1 u2 : Nat → UInt8) (n : Nat) : Prop := ∀ k < n, (∀ j < k, u1 j ≠ 0) → u1 k = u2 k

/-- There is a table with this signature and a valid checksum. -/
structure Matches (mem : Image) (signature : Signature) (table : UInt64) : Prop where
  signed : Agree (fun i => mem (table + .ofNat i)) (signature.getD · 0) 4
  summed : sumBytes mem table (tableLength mem table).toNat = 0

/-- The slots that lie inside a table. -/
def slotCount (mem : Image) (table : UInt64) (width : Nat) : Nat := ((tableLength mem table).toNat - 36) / width

/-- The first of some tables that has the signature, or null. -/
def First (mem : Image) (signature : Signature) (tables : Nat → UInt64) (count : Nat) (res : UInt64) : Prop :=
  (∃ i < count, Matches mem signature (tables i) ∧ (∀ j < i, ¬Matches mem signature (tables j)) ∧ res = tables i) ∨
    ((∀ i < count, ¬Matches mem signature (tables i)) ∧ res = 0)

/-- What is asked of a search: the slots that it reads, and the pointer it ends with. -/
structure LooksUp (mem : Image) (signature : Signature) (table : UInt64) (width : Nat)
    (outcome : List Nat × UInt64) : Prop where
  inside : ∀ i ∈ outcome.1, 36 + (i + 1) * width ≤ (tableLength mem table).toNat
  order : outcome.1 = List.range outcome.1.length
  first : First mem signature (slotTable mem table width) (slotCount mem table width) outcome.2

/-- A slot whose table is the null pointer does not hide a match behind it: `strncmp`
takes null for any string, so that the bytes there only have to sum up to 0. -/
def NullHarmless (mem : Image) (signature : Signature) (table : UInt64) (width : Nat) : Prop :=
  ∀ i k, i < k → k < slotCount mem table width → slotTable mem table width i = 0 →
    sumBytes mem 0 (tableLength mem 0).toNat = 0 → Matches mem signature (slotTable mem table width k) →
    ∃ j ≤ i, Matches mem signature (slotTable mem table width j)

/-- The root that `_get_table` looks into, and the width of its slots. -/
def Roots.root (roots : Roots) : UInt64 × Nat := if roots.rsdt ≠ 0 then (roots.rsdt, 4) else (roots.xsdt, 8)

/-- There is a root, and it has been accepted. -/
def Roots.Accepted (mem : Image) (roots : Roots) : Prop :=
  (roots.rsdt ≠ 0 ∧ check mem roots.rsdt (acpiSig "RSDT")) ∨
    (roots.rsdt = 0 ∧ roots.xsdt ≠ 0 ∧ check mem roots.xsdt (acpiSig "XSDT"))

section Lookup

variable {mem : Image} {signature : Signature} {table : UInt64} {width : Nat}

private theorem agree_succ (u1 u2 : Nat → UInt8) (i n : Nat) :
    Agree (fun k => u1 (i + k)) (fun k => u2 (i + k)) (n + 1) ↔
      u1 i = u2 i ∧ (u1 i ≠ 0 → Agree (fun k => u1 (i + 1 + k)) (fun k => u2 (i + 1 + k)) n) := by
  have shift (k : Nat) : i + 1 + k = i + (k + 1) := by omega
  simp only [shift]
  refine ⟨fun agree => ⟨agree 0 (Nat.zero_lt_succ n) (by simp), ?_⟩, ?_⟩
  · intro nonzero k bound before
    apply agree (k + 1) (Nat.succ_lt_succ bound)
    intro j below
    cases j with
    | zero => exact nonzero
    | succ j => exact before j (Nat.lt_of_succ_lt_succ below)
  · intro both k bound before
    obtain ⟨first, rest⟩ := both
    cases k with
    | zero => exact first
    | succ k =>
      apply rest (before 0 (Nat.zero_lt_succ k)) k (Nat.lt_of_succ_lt_succ bound)
      exact fun j below => before (j + 1) (Nat.succ_lt_succ below)

private theorem strncmpLast_zero (u1 u2 : UInt8) : strncmpLast u1 u2 = 0 ↔ u1 = u2 := by
  unfold strncmpLast
  split
  next same => exact ⟨fun _ => same, fun _ => rfl⟩
  next other =>
    refine ⟨?_, fun same => absurd same other⟩
    split <;> intro zero <;> cases zero

private theorem strncmpFrom_zero (u1 u2 : Nat → UInt8) (i n : Nat) : strncmpFrom u1 u2 i (n + 1) = 0 ↔
    Agree (fun k => u1 (i + k)) (fun k => u2 (i + k)) (n + 1) := by
  induction n generalizing i with
  | zero => simp [strncmpFrom, strncmpLast_zero, Agree]
  | succ n ih =>
    rw [strncmpFrom, agree_succ, ← ih]
    split
    next both =>
      obtain ⟨nonzero, _⟩ := both
      split
      next other =>
        refine ⟨?_, fun same => absurd same.1 other⟩
        split <;> intro zero <;> cases zero
      next same => exact ⟨fun equal => ⟨not_not.mp same, fun _ => equal⟩, fun equal => equal.2 nonzero⟩
    next ended =>
      rw [strncmpLast_zero]
      refine ⟨fun same => ⟨same, fun nonzero => absurd ⟨nonzero, same ▸ nonzero⟩ ended⟩, fun equal => equal.1⟩

theorem strncmp_zero (mem : Image) {addr : UInt64} (constant : Signature) (n : Nat) (nonnull : addr ≠ 0) :
    strncmp mem addr constant (n + 1) = 0 ↔ Agree (fun i => mem (addr + .ofNat i)) (constant.getD · 0) (n + 1) := by
  rw [strncmp, if_neg (by simp [nonnull]), strncmpFrom_zero]
  simp only [Nat.zero_add]

private theorem check_iff (nonnull : table ≠ 0) : check mem table signature = true ↔ Matches mem signature table := by
  have compared := strncmp_zero mem signature 3 nonnull
  rw [check]
  split
  next same => exact ⟨fun summed => ⟨compared.mp same, beq_iff_eq.mp summed⟩, fun found => beq_iff_eq.mpr found.summed⟩
  next other => exact ⟨fun never => Bool.noConfusion never, fun found => absurd (compared.mpr found.signed) other⟩

private theorem check_null : check mem 0 signature = true ↔ sumBytes mem 0 (tableLength mem 0).toNat = 0 := by
  rw [check, strncmp, if_pos (Or.inl rfl), if_pos rfl, beq_iff_eq]

theorem Matches.checked (found : Matches mem signature table) : check mem table signature = true := by
  by_cases null : table = 0
  · subst null
    exact check_null.mpr found.summed
  · exact (check_iff null).mpr found

private theorem searchSlots_cases (mem : Image) (signature : Signature) (table : UInt64) (width n i : Nat) :
    (∃ k < n, check mem (slotTable mem table width (i + k)) signature = true ∧
      (∀ j < k, check mem (slotTable mem table width (i + j)) signature = false) ∧
      searchSlots mem signature table width n i = (List.range' i (k + 1), slotTable mem table width (i + k))) ∨
    ((∀ k < n, check mem (slotTable mem table width (i + k)) signature = false) ∧
      searchSlots mem signature table width n i = (List.range' i n, 0)) := by
  induction n generalizing i with
  | zero => exact .inr ⟨by simp, rfl⟩
  | succ n ih =>
    have shift (k : Nat) : i + 1 + k = i + (k + 1) := by omega
    have next := ih (i + 1)
    simp only [shift] at next
    rw [searchSlots]
    cases here : check mem (slotTable mem table width i) signature with
    | true =>
      refine .inl ⟨0, Nat.zero_lt_succ n, here, by simp, ?_⟩
      simp
    | false =>
      rcases next with later | none
      · obtain ⟨k, bound, accepted, before, ran⟩ := later
        refine .inl ⟨k + 1, Nat.succ_lt_succ bound, accepted, ?_, ?_⟩
        · intro j below
          cases j with
          | zero => exact here
          | succ j => exact before j (Nat.lt_of_succ_lt_succ below)
        · rw [ran]
          rfl
      · obtain ⟨missed, ran⟩ := none
        refine .inr ⟨?_, ?_⟩
        · intro k bound
          cases k with
          | zero => exact here
          | succ k => exact missed k (Nat.lt_of_succ_lt_succ bound)
        · rw [ran]
          rfl

/-- A search that stays inside its table finds the first match exactly when no null slot
hides one. -/
private theorem first_iff (mem : Image) (signature : Signature) (table : UInt64) (width : Nat) :
    First mem signature (slotTable mem table width) (slotCount mem table width)
        (searchSlots mem signature table width (slotCount mem table width) 0).2 ↔
      NullHarmless mem signature table width := by
  have ended := searchSlots_cases mem signature table width (slotCount mem table width) 0
  simp only [Nat.zero_add] at ended
  rcases ended with hit | missed
  · obtain ⟨k, bound, accepted, before, ran⟩ := hit
    have unmatched : ∀ j < k, ¬Matches mem signature (slotTable mem table width j) := by
      intro j below found
      exact Bool.false_ne_true ((before j below).symm.trans found.checked)
    rw [ran]
    by_cases found : Matches mem signature (slotTable mem table width k)
    · refine ⟨?_, fun _ => .inl ⟨k, bound, found, unmatched, rfl⟩⟩
      intro _ i later _ _ null summed _
      refine ⟨k, Nat.le_of_not_lt fun below => ?_, found⟩
      have passed := before i below
      rw [null] at passed
      exact Bool.false_ne_true (passed.symm.trans (check_null.mpr summed))
    · have null : slotTable mem table width k = 0 := by
        by_contra nonnull
        exact found ((check_iff nonnull).mp accepted)
      refine ⟨?_, ?_⟩
      · intro first i later _ inside _ _ hidden
        rcases first with some | none
        · obtain ⟨j, _, here, _, same⟩ := some
          have same : slotTable mem table width k = slotTable mem table width j := same
          rw [← same] at here
          exact absurd here found
        · exact absurd hidden (none.1 later inside)
      · intro harmless
        refine .inr ⟨?_, null⟩
        intro later inside hidden
        have upTo : ∀ j ≤ k, ¬Matches mem signature (slotTable mem table width j) := by
          intro j le
          rcases Nat.lt_or_eq_of_le le with less | rfl
          · exact unmatched j less
          · exact found
        have after : k < later := Nat.lt_of_not_le fun le => upTo later le hidden
        obtain ⟨j, le, here⟩ := harmless k later after inside null (check_null.mp (null ▸ accepted)) hidden
        exact upTo j le here
  · obtain ⟨missed, ran⟩ := missed
    have unmatched : ∀ k < slotCount mem table width, ¬Matches mem signature (slotTable mem table width k) := by
      intro k bound found
      exact Bool.false_ne_true ((missed k bound).symm.trans found.checked)
    rw [ran]
    refine ⟨?_, fun _ => .inr ⟨unmatched, rfl⟩⟩
    intro _ i k _ bound _ _ found
    exact absurd found (unmatched k bound)

private theorem maxEntry_eq (length : UInt32) {size width : UInt64} {w : Nat} (entry : width.toNat = w)
    (table : size.toNat = 36 + w)
    (small : w ≤ 8) : (maxEntry length size width).toNat =
      if 36 ≤ length.toNat then (length.toNat - 36) / w else (2 ^ 64 + length.toNat - 36) / w := by
  have bound := length.toNat_lt
  have bytes : (length.toUInt64 - size + width).toNat =
      if 36 ≤ length.toNat then length.toNat - 36 else 2 ^ 64 + length.toNat - 36 := by
    rw [UInt64.toNat_add, UInt64.toNat_sub, UInt32.toNat_toUInt64, entry, table]
    split <;> omega
  rw [maxEntry, UInt64.toNat_div, bytes, entry]
  split <;> rfl

private theorem searchSlots_range (mem : Image) (signature : Signature) (table : UInt64) (width count : Nat) :
    ∃ n ≤ count, (searchSlots mem signature table width count 0).1 = List.range n ∧ (0 < count → 0 < n) := by
  rcases searchSlots_cases mem signature table width count 0 with hit | missed
  · obtain ⟨k, bound, _, _, ran⟩ := hit
    exact ⟨k + 1, bound, by rw [ran, List.range_eq_range'], fun _ => Nat.zero_lt_succ k⟩
  · exact ⟨count, Nat.le_refl count, by rw [missed.2, List.range_eq_range'], fun positive => positive⟩

private theorem looksUp_iff (mem : Image) (signature : Signature) (table : UInt64) (width : Nat) {count : Nat}
    (wide : 0 < width)
    (small : width ≤ 8)
    (counted : count = if 36 ≤ (tableLength mem table).toNat then ((tableLength mem table).toNat - 36) / width
      else (2 ^ 64 + (tableLength mem table).toNat - 36) / width) :
    LooksUp mem signature table width (searchSlots mem signature table width count 0) ↔
      36 ≤ (tableLength mem table).toNat ∧ NullHarmless mem signature table width := by
  obtain ⟨n, upTo, slots, some⟩ := searchSlots_range mem signature table width count
  by_cases header : 36 ≤ (tableLength mem table).toNat
  · rw [if_pos header] at counted
    have same : count = slotCount mem table width := counted
    subst same
    rw [and_iff_right header, ← first_iff]
    refine ⟨LooksUp.first, fun first => ⟨?_, ?_, first⟩⟩
    · intro i member
      rw [slots] at member
      have below : i + 1 ≤ slotCount mem table width := Nat.lt_of_lt_of_le (List.mem_range.mp member) upTo
      have room := (Nat.le_div_iff_mul_le wide).mp below
      omega
    · rw [slots, List.length_range]
  · rw [if_neg header] at counted
    refine ⟨fun looks => ?_, fun both => absurd both.1 header⟩
    have positive : 0 < count := by
      rw [counted]
      apply Nat.div_pos _ wide
      have less := (tableLength mem table).toNat_lt
      omega
    have first : 0 ∈ (searchSlots mem signature table width count 0).1 := by
      rw [slots]
      exact List.mem_range.mpr (some positive)
    have inside := looks.inside 0 first
    omega

/-- `_get_table` keeps to the slots of an accepted root and finds the first table with the
signature exactly when the length covers the header and no null slot hides a match. -/
theorem getTable_iff (mem : Image) (roots : Roots) (signature : Signature) (accepted : roots.Accepted mem) :
    LooksUp mem signature roots.root.1 roots.root.2 (getTable mem roots signature) ↔
      36 ≤ (tableLength mem roots.root.1).toNat ∧ NullHarmless mem signature roots.root.1 roots.root.2 := by
  rcases accepted with rsdt | xsdt
  · rw [getTable, if_pos rsdt.1, Roots.root, if_pos rsdt.1]
    exact looksUp_iff mem signature roots.rsdt 4 (by decide) (by decide) (maxEntry_eq _ rfl rfl (by decide))
  · obtain ⟨none, some, _⟩ := xsdt
    rw [getTable, if_neg (not_not_intro none), if_pos some, Roots.root, if_neg (not_not_intro none)]
    exact looksUp_iff mem signature roots.xsdt 8 (by decide) (by decide) (maxEntry_eq _ rfl rfl (by decide))

private theorem word_lt (mem : Image) (addr : UInt64) (n : Nat) : word mem addr n < 256 ^ n := by
  induction n generalizing addr with
  | zero => exact Nat.one_pos
  | succ n ih =>
    have byte := (mem addr).toNat_lt
    have rest := ih (addr + 1)
    rw [word, Nat.pow_succ]
    omega

/-- A physical address of 32 bits is never at the null pointer. -/
theorem va_ne_zero {addr : Nat} (low : addr < 2 ^ 32) : va (.ofNat addr) ≠ 0 := by
  intro null
  have fits : addr < UInt64.size := Nat.lt_trans low (by decide)
  have zero := congrArg UInt64.toNat null
  rw [va, UInt64.toNat_add, UInt64.toNat_ofNat_of_lt' fits, physMemBase_toNat] at zero
  have none : (0 : UInt64).toNat = 0 := rfl
  omega

theorem va_word_ne_zero (mem : Image) (addr : UInt64) : va (.ofNat (word mem addr 4)) ≠ 0 :=
  va_ne_zero (word_lt mem addr 4)

theorem nullHarmless_rsdt (mem : Image) (signature : Signature) (table : UInt64) : NullHarmless mem signature table 4 :=
  fun _ _ _ _ null => absurd null (va_word_ne_zero mem _)

/-- Memory with some bytes at the physical address 0x1000. -/
def imageOf (bytes : List UInt8) : Image := fun addr => bytes.getD (addr - va 0x1000).toNat 0

/-- An RSDT with two slots, the second of which names the APIC table right behind it. -/
def twoSlots : Image :=
  imageOf (acpiSig "RSDT" ++ [44, 0, 0, 0, 0x4b] ++ List.replicate 27 0 ++
    [0x00, 0x10, 0, 0, 0x2c, 0x10, 0, 0] ++ acpiSig "APIC" ++ [9, 0, 0, 0, 0xda])

theorem getTable_iff_witness :
    Roots.Accepted twoSlots ⟨va 0x1000, 0⟩ ∧
      getTable twoSlots ⟨va 0x1000, 0⟩ (acpiSig "APIC") = ([0, 1], va 0x102c) ∧
      LooksUp twoSlots (acpiSig "APIC") (va 0x1000) 4 (getTable twoSlots ⟨va 0x1000, 0⟩ (acpiSig "APIC")) :=
  have accepted : Roots.Accepted twoSlots ⟨va 0x1000, 0⟩ := .inl ⟨by decide, by decide +kernel⟩
  have long : 36 ≤ (tableLength twoSlots (va 0x1000)).toNat := by decide +kernel
  ⟨accepted, by decide +kernel,
    (getTable_iff twoSlots ⟨va 0x1000, 0⟩ (acpiSig "APIC") accepted).mpr ⟨long, nullHarmless_rsdt twoSlots _ _⟩⟩

/-- An RSDT of length 0: its checksum is 0, and the search reads the first slot, which
is not in it. -/
theorem headless_table_overrun : ¬ ∀ (mem : Image) (roots : Roots) (signature : Signature), roots.Accepted mem →
    LooksUp mem signature roots.root.1 roots.root.2 (getTable mem roots signature) := by
  intro claim
  have looks := claim (imageOf (acpiSig "RSDT")) ⟨va 0x1000, 0⟩ (acpiSig "APIC") (.inl ⟨by decide, by decide +kernel⟩)
  have some : va 0x1000 ≠ 0 := by decide
  rw [getTable, if_pos some, Roots.root, if_pos some] at looks
  have header := ((looksUp_iff _ _ (va 0x1000) 4 (by decide) (by decide) (maxEntry_eq _ rfl rfl (by decide))).mp looks).1
  exact absurd header (by decide +kernel)

end Lookup

end Hotarubi.Acpi
