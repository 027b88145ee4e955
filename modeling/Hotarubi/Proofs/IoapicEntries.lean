import Hotarubi.Processor.Apic
import Mathlib.Data.List.Basic

/-! Which registers of an IO-APIC the driver reaches. `init` counts the entries from
zero and stops before the last one; the other calls take the number of the interrupt
for the number of the entry. -/

namespace Hotarubi.Processor.Ioapic

/-- The registers of an entry of the redirection table. -/
def entryLo (entry : Nat) : Nat := kIOAPICRedirectLo + 2 * entry

def entryHi (entry : Nat) : Nat := kIOAPICRedirectHi + 2 * entry

/-- The index of the last entry, from the version register. -/
def lastEntry (d : Device) : Nat := (((d.reg kIOAPICVersion >>> 16) &&& 0xff).toUInt8).toNat

/-- The calls on an interrupt. -/
inductive Operation where
  | route (source target : UInt8) (trigger : TriggerMode) (polarity : Polarity)
  | mask (source : UInt8) (masked : Bool)
  | nmi (source : UInt8) (trigger : TriggerMode) (polarity : Polarity)
  | clear (source : UInt8)

def Operation.source : Operation → UInt8
  | .route source .. | .mask source _ | .nmi source .. | .clear source => source

def Operation.exec : Operation → State → State
  | .route source target trigger polarity => setRoute source target trigger polarity
  | .mask source masked => setMask source masked
  | .nmi source trigger polarity => setNmi source trigger polarity
  | .clear source => clrNmi source

/-- Some accesses are of two registers only, and both have been written. -/
structure Touches (lo hi : Nat) (accesses : List (Access Nat)) : Prop where
  only : ∀ access ∈ accesses, access.reg = lo ∨ access.reg = hi
  lo : ∃ value, .write lo value ∈ accesses
  hi : ∃ value, .write hi value ∈ accesses

/-- What is asked of the driver for a device that serves the interrupts from a base on. -/
structure Addresses (d : Device) (base : UInt8) : Prop where
  masked : ∀ entry ≤ lastEntry d,
    (init true base (.fresh d)).device.reg (entryLo entry) = d.reg (entryLo entry) ||| bit 16 ∧
      (init true base (.fresh d)).device.reg (entryHi entry) = d.reg (entryHi entry)
  reached : ∀ (earlier : List Operation) (operation : Operation),
    let s := earlier.foldl (fun s operation => operation.exec s) (init true base (.fresh d))
    start s ≤ operation.source → operation.source ≤ range s →
      ∃ accesses, (operation.exec s).device.log = s.device.log ++ accesses ∧
        Touches (entryLo (operation.source.toNat - base.toNat)) (entryHi (operation.source.toNat - base.toNat)) accesses

section Entries

variable {d : Device} {s : State} {base source : UInt8}

private theorem maskEntry_reg (d : Device) (i r : Nat) :
    (maskEntry d i).reg r = if r = (16 + i * 2) % 256 then d.reg r ||| bit 16 else d.reg r := by
  have apart : (17 + i * 2) % 256 ≠ (16 + i * 2) % 256 := by omega
  simp only [maskEntry, read, write, kIOAPICRedirectLo, kIOAPICRedirectHi]
  by_cases high : r = (17 + i * 2) % 256
  · subst high
    rw [Function.update_self, if_neg apart]
  · rw [Function.update_of_ne high]
    by_cases low : r = (16 + i * 2) % 256
    · subst low
      rw [Function.update_self, if_pos rfl]
    · rw [Function.update_of_ne low, if_neg low]

private theorem maskEntries_reg (d : Device) (n r : Nat) :
    ((List.range n).foldl maskEntry d).reg r =
      if ∃ i < n, r = (16 + i * 2) % 256 then d.reg r ||| bit 16 else d.reg r := by
  induction n with
  | zero => simp
  | succ n ih =>
    rw [List.range_succ, List.foldl_append, List.foldl_cons, List.foldl_nil, maskEntry_reg, ih]
    by_cases last : r = (16 + n * 2) % 256
    · have wider : ∃ i < n + 1, r = (16 + i * 2) % 256 := ⟨n, Nat.lt_succ_self n, last⟩
      rw [if_pos last, if_pos wider]
      split
      next => rw [UInt32.or_assoc, UInt32.or_self]
      next => rfl
    · rw [if_neg last]
      by_cases before : ∃ i < n, r = (16 + i * 2) % 256
      · obtain ⟨i, bound, same⟩ := before
        rw [if_pos ⟨i, bound, same⟩, if_pos ⟨i, Nat.lt_succ_of_lt bound, same⟩]
      · rw [if_neg before, if_neg]
        intro some
        obtain ⟨i, bound, same⟩ := some
        rcases Nat.lt_succ_iff_lt_or_eq.mp bound with less | rfl
        · exact before ⟨i, less, same⟩
        · exact last same

theorem init_reg (d : Device) (base : UInt8) (r : Nat) : (init true base (.fresh d)).device.reg r =
    if ∃ i < lastEntry d, r = (16 + i * 2) % 256 then d.reg r ||| bit 16 else d.reg r :=
  maskEntries_reg _ _ _

private theorem init_base (d : Device) (base : UInt8) : (init true base (.fresh d)).base = base := rfl

theorem init_size (d : Device) (base : UInt8) : (init true base (.fresh d)).size.toNat = lastEntry d := rfl

theorem exec_bounds (operation : Operation) (s : State) :
    (operation.exec s).base = s.base ∧ (operation.exec s).size = s.size := by
  cases operation
  all_goals
    simp only [Operation.exec, setRoute, setMask, setNmi, clrNmi, modify]
    split <;> exact ⟨rfl, rfl⟩

theorem run_bounds (operations : List Operation) (s : State) :
    (operations.foldl (fun s operation => operation.exec s) s).base = s.base ∧
      (operations.foldl (fun s operation => operation.exec s) s).size = s.size := by
  induction operations generalizing s with
  | nil => exact ⟨rfl, rfl⟩
  | cons operation operations ih =>
    obtain ⟨base, size⟩ := exec_bounds operation s
    obtain ⟨base', size'⟩ := ih (operation.exec s)
    exact ⟨base'.trans base, size'.trans size⟩

private theorem setRoute_log {target : UInt8} {trigger : TriggerMode} {polarity : Polarity}
    (inside : outside s source = false) : ∃ value, (setRoute source target trigger polarity s).device.log =
      s.device.log ++ [.write ((17 + source.toNat * 2) % 256) 0xff000000, .write
        ((16 + source.toNat * 2) % 256) value] := by
  unfold setRoute
  rw [if_neg (by rw [inside]; exact Bool.false_ne_true)]
  exact ⟨_, by simp only [write, List.append_assoc]; rfl⟩

private theorem modify_log {change : UInt32 → UInt32} (inside : outside s source = false) :
    ∃ lo hi, (modify source change s).device.log = s.device.log ++
      [.read ((16 + source.toNat * 2) % 256), .read ((17 + source.toNat * 2) % 256),
        .write ((16 + source.toNat * 2) % 256) lo, .write ((17 + source.toNat * 2) % 256) hi] := by
  unfold modify
  rw [if_neg (by rw [inside]; exact Bool.false_ne_true)]
  exact ⟨_, _, by simp only [read, write, List.append_assoc]; rfl⟩

private theorem exec_log (operation : Operation) (s : State) (inside : outside s operation.source = false) :
    ∃ accesses, (operation.exec s).device.log = s.device.log ++ accesses ∧
      Touches ((16 + operation.source.toNat * 2) % 256) ((17 + operation.source.toNat * 2) % 256) accesses := by
  have modified (source : UInt8) (change : UInt32 → UInt32) (inside : outside s source = false) :
      ∃ accesses, (modify source change s).device.log = s.device.log ++ accesses ∧
        Touches ((16 + source.toNat * 2) % 256) ((17 + source.toNat * 2) % 256) accesses := by
    obtain ⟨lo, hi, log⟩ := modify_log inside
    exact ⟨_, log, by simp [Access.reg], ⟨lo, by simp⟩, ⟨hi, by simp⟩⟩
  cases operation with
  | route source target trigger polarity =>
    obtain ⟨value, log⟩ := setRoute_log inside
    exact ⟨_, log, by simp [Access.reg, Operation.source], ⟨value, by simp [Operation.source]⟩,
      ⟨0xff000000, by simp [Operation.source]⟩⟩
  | mask source masked => exact modified source (fun lo => (lo &&& ~~~bit 16) ||| (masked.toUInt32 <<< 16)) inside
  | nmi source trigger polarity =>
    exact modified source (fun lo => (lo &&& ~~~0x0000e700) ||| (irqFlags 13 trigger polarity ||| kNMI)) inside
  | clear source => exact modified source (fun lo => lo &&& 0xfbff) inside

/-- Accesses tell which two registers they are of. -/
theorem Touches.unique {lo hi lo' hi' : Nat} {accesses : List (Access Nat)} (one : Touches lo hi accesses)
    (two : Touches lo' hi' accesses) : (lo = lo' ∨ lo = hi') ∧ (lo' = lo ∨ lo' = hi) := by
  obtain ⟨value, here⟩ := one.lo
  obtain ⟨value', here'⟩ := two.lo
  exact ⟨two.only _ here, one.only _ here'⟩

theorem outside_iff : outside s source = false ↔ start s ≤ source ∧ source ≤ range s := by
  rw [outside, decide_eq_false_iff_not, not_or, GT.gt, UInt8.not_lt, UInt8.not_lt]

private theorem run_inside (operations : List Operation) (source : UInt8) (room : base.toNat + lastEntry d < 256) :
    outside (operations.foldl (fun s operation => operation.exec s) (init true base (.fresh d))) source = false ↔
      base.toNat ≤ source.toNat ∧ source.toNat ≤ base.toNat + lastEntry d := by
  obtain ⟨same, size⟩ := run_bounds operations (init true base (.fresh d))
  have last := init_size d base
  rw [outside_iff, start, range, same, size, init_base, UInt8.le_iff_toNat_le, UInt8.le_iff_toNat_le, UInt8.toNat_add,
    last, Nat.mod_eq_of_lt room]

/-- What is reached is the entry only where the index of the interrupt is that of the entry. -/
theorem Addresses.index (meets : Addresses d base) (room : base.toNat + lastEntry d < 256) {entry : Nat}
    (inside : entry ≤ lastEntry d) : 16 + 2 * entry = (16 + (base.toNat + entry) * 2) % 256 := by
  let source := UInt8.ofNat (base.toNat + entry)
  have value : source.toNat = base.toNat + entry := by
    rw [UInt8.toNat_ofNat']
    omega
  have guard := (run_inside [] source room).mpr (by omega)
  obtain ⟨low, high⟩ := outside_iff.mp guard
  obtain ⟨accesses, log, touches⟩ := meets.reached [] (.clear source) low high
  obtain ⟨accesses', log', touches'⟩ := exec_log (.clear source) _ guard
  obtain rfl := List.append_cancel_left (log.symm.trans log')
  obtain ⟨first, _⟩ := touches.unique touches'
  simp only [Operation.source, value, entryLo, kIOAPICRedirectLo] at first
  omega

theorem or_eq_iff (x m : UInt32) : x ||| m = x ↔ x &&& m = m := by
  constructor
  · intro same
    rw [← same, UInt32.and_comm]
    apply UInt32.toBitVec_inj.mp
    ext k inside
    simp only [UInt32.toBitVec_and, UInt32.toBitVec_or, BitVec.getElem_and, BitVec.getElem_or]
    cases m.toBitVec[k] <;> simp
  · intro same
    rw [← same]
    apply UInt32.toBitVec_inj.mp
    ext k inside
    simp only [UInt32.toBitVec_and, UInt32.toBitVec_or, BitVec.getElem_and, BitVec.getElem_or]
    cases x.toBitVec[k] <;> simp

private theorem init_last (small : lastEntry d ≤ 119) :
    (init true base (.fresh d)).device.reg (entryLo (lastEntry d)) = d.reg (entryLo (lastEntry d)) := by
  rw [init_reg, if_neg]
  intro some
  obtain ⟨i, bound, same⟩ := some
  simp only [entryLo, kIOAPICRedirectLo] at same
  omega

/-- The driver addresses the entries as it is asked exactly for a base at which the
index wraps to that of the entry, a table within the index, and a last entry that is
masked to begin with. -/
theorem addresses_iff (d : Device) (base : UInt8) (room : base.toNat + lastEntry d < 256) :
    Addresses d base ↔
      (base = 0 ∨ base = 128) ∧ lastEntry d ≤ 119 ∧ d.reg (entryLo (lastEntry d)) &&& bit 16 = bit 16 := by
  have bound := base.toNat_lt
  constructor
  · intro meets
    have first := meets.index room (Nat.zero_le _)
    have last := meets.index room (Nat.le_refl _)
    have small : lastEntry d ≤ 119 := by omega
    have wraps : base.toNat = 0 ∨ base.toNat = 128 := by omega
    refine ⟨wraps.imp (fun value => UInt8.toNat_inj.mp value) fun value => UInt8.toNat_inj.mp value, small, ?_⟩
    apply (or_eq_iff _ _).mp
    rw [← (meets.masked _ (Nat.le_refl _)).1, init_last small]
  · intro condition
    obtain ⟨wraps, small, masked⟩ := condition
    have value : base.toNat = 0 ∨ base.toNat = 128 := wraps.imp (congrArg UInt8.toNat) (congrArg UInt8.toNat)
    refine ⟨fun entry inside => ⟨?_, ?_⟩, ?_⟩
    · rcases Nat.lt_or_eq_of_le inside with before | rfl
      · rw [init_reg, if_pos]
        refine ⟨entry, before, ?_⟩
        simp only [entryLo, kIOAPICRedirectLo]
        omega
      · rw [init_last small]
        exact ((or_eq_iff _ _).mpr masked).symm
    · rw [init_reg, if_neg]
      intro some
      obtain ⟨i, _, same⟩ := some
      simp only [entryHi, kIOAPICRedirectHi] at same
      omega
    · intro earlier operation s low high
      have guard := outside_iff.mpr ⟨low, high⟩
      obtain ⟨accesses, log, touches⟩ := exec_log operation s guard
      obtain ⟨above, below⟩ := (run_inside earlier operation.source room).mp guard
      have lo : entryLo (operation.source.toNat - base.toNat) = (16 + operation.source.toNat * 2) % 256 := by
        simp only [entryLo, kIOAPICRedirectLo]
        omega
      have hi : entryHi (operation.source.toNat - base.toNat) = (17 + operation.source.toNat * 2) % 256 := by
        simp only [entryHi, kIOAPICRedirectHi]
        omega
      exact ⟨accesses, log, lo ▸ hi ▸ touches⟩

/-- Registers of a device with this last entry, none of which is masked. -/
def unmasked (last : UInt32) : Device := ⟨fun r => if r = kIOAPICVersion then (last <<< 16) ||| 0x11 else 0, []⟩

theorem addresses_iff_witness : Addresses (unmasked 23) 24 ↔
    ((24 : UInt8) = 0 ∨ (24 : UInt8) = 128) ∧ lastEntry (unmasked 23) ≤ 119 ∧
      (unmasked 23).reg (entryLo (lastEntry (unmasked 23))) &&& bit 16 = bit 16 :=
  addresses_iff (unmasked 23) 24 (by decide)

/-- A device of 24 entries at base 0: the last entry is not masked. -/
theorem last_entry_open : ¬ ∀ (d : Device) (base : UInt8), base.toNat + lastEntry d < 256 → Addresses d base := by
  intro claim
  have masked := ((claim (unmasked 23) 0 (by decide)).masked 23 (by decide)).1
  exact absurd masked (by decide +kernel)

end Entries

end Hotarubi.Processor.Ioapic
