import Hotarubi.Base.Mask
import Hotarubi.Processor.Pit

/-! The dividers that the interval timer is programmed with. A time of up to a nineteenth
of a second has one of 16 bits; `one_shot` cuts a longer time down to it, and `periodic`
does not. -/

namespace Hotarubi.Processor.Pit
open Base

variable {φ : Type}

section Divider

/-- The divider for a time in microseconds, before its high bits are lost. -/
def divider (time : Nat) : Nat := 1193180 / (1000000 / time)

/-- The longest time that has a divider of 16 bits. -/
def longest : Nat := 1000000 / 19

private theorem longest_le : longest ≤ 1000000 := Nat.div_le_self _ _

private theorem cut_bounds {time : Nat} (positive : 0 < time) : 0 < min time longest ∧ min time longest ≤ longest :=
  ⟨Nat.lt_min.mpr ⟨positive, by decide⟩, Nat.min_le_right _ _⟩

private theorem divider_mono {shorter time : Nat} (order : shorter ≤ time) (positive : 0 < shorter)
    (limit : time ≤ 1000000) :
    divider shorter ≤ divider time := by
  have slower : 1000000 / time ≤ 1000000 / shorter := Nat.div_le_div_left order positive
  have runs : 0 < 1000000 / time := Nat.div_pos limit (Nat.lt_of_lt_of_le positive order)
  exact Nat.div_le_div_left slower runs

private theorem divider_positive {time : Nat} (positive : 0 < time) (limit : time ≤ 1000000) : 1 ≤ divider time :=
  divider_mono positive (Nat.le_refl 1) limit

private theorem divider_bound {time : Nat} (positive : 0 < time) (limit : time ≤ longest) : divider time ≤ 65535 := by
  have bound : divider longest ≤ 65535 := by decide
  exact Nat.le_trans (divider_mono limit positive longest_le) bound

private theorem divider_wrong {time : Nat} (long : longest < time) (limit : time ≤ 1000000) :
    divider time % 65536 ≠ divider longest := by
  have table : ∀ hz < 19, 0 < hz → 1193180 / hz % 65536 ≠ divider longest := by decide
  have slow : 1000000 / time < 19 := Nat.div_lt_of_lt_mul (by unfold longest at long; omega)
  have runs : 0 < 1000000 / time := Nat.div_pos limit (Nat.zero_lt_of_lt long)
  exact table _ slow runs

end Divider

section Requests

/-- The two functions. -/
inductive Request where
  | oneShot
  | periodic
  deriving DecidableEq, Repr

def Request.mode : Request → UInt8
  | .oneShot => pitModeSingle
  | .periodic => pitModePeriod

def Request.run (r : Request) (time : UInt64) (fn : Option φ) (s : State φ) : Option (State φ) :=
  match r with
  | .oneShot => Pit.oneShot time fn s
  | .periodic => Pit.periodic time fn s

/-- The bytes that follow the command are those of the divider. -/
def Request.Sends (r : Request) (time : UInt64) (fn : Option φ) (s : State φ) (d : Nat) : Prop :=
  ∃ s' lo hi, r.run time fn s = some s' ∧ s'.log = s.log ++ [(r.mode, pitCmd), (lo, pitData), (hi, pitData)] ∧
    UInt8.toNat lo + 256 * UInt8.toNat hi = d

/-- The time that a function divides by. -/
def Request.used (r : Request) (time : Nat) : Nat :=
  match r with
  | .oneShot => min time longest
  | .periodic => time

private theorem bytes_toNat (d : UInt64) : ((d >>> 0) &&& 0xff).toUInt8.toNat + 256 * ((d >>> 8) &&& 0xff).toUInt8.toNat =
    d.toNat % 65536 := by
  have low : ((d >>> 0) &&& 0xff).toUInt8.toNat = d.toNat / 2 ^ 0 % 2 ^ 8 := Mask.field_toNat d.toBitVec 0 rfl
  have high : ((d >>> 8) &&& 0xff).toUInt8.toNat = d.toNat / 2 ^ 8 % 2 ^ 8 := Mask.field_toNat d.toBitVec 8 rfl
  rw [low, high]
  omega

private theorem sends_unique {r : Request} {time : UInt64} {fn : Option φ} {s : State φ} {d e : Nat}
    (first : r.Sends time fn s d) (second : r.Sends time fn s e) : d = e := by
  obtain ⟨s₁, lo₁, hi₁, run₁, log₁, rfl⟩ := first
  obtain ⟨s₂, lo₂, hi₂, run₂, log₂, rfl⟩ := second
  obtain rfl := Option.some.inj (run₁.symm.trans run₂)
  have tail := List.append_cancel_left (log₁.symm.trans log₂)
  simp only [List.cons.injEq, Prod.mk.injEq, and_true, true_and] at tail
  rw [tail.1, tail.2]

private theorem shortened (time : UInt64) : (if time > seconds 1 / 19 then seconds 1 / 19 else time).toNat =
    min time.toNat longest := by
  have limit : (seconds 1 / 19).toNat = longest := rfl
  split
  next long =>
    have order : longest < time.toNat := limit ▸ UInt64.lt_iff_toNat_lt.mp long
    rw [limit, Nat.min_eq_right (Nat.le_of_lt order)]
  next short =>
    have order : time.toNat ≤ longest := limit ▸ UInt64.le_iff_toNat_le.mp (UInt64.not_lt.mp short)
    exact (Nat.min_eq_left order).symm

private theorem program_none {mode : UInt8} {time : UInt64} {s : State φ} (long : 1000000 < time.toNat) :
    program mode time s = none := by
  have still : seconds 1 / time = 0 := by
    apply UInt64.toNat_inj.mp
    rw [UInt64.toNat_div]
    exact Nat.div_eq_of_lt long
  unfold program
  rw [still]
  simp

theorem program_some {mode : UInt8} {time : UInt64} (s : State φ) (positive : 0 < time.toNat)
    (limit : time.toNat ≤ 1000000) :
    ∃ s' lo hi, program mode time s = some s' ∧ s'.log = s.log ++ [(mode, pitCmd), (lo, pitData), (hi, pitData)] ∧
      UInt8.toNat lo + 256 * UInt8.toNat hi = divider time.toNat % 65536 := by
  have some_time : time ≠ 0 := by
    intro zero
    rw [zero] at positive
    exact Nat.lt_irrefl 0 positive
  have runs : seconds 1 / time ≠ 0 := by
    intro zero
    have quotient := congrArg UInt64.toNat zero
    rw [UInt64.toNat_div] at quotient
    exact Nat.ne_of_gt (Nat.div_pos limit positive) quotient
  have value : (pitFrequency / (seconds 1 / time)).toNat = divider time.toNat := by
    rw [UInt64.toNat_div, UInt64.toNat_div]
    rfl
  refine ⟨_, _, _, by unfold program; rw [if_neg some_time, if_neg runs], ?_, (bytes_toNat _).trans (by rw [value])⟩
  simp [outb]

private theorem sends_of_used {r : Request} {time : UInt64} (fn : Option φ) (s : State φ) (positive : 0 < time.toNat)
    (limit : r.used time.toNat ≤ 1000000) : r.Sends time fn s (divider (r.used time.toNat) % 65536) := by
  cases r with
  | oneShot =>
    have used : 0 < (if time > seconds 1 / 19 then seconds 1 / 19 else time).toNat := by
      rw [shortened]
      exact (cut_bounds positive).1
    rw [Request.used, ← shortened] at limit ⊢
    exact program_some { s with periodicHandler := none, oneShotHandler := fn } used limit
  | periodic => exact program_some { s with periodicHandler := fn, oneShotHandler := none } positive limit

private theorem run_none {r : Request} {time : UInt64} {fn : Option φ} {s : State φ} (long : 1000000 < r.used time.toNat) :
    r.run time fn s = none := by
  cases r with
  | oneShot =>
    have bound : min time.toNat longest ≤ 1000000 := Nat.le_trans (Nat.min_le_right _ _) longest_le
    exact absurd long (Nat.not_lt.mpr bound)
  | periodic => exact program_none long

/-- What is asked of a request: no division by zero, a divider of 16 bits for the time
or for the longest one, and none that is larger for an shorter time. -/
def Request.Programmed (r : Request) (time : UInt64) (fn : Option φ) (s : State φ) : Prop :=
  r.Sends time fn s (divider (min time.toNat longest)) ∧
    1 ≤ divider (min time.toNat longest) ∧ divider (min time.toNat longest) ≤ 65535 ∧
    ∀ shorter : UInt64, 1 ≤ shorter → shorter ≤ time → ∃ d ≤ divider (min time.toNat longest), r.Sends shorter fn s d

private theorem sends_short {r : Request} {time : UInt64} (fn : Option φ) (s : State φ) (positive : 0 < time.toNat)
    (condition : r = .oneShot ∨ time.toNat ≤ longest) : r.Sends time fn s (divider (min time.toNat longest)) := by
  have same : r.used time.toNat = min time.toNat longest := by
    obtain rfl | short := condition
    · rfl
    · cases r with
      | oneShot => rfl
      | periodic => exact (Nat.min_eq_left short).symm
  obtain ⟨some_time, bound⟩ := cut_bounds positive
  have sent := sends_of_used fn s positive (same ▸ Nat.le_trans bound longest_le)
  rwa [same, Nat.mod_eq_of_lt (Nat.lt_succ_of_le (divider_bound some_time bound))] at sent

private theorem periodic_short {time : UInt64} {fn : Option φ} {s : State φ} (positive : 0 < time.toNat)
    (sent : Request.periodic.Sends time fn s (divider (min time.toNat longest))) : time.toNat ≤ longest := by
  apply Nat.le_of_not_lt
  intro long
  by_cases second : time.toNat ≤ 1000000
  · have same := sends_unique (sends_of_used (r := .periodic) fn s positive second) sent
    rw [Nat.min_eq_right (Nat.le_of_lt long)] at same
    exact divider_wrong long second same
  · obtain ⟨s', lo, hi, runs, -⟩ := sent
    rw [run_none (r := .periodic) (Nat.not_le.mp second)] at runs
    exact Option.some_ne_none s' runs.symm

/-- `periodic` keeps to its bounds for the short times only. -/
theorem programmed_iff (r : Request) (time : UInt64) (fn : Option φ) (s : State φ) (positive : 1 ≤ time) :
    r.Programmed time fn s ↔ r = .oneShot ∨ time ≤ seconds 1 / 19 := by
  have limit : (seconds 1 / 19).toNat = longest := rfl
  have started : 0 < time.toNat := UInt64.le_iff_toNat_le.mp positive
  obtain ⟨some_time, bound⟩ := cut_bounds started
  have small := Nat.le_trans bound longest_le
  rw [UInt64.le_iff_toNat_le, limit]
  constructor
  · intro programmed
    cases r with
    | oneShot => exact .inl rfl
    | periodic => exact .inr (periodic_short started programmed.1)
  · intro condition
    refine ⟨sends_short fn s started condition, divider_positive some_time small, divider_bound some_time bound, ?_⟩
    intro shorter first order
    have first : 0 < shorter.toNat := UInt64.le_iff_toNat_le.mp first
    have order : shorter.toNat ≤ time.toNat := UInt64.le_iff_toNat_le.mp order
    have cut : min shorter.toNat longest ≤ min time.toNat longest := by omega
    refine ⟨_, divider_mono cut (cut_bounds first).1 small, sends_short fn s first ?_⟩
    exact condition.imp id (Nat.le_trans order)

/-- The longest time for `periodic`. -/
theorem programmed_iff_witness : Request.periodic.Programmed 52631 (none : Option Unit) ⟨none, none, []⟩ :=
  (programmed_iff .periodic 52631 none ⟨none, none, []⟩ (by decide)).mpr (.inr (by decide))

/-- A tenth of a second has the divider 119318, of which 53782 is left, and for more than
a second there is no frequency to divide by. -/
theorem periodic_unbounded :
    Request.periodic.Sends (milliseconds 100) (none : Option Unit) ⟨none, none, []⟩ 53782 ∧
      divider (min (milliseconds 100).toNat longest) = 62798 ∧
      ¬Request.periodic.Programmed (milliseconds 100) (none : Option Unit) ⟨none, none, []⟩ ∧
      periodic (seconds 1 + 1) (none : Option Unit) ⟨none, none, []⟩ = none := by
  have sent : Request.periodic.Sends (milliseconds 100) (none : Option Unit) ⟨none, none, []⟩ 53782 :=
    ⟨_, 0x16, 0xd2, rfl, rfl, rfl⟩
  refine ⟨sent, rfl, ?_, rfl⟩
  intro programmed
  have same := sends_unique sent programmed.1
  revert same
  decide

end Requests

end Hotarubi.Processor.Pit
