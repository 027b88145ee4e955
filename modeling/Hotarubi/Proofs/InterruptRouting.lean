import Hotarubi.Base.Mask
import Hotarubi.Processor.Routing
import Hotarubi.Proofs.IoapicEntries

/-! From a line to a vector. After `parse_madt` and any calls of `core::route_isa_irq`
a redirection entry is open only if a call has programmed it, and it raises the vector
of the last one, with the trigger mode and the polarity of the MADT. -/

namespace Hotarubi.Processor.Ioapic
open Hotarubi.Base

/-- The low word that a route leaves behind. -/
def routed (irq : Interrupt) (vector : UInt8) : UInt32 :=
  irqFlags 13 irq.trigger irq.polarity ||| bit 11 ||| vector.toUInt32

private theorem vector_clear (vector : UInt8) : vector.toBitVec.setWidth 32 &&& (bit 16).toBitVec = 0#32 := by
  apply Mask.and_eq_zero_of_lt (n := 8)
  · decide
  · rw [BitVec.toNat_setWidth]
    exact Nat.lt_of_le_of_lt (Nat.mod_le ..) vector.toNat_lt

private theorem setMask_routed (irq : Interrupt) (vector : UInt8) :
    (((0 : UInt32) ||| irqFlags 13 irq.trigger irq.polarity) ||| bit 11 ||| bit 16 ||| vector.toUInt32) &&& ~~~bit 16 |||
      (false.toUInt32 <<< 16) = routed irq vector := by
  have flags : ((0 : UInt32) ||| irqFlags 13 irq.trigger irq.polarity ||| bit 11).toBitVec &&& (bit 16).toBitVec =
    0#32 := by
    cases irq.trigger <;> cases irq.polarity <;> decide
  apply UInt32.toBitVec_inj.mp
  have cleared := Mask.or_mask_and_not flags (vector_clear vector)
  have unmasked : ((0 : UInt32) ||| irqFlags 13 irq.trigger irq.polarity) = irqFlags 13 irq.trigger irq.polarity :=
    UInt32.zero_or
  have nothing : false.toUInt32 <<< 16 = 0 := by decide
  rw [nothing, UInt32.or_zero, routed]
  rw [unmasked] at cleared ⊢
  exact cleared

section Programs
variable {s s' : Routing} {i k : Nat} {a a' : State} {source line vector : UInt8} {irq : Interrupt}

private theorem route_reg (inside : outside a line = false) (r : Nat) :
    (setMask line false (setRoute line vector irq.trigger irq.polarity a)).device.reg r =
      if r = (17 + line.toNat * 2) % 256 then 0xff000000
      else if r = (16 + line.toNat * 2) % 256 then routed irq vector
      else a.device.reg r := by
  have again : outside (setRoute line vector irq.trigger irq.polarity a) line = false := by
    obtain ⟨base, size⟩ := exec_bounds (.route line vector irq.trigger irq.polarity) a
    simp only [Operation.exec] at base size
    rw [outside, start, range, base, size]
    exact inside
  rw [setMask, modify, if_neg (by rw [again]; exact Bool.false_ne_true)]
  have apart : (17 + line.toNat * 2) % 256 ≠ (16 + line.toNat * 2) % 256 := by omega
  simp only [setRoute, inside, Bool.false_eq_true, if_false, read, write, kIOAPICRedirectLo, kIOAPICRedirectHi,
    Function.update_self, setMask_routed]
  by_cases high : r = (17 + line.toNat * 2) % 256
  · subst high
    rw [if_pos rfl, Function.update_self, Function.update_of_ne apart, Function.update_self]
  · rw [if_neg high, Function.update_of_ne high]
    by_cases low : r = (16 + line.toNat * 2) % 256
    · subst low
      rw [if_pos rfl, Function.update_self]
    · rw [if_neg low, Function.update_of_ne low, Function.update_of_ne low, Function.update_of_ne high]

private theorem route_entry {e : Nat} (inside : outside a line = false) (served : line.toNat < 120) (small : e < 120) :
    let a' := setMask line false (setRoute line vector irq.trigger irq.polarity a)
    (a'.device.reg (entryLo e), a'.device.reg (entryHi e)) =
      if line.toNat = e then (routed irq vector, 0xff000000) else (a.device.reg (entryLo e), a.device.reg (entryHi e)) := by
  have lo : entryLo e = 16 + 2 * e := rfl
  have hi : entryHi e = 17 + 2 * e := rfl
  have apart : entryLo e ≠ (17 + line.toNat * 2) % 256 := by omega
  have apart' : entryHi e ≠ (16 + line.toNat * 2) % 256 := by omega
  simp only [route_reg inside, if_neg apart, if_neg apart']
  by_cases same : line.toNat = e
  · have here : entryLo e = (16 + line.toNat * 2) % 256 := by omega
    have here' : entryHi e = (17 + line.toNat * 2) % 256 := by omega
    rw [if_pos here, if_pos here', if_pos same]
  · have other : entryLo e ≠ (16 + line.toNat * 2) % 256 := by omega
    have other' : entryHi e ≠ (17 + line.toNat * 2) % 256 := by omega
    rw [if_neg other, if_neg other', if_neg same]

private theorem route_bounds : (setMask line false (setRoute line vector irq.trigger irq.polarity a)).base = a.base ∧
    (setMask line false (setRoute line vector irq.trigger irq.polarity a)).size = a.size :=
  run_bounds [.route line vector irq.trigger irq.polarity, .mask line false] a

end Programs

/-- What the routing reads of the IO-APICs. -/
def lines (ioapics : List State) : List (UInt8 × UInt8) := ioapics.map fun a => (a.base, a.size)

private theorem findIdx_serves {ioapics ioapics' : List State} (same : lines ioapics' = lines ioapics) (line : UInt8) :
    ioapics'.findIdx? (Routing.serves line) = ioapics.findIdx? (Routing.serves line) := by
  have reads (ioapics : List State) : ioapics.findIdx? (Routing.serves line) =
      (lines ioapics).findIdx? fun (base, size) => decide (base ≤ line ∧ base + size ≥ line) := by
    rw [lines, List.findIdx?_map]
    rfl
  rw [reads, reads, same]

private theorem lines_set {ioapics : List State} {i : Nat} {a a' : State} (here : ioapics[i]? = some a)
    (base : a'.base = a.base)
    (size : a'.size = a.size) : lines (ioapics.set i a') = lines ioapics := by
  rw [lines, List.map_set, base, size]
  apply List.ext_getElem?
  intro j
  by_cases same : i = j
  · subst same
    rw [List.getElem?_set_self', lines, List.getElem?_map, here]
    rfl
  · rw [List.getElem?_set_ne same]
    rfl

variable {table : Nat → Interrupt} {s s' : Routing} {answer : Bool} {call : UInt8 × UInt8}

private theorem irqs_known (known : s.interrupts = some table) (n : Nat) :
    s.irqs n = (if n < numIrqEntries then some (table n) else none, s) := by
  rw [Routing.irqs, Routing.allIrqs, known]
  by_cases inside : n < numIrqEntries
  · rw [if_pos inside, if_pos inside]
  · rw [if_neg inside, if_neg inside]

theorem program_some {i : Nat} {calls : State → State} (done : s.program i calls = some s') :
    ∃ a, s.ioapics[i]? = some a ∧ s' = { s with ioapics := s.ioapics.set i (calls a) } := by
  simp only [Routing.program, Option.bind_eq_bind, Option.bind_eq_some_iff] at done
  obtain ⟨a, here, rest⟩ := done
  split at rest
  · exact ⟨a, here, (Option.some.inj rest).symm⟩
  · cases rest

private theorem execRoute_cases (known : s.interrupts = some table) (ran : execRoute s call = some (answer, s')) :
    (∃ i a, call.1.toNat < numIrqEntries ∧
      s.ioapics.findIdx? (Routing.serves (table call.1.toNat).target) = some i ∧ s.ioapics[i]? = some a ∧
      s' = { s with ioapics := s.ioapics.set i (setMask (table call.1.toNat).target false
        (setRoute (table call.1.toNat).target call.2 (table call.1.toNat).trigger (table call.1.toNat).polarity a)) }) ∨
    (¬ (call.1.toNat < numIrqEntries ∧ ∃ i, s.ioapics.findIdx? (Routing.serves (table call.1.toNat).target) = some i) ∧
      s' = s) := by
  rw [execRoute, Routing.routeIsaIrq, irqs_known known] at ran
  by_cases inside : call.1.toNat < numIrqEntries
  · rw [if_pos inside] at ran
    cases found : s.ioapics.findIdx? (Routing.serves (table call.1.toNat).target) with
    | none =>
      simp only [found, Option.some.injEq, Prod.mk.injEq] at ran
      exact .inr ⟨by simp, ran.2.symm⟩
    | some i =>
      simp only [found, Option.bind_eq_bind, Option.bind_eq_some_iff, Option.some.injEq, Prod.mk.injEq] at ran
      obtain ⟨middle, done, _, rfl⟩ := ran
      obtain ⟨a, here, same⟩ := program_some done
      exact .inl ⟨i, a, inside, rfl, here, same⟩
  · rw [if_neg inside] at ran
    simp only [Option.some.injEq, Prod.mk.injEq] at ran
    exact .inr ⟨fun both => inside both.1, ran.2.symm⟩

/-- Whether a call programs an entry of an IO-APIC, and with what. -/
def programs (table : Nat → Interrupt) (ioapics : List State) (k e : Nat) (call : UInt8 × UInt8) :
    Option (Interrupt × UInt8) :=
  let irq := table call.1.toNat
  if call.1.toNat < numIrqEntries ∧ ioapics.findIdx? (Routing.serves irq.target) = some k ∧ irq.target.toNat = e then
    some (irq, call.2)
  else none

/-- The two words of an entry. -/
def entry (s : Routing) (k e : Nat) : Option (UInt32 × UInt32) :=
  (s.ioapics[k]?).map fun a => (a.device.reg (entryLo e), a.device.reg (entryHi e))

/-- No IO-APIC serves a line whose entry the index of the registers cannot name. -/
def Low (ioapics : List State) : Prop := ∀ a ∈ ioapics, a.base.toNat + a.size.toNat < 120

instance (ioapics : List State) : Decidable (Low ioapics) := inferInstanceAs (Decidable (∀ a ∈ ioapics, _))

private theorem low_of_lines {ioapics start : List State} (same : lines ioapics = lines start) (low : Low start) :
    Low ioapics := by
  intro a member
  have listed : (a.base, a.size) ∈ lines start := by
    rw [← same]
    exact List.mem_map_of_mem member
  obtain ⟨first, inside, equal⟩ := List.mem_map.mp listed
  obtain ⟨base, size⟩ := Prod.mk.inj equal
  rw [← base, ← size]
  exact low first inside

/-- A line that is served is within the guard of the calls, and its entry has a register. -/
theorem served {ioapics : List State} {line : UInt8} {i : Nat} {a : State} (low : Low ioapics)
    (found : ioapics.findIdx? (Routing.serves line) = some i) (here : ioapics[i]? = some a) :
    outside a line = false ∧ line.toNat < 120 := by
  obtain ⟨inside, first, _⟩ := List.findIdx?_eq_some_iff_getElem.mp found
  obtain ⟨_, equal⟩ := List.getElem?_eq_some_iff.mp here
  rw [equal] at first
  obtain ⟨above, below⟩ := of_decide_eq_true first
  refine ⟨outside_iff.mpr ⟨above, below⟩, ?_⟩
  have room := low a (List.mem_of_getElem? here)
  have range := UInt8.le_iff_toNat_le.mp below
  rw [Ioapic.range, UInt8.toNat_add] at range
  omega

private theorem entry_set {k e i : Nat} {a a' : State} (here : s.ioapics[i]? = some a) :
    entry { s with ioapics := s.ioapics.set i a' } k e =
      if k = i then some (a'.device.reg (entryLo e), a'.device.reg (entryHi e)) else entry s k e := by
  by_cases same : k = i
  · subst same
    rw [if_pos rfl, entry, List.getElem?_set_self', here]
    rfl
  · rw [if_neg same, entry, List.getElem?_set_ne (Ne.symm same)]
    rfl

private theorem execRoute_entry {start : List State} {k e : Nat} (low : Low start) (small : e < 120)
    (known : s.interrupts = some table ∧ lines s.ioapics = lines start) (ran : execRoute s call = some (answer, s')) :
    (s'.interrupts = some table ∧ lines s'.ioapics = lines start) ∧
      entry s' k e = ((programs table start k e call).map fun set =>
        some (routed set.1 set.2, (0xff000000 : UInt32))).getD (entry s k e) := by
  obtain ⟨known, same⟩ := known
  have search := findIdx_serves same (table call.1.toNat).target
  rw [programs, ← search]
  obtain ⟨i, a, inside, found, here, rfl⟩ | ⟨nothing, rfl⟩ := execRoute_cases known ran
  · obtain ⟨within, line⟩ := served (low_of_lines same low) found here
    obtain ⟨base, size⟩ := @route_bounds a (table call.1.toNat).target call.2 (table call.1.toNat)
    refine ⟨⟨known, (lines_set here base size).trans same⟩, ?_⟩
    rw [entry_set here, found]
    by_cases other : k = i
    · subst other
      rw [if_pos rfl, route_entry within line small]
      by_cases this : (table call.1.toNat).target.toNat = e
      · rw [if_pos this, if_pos (And.intro inside ⟨rfl, this⟩)]
        rfl
      · rw [if_neg this, if_neg fun all => this all.2.2, entry, here]
        rfl
    · rw [if_neg other, if_neg fun all => other (Option.some.inj all.2.1).symm]
      rfl
  · refine ⟨⟨known, same⟩, ?_⟩
    rw [if_neg]
    · rfl
    · intro ⟨inside, found, _⟩
      exact nothing ⟨inside, k, found⟩

/-- The interrupt that a source override enters for a source. -/
def overrides (n : Nat) : IrqEntry → Option Interrupt
  | .sourceOverride sourceIrq globalIrq trigger polarity =>
    if sourceIrq.toNat = n then some ⟨sourceIrq, globalIrq.toUInt8, trigger, polarity⟩ else none
  | _ => none

/-- The last override of a source in the MADT; a source without one has its own line. -/
def interruptOf (entries : List IrqEntry) (n : Nat) : Interrupt :=
  (entries.filterMap (overrides n)).getLast?.getD (newInterrupts n)

/-- The source that a global NMI is entered for: its line is taken for one. -/
def nmiOf : IrqEntry → Option Nat
  | .nmiSource globalIrq _ _ => some globalIrq.toUInt8.toNat
  | _ => none

private theorem allIrqs_state (s : Routing) : s.allIrqs =
    (s.interrupts.getD newInterrupts, { s with interrupts := some (s.interrupts.getD newInterrupts) }) := by
  obtain ⟨interrupts, ioapics⟩ := s
  cases interrupts <;> rfl

private theorem applyOverride_interrupt {n : Nat} (inside : n < numIrqEntries) (s : Routing) (event : IrqEntry) :
    (applyOverride s event).interrupts.getD newInterrupts n =
      (overrides n event).getD (s.interrupts.getD newInterrupts n) := by
  cases event with
  | sourceOverride sourceIrq globalIrq trigger polarity =>
    by_cases known : sourceIrq.toNat < numIrqEntries
    · simp only [applyOverride, Routing.irqs, if_pos known, allIrqs_state, Routing.setInterrupt, Option.map_some,
        Option.getD_some, overrides]
      by_cases same : sourceIrq.toNat = n
      · subst same
        rw [Function.update_self, if_pos rfl]
        rfl
      · rw [Function.update_of_ne (Ne.symm same), if_neg same]
        rfl
    · have other : sourceIrq.toNat ≠ n := fun same => known (same ▸ inside)
      simp only [applyOverride, Routing.irqs, if_neg known, overrides, if_neg other, Option.getD_none]
  | ioapic address baseIrq => rfl
  | nmiSource globalIrq trigger polarity => rfl
  | other => rfl

private theorem applyOverride_all {n : Nat} (inside : n < numIrqEntries) (entries : List IrqEntry) :
    (entries.foldl applyOverride ⟨none, []⟩).interrupts.getD newInterrupts n = interruptOf entries n :=
  foldl_last (fun s : Routing => s.interrupts.getD newInterrupts n) (overrides n)
    (applyOverride_interrupt inside) entries ⟨none, []⟩

/-- The entries below the last one are masked. -/
def Masked (ioapics : List State) : Prop :=
  ∀ a ∈ ioapics, ∀ e < a.size.toNat, a.device.reg (entryLo e) &&& bit 16 = bit 16

private theorem modify_reg {a : State} {line : UInt8} {change : UInt32 → UInt32} (inside : outside a line = false)
    (r : Nat) :
    (modify line change a).device.reg r =
      if r = (16 + line.toNat * 2) % 256 then change (a.device.reg r) else a.device.reg r := by
  have apart : (16 + line.toNat * 2) % 256 ≠ (17 + line.toNat * 2) % 256 := by omega
  simp only [modify, inside, Bool.false_eq_true, if_false, read, write, kIOAPICRedirectLo, kIOAPICRedirectHi]
  by_cases high : r = (17 + line.toNat * 2) % 256
  · subst high
    rw [Function.update_self, if_neg (Ne.symm apart)]
  · rw [Function.update_of_ne high]
    by_cases low : r = (16 + line.toNat * 2) % 256
    · subst low
      rw [Function.update_self, if_pos rfl]
    · rw [Function.update_of_ne low, if_neg low]

private theorem setNmi_masked (old : UInt32) (trigger : TriggerMode) (polarity : Polarity)
    (masked : old &&& bit 16 = bit 16) :
    ((old &&& ~~~0x0000e700) ||| (irqFlags 13 trigger polarity ||| kNMI)) &&& bit 16 = bit 16 := by
  apply UInt32.toBitVec_inj.mp
  exact Mask.set_kept (congrArg UInt32.toBitVec masked) (by decide)

private theorem masked_set {ioapics : List State} (masked : Masked ioapics) {a' : State} {i : Nat}
    (kept : ∀ e < a'.size.toNat, a'.device.reg (entryLo e) &&& bit 16 = bit 16) : Masked (ioapics.set i a') := by
  intro a member
  obtain rfl | before := List.mem_or_eq_of_mem_set member |>.symm
  · exact kept
  · exact masked a before

private theorem configureIoapics_masked {board : Board} {entries : List IrqEntry}
    (low : Low (configureIoapics board entries)) :
    Masked (configureIoapics board entries) := by
  intro a member e inside
  have room := low a member
  obtain ⟨entry, _, made⟩ := List.mem_filterMap.mp member
  cases entry with
  | ioapic address baseIrq =>
    obtain rfl := Option.some.inj made
    cases available : board.available address with
    | false =>
      rw [available] at inside
      exact absurd inside (Nat.not_lt_zero e)
    | true =>
      rw [available] at inside room
      rw [init_size] at inside room
      rw [init_reg, if_pos]
      · apply (or_eq_iff _ _).mp
        rw [UInt32.or_assoc, UInt32.or_self]
      · refine ⟨e, inside, ?_⟩
        have lo : entryLo e = 16 + 2 * e := rfl
        omega
  | sourceOverride _ _ _ _ => cases made
  | nmiSource _ _ _ => cases made
  | other => cases made

/-- What the third run of the parser keeps: the lines, and that no entry is open. -/
structure Parsed (table : Nat → Interrupt) (start : List State) (s : Routing) : Prop where
  known : s.interrupts = some table
  same : lines s.ioapics = lines start
  masked : Masked s.ioapics

private theorem applyNmiSource_parsed {start : List State} (low : Low start)
    (parsed : Parsed table start s) {event : IrqEntry}
    (ran : applyNmiSource s event = some s') :
    ∃ table', Parsed table' start s' ∧ (∀ n, (table' n).target = (table n).target) ∧
      ∀ n, nmiOf event ≠ some n → table' n = table n := by
  have still : ∃ table', Parsed table' start s ∧ (∀ n, (table' n).target = (table n).target) ∧
      ∀ n, nmiOf event ≠ some n → table' n = table n := ⟨table, parsed, fun _ => rfl, fun _ _ => rfl⟩
  cases event with
  | nmiSource globalIrq trigger polarity =>
    let n := globalIrq.toUInt8.toNat
    simp only [applyNmiSource, Routing.setNmi, irqs_known parsed.known] at ran
    by_cases inside : n < numIrqEntries
    · rw [if_pos inside] at ran
      cases found : s.ioapics.findIdx? (Routing.serves (table n).target) with
      | none =>
        simp only [n, found] at ran
        cases ran
        exact still
      | some i =>
        simp only [n, found, Option.bind_eq_bind, Option.bind_eq_some_iff, Option.some.injEq] at ran
        obtain ⟨result, ⟨middle, done, rfl⟩, rfl⟩ := ran
        obtain ⟨a, here, rfl⟩ := program_some done
        obtain ⟨within, small⟩ := served (low_of_lines parsed.same low) found here
        obtain ⟨base, size⟩ := exec_bounds (.nmi (table n).target trigger polarity) a
        refine ⟨Function.update table n { table n with trigger, polarity }, ⟨?_, ?_, ?_⟩, ?_, ?_⟩
        · simp only [Routing.setInterrupt, parsed.known, Option.map_some, n]
        · exact (lines_set here base size).trans parsed.same
        · apply masked_set parsed.masked
          intro e below
          simp only [Operation.exec] at size
          rw [size] at below
          have was := parsed.masked a (List.mem_of_getElem? here) e below
          rw [setNmi, modify_reg within]
          split
          · exact setNmi_masked _ trigger polarity was
          · exact was
        · intro m
          by_cases this : m = n
          · subst this
            rw [Function.update_self]
          · rw [Function.update_of_ne this]
        · intro m other
          have different : m ≠ n := fun this => other (this ▸ rfl)
          rw [Function.update_of_ne different]
    · rw [if_neg inside] at ran
      cases ran
      exact still
  | ioapic address baseIrq =>
    cases ran
    exact still
  | sourceOverride sourceIrq globalIrq trigger polarity =>
    cases ran
    exact still
  | other =>
    cases ran
    exact still

private theorem applyNmiSources_parsed {start : List State} (low : Low start) {entries : List IrqEntry}
    (parsed : Parsed table start s) (ran : entries.foldlM applyNmiSource s = some s') :
    ∃ table', Parsed table' start s' ∧ (∀ n, (table' n).target = (table n).target) ∧
      ∀ n, some n ∉ entries.map nmiOf → table' n = table n := by
  induction entries generalizing s table with
  | nil =>
    cases ran
    exact ⟨table, parsed, fun _ => rfl, fun _ _ => rfl⟩
  | cons event entries ih =>
    rw [List.foldlM_cons] at ran
    obtain ⟨middle, first, rest⟩ := Option.bind_eq_some_iff.mp ran
    obtain ⟨table1, parsed1, target1, other1⟩ := applyNmiSource_parsed low parsed first
    obtain ⟨table2, parsed2, target2, other2⟩ := ih parsed1 rest
    refine ⟨table2, parsed2, fun n => (target2 n).trans (target1 n), fun n absent => ?_⟩
    obtain ⟨here, later⟩ := not_or.mp fun either => absent (List.mem_cons.mpr either)
    exact (other2 n later).trans (other1 n (Ne.symm here))

private theorem parseInterrupts_parsed {board : Board} {entries : List IrqEntry}
    (low : Low (configureIoapics board entries))
    (ran : parseInterrupts board entries = some s) :
    ∃ table, Parsed table (configureIoapics board entries) s ∧
      ∀ n < numIrqEntries, (table n).target = (interruptOf entries n).target ∧
        (some n ∉ entries.map nmiOf → table n = interruptOf entries n) := by
  rw [parseInterrupts] at ran
  split at ran
  · cases ran
  · rw [allIrqs_state] at ran
    obtain ⟨table, parsed, target, other⟩ := applyNmiSources_parsed low
      ⟨rfl, rfl, configureIoapics_masked low⟩ ran
    refine ⟨table, parsed, fun n inside => ⟨?_, fun absent => ?_⟩⟩
    · rw [target n, applyOverride_all inside]
    · rw [other n absent, applyOverride_all inside]

/-- For any MADT and board, in every run of `core::route_isa_irq`: the table is that of the
MADT, and a redirection entry is masked until a call programs it, and then carries the
vector of the last such call with the flags of its interrupt. -/
theorem entries_carry_routes {board : Board} {entries : List IrqEntry} {calls : List (UInt8 × UInt8)}
    (low : Low (configureIoapics board entries)) (parsed : parseInterrupts board entries = some s)
    (ran : runCalls execRoute s calls = some s') :
    ∃ table, s'.interrupts = some table ∧
      (∀ n < numIrqEntries, (table n).target = (interruptOf entries n).target ∧
        (some n ∉ entries.map nmiOf → table n = interruptOf entries n)) ∧
      ∀ k a, s'.ioapics[k]? = some a → ∀ e ≤ a.size.toNat,
        match (calls.filterMap (programs table (configureIoapics board entries) k e)).getLast? with
        | none => e < a.size.toNat → a.device.reg (entryLo e) &&& bit 16 = bit 16
        | some (irq, vector) => a.device.reg (entryLo e) = routed irq vector ∧ a.device.reg (entryHi e) = 0xff000000 := by
  obtain ⟨table, start, described⟩ := parseInterrupts_parsed low parsed
  have kept := fun k e (small : e < 120) => runCalls_last
    (fun s => s.interrupts = some table ∧ lines s.ioapics = lines (configureIoapics board entries)) (entry · k e)
    (fun call => (programs table (configureIoapics board entries) k e call).map fun set =>
      some (routed set.1 set.2, (0xff000000 : UInt32)))
    (fun _ _ _ _ known first => execRoute_entry low small known first) ⟨start.known, start.same⟩ ran
  obtain ⟨⟨known, same⟩, _⟩ := kept 0 0 (by decide)
  refine ⟨table, known, described, fun k a here e inside => ?_⟩
  have small : e < 120 := by
    have room := low_of_lines same low a (List.mem_of_getElem? here)
    omega
  obtain ⟨_, last⟩ := kept k e small
  rw [← List.map_filterMap, List.getLast?_map, entry, here] at last
  generalize (calls.filterMap (programs table (configureIoapics board entries) k e)).getLast? = route at last
  cases route with
  | some set =>
    obtain ⟨irq, vector⟩ := set
    obtain ⟨lo, hi⟩ := Prod.mk.inj (Option.some.inj last)
    exact ⟨lo, hi⟩
  | none =>
    intro below
    obtain ⟨first, there, words⟩ := Option.map_eq_some_iff.mp last.symm
    obtain ⟨lo, _⟩ := Prod.mk.inj words
    have sizes : first.size = a.size := by
      have alike := congrArg (·[k]?) (same.trans start.same.symm)
      simp only [lines, List.getElem?_map, here, there, Option.map_some, Option.some.injEq, Prod.mk.injEq] at alike
      exact alike.2.symm
    rw [← lo]
    apply start.masked first (List.mem_of_getElem? there)
    rw [sizes]
    exact below

/-- A board with one IO-APIC. The timer is on line 2 of it. -/
def oneIoapic : Board := { device := fun _ => unmasked 3, available := fun _ => true }

def timerOverride : List IrqEntry :=
  [.ioapic 0xfec00000 0, .sourceOverride 0 2 .conform .conform, .nmiSource 1 .edge .high]

theorem entries_carry_routes_witness :
    ∃ s s', parseInterrupts oneIoapic timerOverride = some s ∧ runCalls execRoute s [(0, 0x31)] = some s' ∧
      ∃ table, s'.interrupts = some table ∧
        (∀ n < numIrqEntries, (table n).target = (interruptOf timerOverride n).target ∧
          (some n ∉ timerOverride.map nmiOf → table n = interruptOf timerOverride n)) ∧
        ∀ k a, s'.ioapics[k]? = some a → ∀ e ≤ a.size.toNat,
          match ([(0, 0x31)].filterMap (programs table (configureIoapics oneIoapic timerOverride) k e)).getLast? with
          | none => e < a.size.toNat → a.device.reg (entryLo e) &&& bit 16 = bit 16
          | some (irq, vector) => a.device.reg (entryLo e) = routed irq vector ∧ a.device.reg (entryHi e) = 0xff000000 := by
  have low : Low (configureIoapics oneIoapic timerOverride) := by decide
  have both : ((parseInterrupts oneIoapic timerOverride).bind (runCalls execRoute · [(0, 0x31)])).isSome := by decide
  obtain ⟨s', found⟩ := Option.isSome_iff_exists.mp both
  obtain ⟨s, parsed, ran⟩ := Option.bind_eq_some_iff.mp found
  exact ⟨s, s', parsed, ran, entries_carry_routes low parsed ran⟩

end Hotarubi.Processor.Ioapic
