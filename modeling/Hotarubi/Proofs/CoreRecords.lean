import Hotarubi.Processor.Core
import Mathlib.Data.List.Infix

/-! Whether a starting processor installs the record that `core::instance` names
for its id. The bootstrap processor does; the first application processor already
takes the element after its own. -/

namespace Hotarubi.Processor

variable {κ : Type}

theorem coreInstance_ap {s : State κ} {core : UInt32} {array index : Nat}
    (named : coreInstance s core = some (.ap array index)) : array = s.aps ∧ index + 1 = core.toNat := by
  simp only [coreInstance] at named
  split at named
  · cases named
  next positive =>
    split at named
    · cases named
      refine ⟨rfl, ?_⟩
      have least : (1 : UInt32).toNat ≤ core.toNat :=
        Nat.pos_of_ne_zero fun zero => positive (UInt32.toNat_inj.mp zero)
      rw [UInt32.toNat_sub_of_le _ _ (UInt32.le_iff_toNat_le.mpr least)]
      exact Nat.sub_add_cancel least
    · cases named

/-- What the parser of the MADT leaves as it was in the records in use. -/
structure Parsed (s s' : State κ) : Prop where
  activeCount : s'.activeCount = s.activeCount
  gsBase : s'.gsBase = s.gsBase
  ids : ∀ record, (s'.core record).id = (s.core record).id
  bsp : (s'.core .bsp).gsSelf = (s.core .bsp).gsSelf

theorem Parsed.refl (s : State κ) : Parsed s s := ⟨rfl, rfl, fun _ => rfl, rfl⟩

theorem Parsed.trans {s s' s'' : State κ} (first : Parsed s s') (second : Parsed s' s'') : Parsed s s'' where
  activeCount := second.activeCount.trans first.activeCount
  gsBase := second.gsBase.trans first.gsBase
  ids record := (second.ids record).trans (first.ids record)
  bsp := second.bsp.trans first.bsp

private theorem setLapic_parsed (s : State κ) (record : CoreRef) (lapic : Lapic) : Parsed s (s.setLapic record lapic) where
  activeCount := rfl
  gsBase := rfl
  ids other := by
    simp only [State.setLapic, Function.update_apply]
    split
    next same => rw [same]
    next => rfl
  bsp := by
    simp only [State.setLapic, Function.update_apply]
    split
    next same => rw [same]
    next => rfl

private theorem configure_parsed {found : Resources} {madt : List MadtEntry} {s s' : State κ}
    (done : madt.foldlM (configureEntry found) s = some s') : Parsed s s' := by
  induction madt generalizing s with
  | nil =>
    cases done
    exact .refl _
  | cons entry madt ih =>
    rw [List.foldlM_cons] at done
    obtain ⟨next, configured, rest⟩ := Option.bind_eq_some_iff.mp done
    refine Parsed.trans ?_ (ih rest)
    cases entry with
    | lapic processorId apicId =>
      obtain ⟨record, _, stored⟩ := Option.bind_eq_some_iff.mp configured
      cases stored
      exact setLapic_parsed s record _
    | ioapic | lapicAddressOverride _ | other =>
      cases configured
      exact .refl s

private theorem newCores_parsed (s : State κ) (coreCount : UInt32) : Parsed s (newCores s coreCount) where
  activeCount := rfl
  gsBase := rfl
  ids record := by
    cases record with
    | bsp => rfl
    | ap array index =>
      simp only [newCores]
      split <;> rfl
  bsp := rfl

private theorem parseAsBsp_parsed {madt : List MadtEntry} {s s' : State κ} {cpu : κ}
    (parsed : parseAsBsp madt s cpu = some s') : Parsed s s' := by
  unfold parseAsBsp at parsed
  split at parsed
  · simp only [parseMadt] at parsed
    split at parsed
    · cases parsed
    · exact (newCores_parsed s _).trans (configure_parsed parsed)
  · cases parsed
    exact .refl s

variable [DecidableEq κ]

theorem init_cases {madt : List MadtEntry} {s s' : State κ} {cpu : κ} (started : init madt s cpu = some s') :
    parseAsBsp madt (account s cpu) cpu = some s' := by
  obtain ⟨next, parsed, rest⟩ := Option.bind_eq_some_iff.mp started
  obtain ⟨record, _, rest⟩ := Option.bind_eq_some_iff.mp rest
  obtain ⟨lapic, _, same⟩ := Option.bind_eq_some_iff.mp rest
  cases same
  exact parsed

/-- The bootstrap processor and then application processors run `processor::init`. -/
def start (madt : List MadtEntry) (s : State κ) (cpus : List κ) : Option (State κ) := cpus.foldlM (init madt) s

private theorem start_one (madt : List MadtEntry) (s : State κ) (cpu : κ) : start madt s [cpu] = init madt s cpu := by
  simp [start]

/-- Every started processor has a record of its own: the one that `core::instance`
names for its id, inside `_bsp` or the array that `_aps` points to. -/
structure RecordsAgree (s : State κ) (cpus : List κ) : Prop where
  installed : ∀ cpu ∈ cpus, ∃ record, s.gsBase cpu = some record ∧
    coreInstance s (s.core record).id.toUInt32 = some record
  inside : ∀ cpu ∈ cpus, ∀ record, s.gsBase cpu = some record →
    record = .bsp ∨ ∃ index < s.coreCount.toNat - 1, record = .ap s.aps index
  unshared : ∀ cpu ∈ cpus, ∀ other ∈ cpus, s.gsBase cpu = s.gsBase other → cpu = other

private theorem bsp_agrees {madt : List MadtEntry} {s s' : State κ} {bsp : κ} (first : s.activeCount = 0)
    (booted : init madt s bsp = some s') : RecordsAgree s' [bsp] := by
  have parsed := parseAsBsp_parsed (init_cases booted)
  have base : s'.gsBase bsp = some .bsp := by
    rw [parsed.gsBase]
    simp [account, first]
  have id : (s'.core .bsp).id = 0 := by
    rw [parsed.ids]
    simp [account, first]
  refine ⟨fun cpu member => ?_, fun cpu member record held => ?_, fun cpu member other member' _ => ?_⟩
  · rw [List.mem_singleton.mp member]
    exact ⟨.bsp, base, by rw [id]; rfl⟩
  · rw [List.mem_singleton.mp member, base] at held
    cases held
    exact .inl rfl
  · rw [List.mem_singleton.mp member, List.mem_singleton.mp member']

/-- The second processor to start installs element 1 under the id 1, and
`core::instance( 1 )` is element 0. -/
private theorem second_differs {madt : List MadtEntry} {s s' : State κ} {cpu : κ} (second : s.activeCount = 1)
    (started : init madt s cpu = some s') :
    ∃ record, s'.gsBase cpu = some record ∧ coreInstance s' (s'.core record).id.toUInt32 ≠ some record := by
  have parsed := parseAsBsp_parsed (init_cases started)
  refine ⟨.ap s.aps 1, ?_, ?_⟩
  · rw [parsed.gsBase]
    simp [account, second]
  · have id : (s'.core (.ap s.aps 1)).id = 1 := by
      rw [parsed.ids]
      simp [account, second]
    rw [id]
    intro named
    exact absurd (coreInstance_ap named).2 (by decide)

/-- The records agree with `core::instance` in every state that is reached exactly
when no application processor starts. -/
theorem records_agree_iff {madt : List MadtEntry} {s s' : State κ} {bsp : κ} (first : s.activeCount = 0)
    (booted : init madt s bsp = some s') {aps : List κ} (distinct : (bsp :: aps).Nodup)
    (fits : aps.length < s'.coreCount.toNat) :
    (∀ started, started <+: aps → ∃ t, start madt s' started = some t ∧ RecordsAgree t (bsp :: started)) ↔
      aps = [] := by
  constructor
  · intro agree
    cases aps with
    | nil => rfl
    | cons cpu rest =>
      exfalso
      obtain ⟨t, reached, records⟩ := agree [cpu] ⟨rest, rfl⟩
      rw [start_one] at reached
      have second : s'.activeCount = 1 := by
        rw [(parseAsBsp_parsed (init_cases booted)).activeCount]
        simp [account, first]
      obtain ⟨record, base, differs⟩ := second_differs second reached
      obtain ⟨other, base', named⟩ := records.installed cpu (by simp)
      rw [base] at base'
      cases base'
      exact differs named
  · rintro rfl started short
    obtain rfl := List.prefix_nil.mp short
    exact ⟨s', rfl, bsp_agrees first booted⟩

/-- Two processors and an I/O APIC. The boot processor alone has the record its id names. -/
def twoProcessors : List MadtEntry := [.lapic 0 0, .lapic 1 1, .ioapic]

def boot : State Nat := ⟨fun _ => ⟨none, 0, none⟩, 0, 0, 0, fun _ => none⟩

theorem records_agree_iff_witness :
    (∀ started, started <+: [1] → ∃ t, start twoProcessors ((init twoProcessors boot 0).get (by decide)) started =
      some t ∧ RecordsAgree t (0 :: started)) ↔ [1] = [] :=
  records_agree_iff (s := boot) rfl (Option.some_get _).symm (by decide) (by decide)

theorem records_disagree : ¬ ∀ (madt : List MadtEntry) (s s' : State Nat) (bsp : Nat) (aps : List Nat),
    s.activeCount = 0 → init madt s bsp = some s' → (bsp :: aps).Nodup → aps.length < s'.coreCount.toNat →
      ∃ t, start madt s' aps = some t ∧ RecordsAgree t (bsp :: aps) := by
  intro claim
  have second : ((init twoProcessors boot 0).get (by decide)).activeCount = 1 := by decide
  obtain ⟨t, reached, records⟩ := claim twoProcessors boot _ 0 [1] rfl (Option.some_get (by decide)).symm
    (by decide) (by decide)
  rw [start_one] at reached
  obtain ⟨record, base, differs⟩ := second_differs second reached
  obtain ⟨other, base', named⟩ := records.installed 1 (by simp)
  rw [base] at base'
  cases base'
  exact differs named

end Hotarubi.Processor
