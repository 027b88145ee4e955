import Hotarubi.Base.Runs
import Hotarubi.Processor.Madt
import Hotarubi.Proofs.CoreRecords
import Mathlib.Algebra.Group.Nat.Defs
import Mathlib.Data.List.Nodup
import Mathlib.Data.List.Perm.Subperm
import Mathlib.Data.Set.Function

/-! Whether the MADT parser stays clear of null records. It takes the offset of a
processor id from the least id for an index below the number of processors. -/

namespace Hotarubi.Processor

open Base

variable {κ : Type}

def lapicIds (madt : List MadtEntry) : List UInt8 :=
  madt.filterMap fun
    | .lapic processorId _ => some processorId
    | _ => none

def ioapics (madt : List MadtEntry) : Nat := madt.countP (· == .ioapic)

private theorem lapicIds_append (first second : List MadtEntry) :
    lapicIds (first ++ second) = lapicIds first ++ lapicIds second := List.filterMap_append

private theorem ioapics_append (first second : List MadtEntry) :
    ioapics (first ++ second) = ioapics first + ioapics second := List.countP_append

/-- What the first run has collected after some entries. -/
structure Counted (before : Resources) (madt : List MadtEntry) (found : Resources) : Prop where
  cores : found.coreCount = before.coreCount + .ofNat (lapicIds madt).length
  ioapics : found.ioapicCount = before.ioapicCount + .ofNat (ioapics madt)
  below : found.coreBase ≤ before.coreBase
  least : ∀ id ∈ lapicIds madt, found.coreBase ≤ id.toUInt32
  base : found.coreBase = before.coreBase ∨ ∃ id ∈ lapicIds madt, found.coreBase = id.toUInt32

private theorem countEntry_counted (before : Resources) (entry : MadtEntry) :
    Counted before [entry] (countEntry before entry) := by
  cases entry with
  | lapic processorId apicId =>
    refine ⟨rfl, by simp [countEntry, ioapics], ?_, ?_, ?_⟩
    · simp only [countEntry]
      split
      next below => exact UInt32.le_of_lt below
      next => exact UInt32.le_refl _
    · intro id member
      obtain rfl : id = processorId := by simpa [lapicIds] using member
      simp only [countEntry]
      split
      next => exact UInt32.le_refl _
      next above => exact UInt32.not_lt.mp above
    · simp only [countEntry]
      split
      next => exact .inr ⟨processorId, by simp [lapicIds], rfl⟩
      next => exact .inl rfl
  | ioapic | lapicAddressOverride _ | other =>
    refine ⟨by simp [countEntry, lapicIds], ?_, UInt32.le_refl _, by simp [lapicIds], .inl rfl⟩
    simp [countEntry, ioapics]

theorem Counted.trans {before next found : Resources} {first second : List MadtEntry}
    (one : Counted before first next) (two : Counted next second found) :
    Counted before (first ++ second) found where
  cores := by
    rw [two.cores, one.cores, lapicIds_append, List.length_append, UInt32.ofNat_add, UInt32.add_assoc]
  ioapics := by
    rw [two.ioapics, one.ioapics, ioapics_append, UInt32.ofNat_add, UInt32.add_assoc]
  below := UInt32.le_trans two.below one.below
  least id member := by
    rw [lapicIds_append, List.mem_append] at member
    rcases member with early | late
    · exact UInt32.le_trans two.below (one.least id early)
    · exact two.least id late
  base := by
    rw [lapicIds_append]
    rcases two.base with same | ⟨id, member, same⟩
    · rcases one.base with same' | ⟨id, member, same'⟩
      · exact .inl (same.trans same')
      · exact .inr ⟨id, List.mem_append_left _ member, same.trans same'⟩
    · exact .inr ⟨id, List.mem_append_right _ member, same⟩

private theorem foldl_counted (madt : List MadtEntry) (before : Resources) :
    Counted before madt (madt.foldl countEntry before) := by
  induction madt generalizing before with
  | nil => exact ⟨by simp [lapicIds], by simp [ioapics], UInt32.le_refl _, by simp [lapicIds], .inl rfl⟩
  | cons entry madt ih => exact (countEntry_counted before entry).trans (ih _)

private theorem lapicIds_length {madt : List MadtEntry} (distinct : (lapicIds madt).Nodup) :
    (lapicIds madt).length ≤ 256 := by
  have numbers : ((lapicIds madt).map UInt8.toNat).Nodup :=
    distinct.map fun _ _ same => UInt8.toNat_inj.mp same
  have inside : (lapicIds madt).map UInt8.toNat ⊆ List.range 256 := by
    intro number member
    obtain ⟨id, _, rfl⟩ := List.mem_map.mp member
    exact List.mem_range.mpr id.toNat_lt
  have short := (numbers.subperm inside).length_le
  rwa [List.length_map, List.length_range] at short

/-- With distinct ids the counters of the first run are the numbers of entries, and
the base is the least id, if there is a processor at all. -/
private theorem countEntries_spec {madt : List MadtEntry} (distinct : (lapicIds madt).Nodup) :
    (countEntries madt).coreCount.toNat = (lapicIds madt).length ∧
      (countEntries madt).ioapicCount.toNat = ioapics madt % 2 ^ 32 ∧
      (∀ id ∈ lapicIds madt, (countEntries madt).coreBase.toNat ≤ id.toNat) ∧
      (lapicIds madt ≠ [] → ∃ id ∈ lapicIds madt, (countEntries madt).coreBase.toNat = id.toNat) := by
  have counted := foldl_counted madt ⟨0, 0, 0, 255⟩
  have short := lapicIds_length distinct
  refine ⟨?_, ?_, fun id member => UInt32.le_iff_toNat_le.mp (counted.least id member), fun some => ?_⟩
  · rw [countEntries, counted.cores, UInt32.zero_add, UInt32.toNat_ofNat']
    exact Nat.mod_eq_of_lt (by omega)
  · rw [countEntries, counted.ioapics, UInt32.zero_add, UInt32.toNat_ofNat']
  · rcases counted.base with top | ⟨id, member, same⟩
    · obtain ⟨id, member⟩ := List.exists_mem_of_ne_nil _ some
      refine ⟨id, member, Nat.le_antisymm (UInt32.le_iff_toNat_le.mp (counted.least id member)) ?_⟩
      rw [countEntries, top]
      exact Nat.le_of_lt_succ id.toNat_lt
    · exact ⟨id, member, by rw [countEntries, same, UInt8.toNat_toUInt32]⟩

private theorem coreInstance_isSome {s : State κ} (many : 0 < s.coreCount) (core : UInt32) :
    (coreInstance s core).isSome ↔ core < s.coreCount := by
  simp only [coreInstance]
  split
  next zero => simpa [zero] using many
  next => split <;> simp_all

private theorem coreInstance_inj {s : State κ} {core core' : UInt32} {record : CoreRef}
    (named : coreInstance s core = some record) (named' : coreInstance s core' = some record) : core = core' := by
  cases record with
  | bsp =>
    have zero : ∀ {core : UInt32}, coreInstance s core = some .bsp → core = 0 := by
      intro core named
      simp only [coreInstance] at named
      split at named
      next zero => exact zero
      next => split at named <;> cases named
    rw [zero named, zero named']
  | ap array index =>
    have first := (coreInstance_ap named).2
    have second := (coreInstance_ap named').2
    exact UInt32.toNat_inj.mp (first.symm.trans second)

/-- The variables that `core::instance` reads. -/
def SameArray (s s' : State κ) : Prop := s'.aps = s.aps ∧ s'.coreCount = s.coreCount

private theorem SameArray.instance_eq {s s' : State κ} (same : SameArray s s') (core : UInt32) :
    coreInstance s' core = coreInstance s core := by
  simp only [coreInstance, same.1, same.2]

theorem SameArray.configured {found : Resources} {s w w' : State κ} {entry : MadtEntry} (same : SameArray s w)
    (configured : configureEntry found w entry = some w') : SameArray s w' := by
  cases entry with
  | lapic processorId apicId =>
    obtain ⟨record, _, stored⟩ := Option.bind_eq_some_iff.mp configured
    cases stored
    exact same
  | ioapic | lapicAddressOverride _ | other =>
    cases configured
    exact same

private theorem configure_sameArray {found : Resources} {madt : List MadtEntry} {s s' : State κ}
    (done : madt.foldlM (configureEntry found) s = some s') : SameArray s s' :=
  foldlM_kept (fun _ _ _ same configured => same.configured configured) ⟨rfl, rfl⟩ done

/-- The second run meets no null record exactly when the offset of every processor id
is below the number of processors. -/
private theorem configure_isSome_iff {found : Resources} {madt : List MadtEntry} {s : State κ} (many : 0 < s.coreCount) :
    (madt.foldlM (configureEntry found) s).isSome ↔
      ∀ id ∈ lapicIds madt, id.toUInt32 - found.coreBase < s.coreCount := by
  have tested : ∀ w entry, SameArray s w → ((configureEntry found w entry).isSome ↔
      ∀ id ∈ lapicIds [entry], id.toUInt32 - found.coreBase < s.coreCount) := by
    intro w entry same
    cases entry with
    | lapic processorId apicId =>
      have named := coreInstance_isSome many (processorId.toUInt32 - found.coreBase)
      have one : lapicIds [.lapic processorId apicId] = [processorId] := rfl
      rw [one, List.forall_mem_singleton, ← named, configureEntry, same.instance_eq]
      cases coreInstance s (processorId.toUInt32 - found.coreBase) <;> rfl
    | ioapic | lapicAddressOverride _ | other => simp [configureEntry, lapicIds]
  rw [foldlM_isSome_iff tested (fun _ _ _ same configured => same.configured configured) ⟨rfl, rfl⟩]
  constructor
  · intro each id member
    obtain ⟨entry, inside, listed⟩ := List.mem_filterMap.mp member
    exact each entry inside id (List.mem_filterMap.mpr ⟨entry, by simp, listed⟩)
  · intro each entry inside id member
    obtain ⟨entry', single, listed⟩ := List.mem_filterMap.mp member
    rw [List.mem_singleton.mp single] at listed
    exact each id (List.mem_filterMap.mpr ⟨entry, inside, listed⟩)

private theorem configure_other {found : Resources} {madt : List MadtEntry} {s s' : State κ} {record : CoreRef}
    (done : madt.foldlM (configureEntry found) s = some s')
    (unnamed : ∀ id ∈ lapicIds madt, coreInstance s (id.toUInt32 - found.coreBase) ≠ some record) :
    (s'.core record).lapic = (s.core record).lapic := by
  induction madt generalizing s with
  | nil =>
    cases done
    rfl
  | cons entry madt ih =>
    rw [List.foldlM_cons] at done
    obtain ⟨next, configured, rest⟩ := Option.bind_eq_some_iff.mp done
    have same : SameArray s next := SameArray.configured ⟨rfl, rfl⟩ configured
    have later := ih rest fun id member => by
      rw [same.instance_eq]
      apply unnamed id
      rw [← List.singleton_append, lapicIds_append]
      exact List.mem_append_right _ member
    rw [later]
    cases entry with
    | lapic processorId apicId =>
      obtain ⟨named, found', stored⟩ := Option.bind_eq_some_iff.mp configured
      cases stored
      have apart : record ≠ named := by
        rintro rfl
        exact unnamed processorId (by simp [lapicIds]) found'
      simp only [State.setLapic, Function.update_of_ne apart]
    | ioapic | lapicAddressOverride _ | other =>
      cases configured
      rfl

private theorem configure_stored {found : Resources} {madt : List MadtEntry} {s s' : State κ}
    (done : madt.foldlM (configureEntry found) s = some s') (distinct : (lapicIds madt).Nodup)
    {processorId apicId : UInt8} (listed : .lapic processorId apicId ∈ madt) :
    ∃ record, coreInstance s (processorId.toUInt32 - found.coreBase) = some record ∧
      (s'.core record).lapic = some ⟨apicId, found.lapicBase⟩ := by
  induction madt generalizing s with
  | nil => cases listed
  | cons entry madt ih =>
    rw [List.foldlM_cons] at done
    obtain ⟨next, configured, rest⟩ := Option.bind_eq_some_iff.mp done
    have same : SameArray s next := SameArray.configured ⟨rfl, rfl⟩ configured
    rw [← List.singleton_append, lapicIds_append, List.nodup_append] at distinct
    obtain ⟨_, later, apart⟩ := distinct
    rcases List.mem_cons.mp listed with rfl | listed
    · obtain ⟨record, named, stored⟩ := Option.bind_eq_some_iff.mp configured
      cases stored
      refine ⟨record, named, ?_⟩
      rw [configure_other rest]
      · simp [State.setLapic]
      · intro id member again
        rw [same.instance_eq] at again
        have offsets := coreInstance_inj named again
        exact apart processorId (by simp [lapicIds]) id member
          (UInt8.toUInt32_inj.mp (UInt32.sub_left_inj _ |>.mp offsets))
    · obtain ⟨record, named, stored⟩ := ih rest later listed
      exact ⟨record, by rwa [same.instance_eq] at named, stored⟩

private theorem setNmi_cores (p : Parsing κ) (record : CoreRef) (desc : MadtLapicNmi) :
    (p.setNmi record desc).cores = p.cores := by
  simp only [Parsing.setNmi]
  split <;> rfl

private theorem instanceNmi_isSome {p : Parsing κ} {core : UInt32} {desc : MadtLapicNmi} (many : 0 < p.cores.coreCount) :
    (instanceNmi p core desc).isSome ↔ core < p.cores.coreCount := by
  rw [← coreInstance_isSome many, instanceNmi]
  cases coreInstance p.cores core <;> rfl

private theorem instanceNmi_cores {p p' : Parsing κ} {core : UInt32} {desc : MadtLapicNmi}
    (applied : instanceNmi p core desc = some p') : p'.cores = p.cores := by
  obtain ⟨record, _, stored⟩ := Option.bind_eq_some_iff.mp applied
  cases stored
  exact setNmi_cores p record desc

private theorem nmiAll_isSome {p : Parsing κ} (desc : MadtLapicNmi) (many : 0 < p.cores.coreCount) :
    ((List.range p.cores.coreCount.toNat).foldlM (fun p i => instanceNmi p (.ofNat i) desc) p).isSome := by
  have tested : ∀ (w : Parsing κ) (i : Nat), w.cores = p.cores →
      ((instanceNmi w (.ofNat i) desc).isSome ↔ UInt32.ofNat i < p.cores.coreCount) := by
    intro w i same
    rw [← same]
    exact instanceNmi_isSome (same ▸ many)
  rw [foldlM_isSome_iff tested (fun w i w' same applied => (instanceNmi_cores applied).trans same) rfl]
  intro i member
  have inside := List.mem_range.mp member
  have fits : i < UInt32.size := Nat.lt_trans inside p.cores.coreCount.toNat_lt
  rw [UInt32.lt_iff_toNat_lt, UInt32.toNat_ofNat_of_lt' fits]
  exact inside

def NamesEnd (found : Resources) (coreCount : UInt32) : TableEntry → Prop
  | .lapicNmi desc => desc.processorId ≠ 255 ∧ desc.processorId.toUInt32 - found.coreBase = coreCount
  | .madt _ => False

private theorem applyNmi_isSome {found : Resources} {p : Parsing κ} {entry : TableEntry} (many : 0 < p.cores.coreCount) :
    (applyNmi found p entry).isSome ↔ ¬NamesEnd found p.cores.coreCount entry := by
  cases entry with
  | madt entry => simp [applyNmi, NamesEnd]
  | lapicNmi desc =>
    simp only [applyNmi, NamesEnd]
    split
    next all => simpa [all] using nmiAll_isSome desc many
    next single =>
      split
      next unknown =>
        have above := UInt32.ne_of_lt unknown
        simpa [single] using above.symm
      next guarded =>
        rw [instanceNmi_isSome many]
        have bound := UInt32.not_lt.mp guarded
        rw [ne_eq, and_iff_right single]
        exact ⟨fun below => UInt32.ne_of_lt below, fun apart => UInt32.lt_of_le_of_ne bound apart⟩

private theorem applyNmi_cores {found : Resources} {p p' : Parsing κ} {entry : TableEntry}
    (applied : applyNmi found p entry = some p') : p'.cores = p.cores := by
  cases entry with
  | madt entry =>
    cases applied
    rfl
  | lapicNmi desc =>
    simp only [applyNmi] at applied
    split at applied
    · exact foldlM_kept (fun w i w' same step => (instanceNmi_cores step).trans same) rfl applied
    · split at applied
      · cases applied
        rfl
      · exact instanceNmi_cores applied

private theorem applyNmis_cores {found : Resources} {table : List TableEntry} {p p' : Parsing κ}
    (applied : table.foldlM (applyNmi found) p = some p') : p'.cores = p.cores := by
  have kept : ∀ (w : Parsing κ) entry w', w.cores = p.cores → applyNmi found w entry = some w' → w'.cores = p.cores :=
    fun w entry w' same step => (applyNmi_cores step).trans same
  exact foldlM_kept kept rfl applied

private theorem applyNmis_isSome {found : Resources} {table : List TableEntry} {p : Parsing κ}
    (many : 0 < p.cores.coreCount) :
    (table.foldlM (applyNmi found) p).isSome ↔ ∀ entry ∈ table, ¬NamesEnd found p.cores.coreCount entry := by
  have tested : ∀ (w : Parsing κ) (entry : TableEntry), w.cores = p.cores →
      ((applyNmi found w entry).isSome ↔ ¬NamesEnd found p.cores.coreCount entry) := by
    intro w entry same
    rw [← same]
    exact applyNmi_isSome (same ▸ many)
  exact foldlM_isSome_iff tested (fun w entry w' same applied => (applyNmi_cores applied).trans same) rfl

def tableIds (table : List TableEntry) : List UInt8 := lapicIds (table.map TableEntry.counted)

/-- The parser met no null record, and if it returns every LAPIC is in a record of its own. -/
def Safe (table : List TableEntry) : Except Fault (Parsing κ) → Prop
  | .error .nullInstance => False
  | .error (.panic _) => True
  | .ok p => ∃ record : UInt8 → CoreRef, Set.InjOn record {id | id ∈ tableIds table} ∧
      ∀ processorId apicId, .madt (.lapic processorId apicId) ∈ table →
        ∃ lapicBase, (p.cores.core (record processorId)).lapic = some ⟨apicId, lapicBase⟩

/-- The ids lie within a span as long as their number. -/
def Dense (ids : List UInt8) : Prop := ∀ low ∈ ids, ∀ high ∈ ids, high.toNat < low.toNat + ids.length

/-- The id that follows the span of the least one. -/
def Past (ids : List UInt8) (id : UInt8) : Prop :=
  ∃ low ∈ ids, (∀ other ∈ ids, low ≤ other) ∧ id.toNat = low.toNat + ids.length

instance (ids : List UInt8) : Decidable (Dense ids) :=
  decidable_of_iff (ids.all fun low => ids.all fun high => decide (high.toNat < low.toNat + ids.length)) (by
    simp only [List.all_eq_true, decide_eq_true_eq, Dense])

instance (ids : List UInt8) (id : UInt8) : Decidable (Past ids id) :=
  decidable_of_iff (ids.any fun low => (ids.all fun other => decide (low ≤ other)) &&
    decide (id.toNat = low.toNat + ids.length)) (by
    simp only [List.any_eq_true, Bool.and_eq_true, List.all_eq_true, decide_eq_true_eq, Past])

/-- The first run finds no processor or no I/O APIC, and the parser panics. -/
def Refused (table : List TableEntry) : Prop :=
  tableIds table = [] ∨ ioapics (table.map TableEntry.counted) % 2 ^ 32 = 0

private theorem offset_lt_iff {found : Resources} {id : UInt8} {coreCount : UInt32}
    (base : found.coreBase.toNat ≤ id.toNat) :
    id.toUInt32 - found.coreBase < coreCount ↔ id.toNat < found.coreBase.toNat + coreCount.toNat := by
  have least : found.coreBase ≤ id.toUInt32 := by rwa [UInt32.le_iff_toNat_le, UInt8.toNat_toUInt32]
  rw [UInt32.lt_iff_toNat_lt, UInt32.toNat_sub_of_le _ _ least, UInt8.toNat_toUInt32]
  omega

private theorem offset_eq_iff {found : Resources} {id : UInt8} {coreCount : UInt32} (base : found.coreBase.toNat < 256)
    (many : coreCount.toNat ≤ 256) :
    id.toUInt32 - found.coreBase = coreCount ↔ id.toNat = found.coreBase.toNat + coreCount.toNat := by
  have byte := id.toNat_lt
  rw [← UInt32.toNat_inj, UInt32.toNat_sub, UInt8.toNat_toUInt32]
  omega

private theorem dense_iff {ids : List UInt8} {base : Nat} (least : ∀ id ∈ ids, base ≤ id.toNat)
    (reached : ∃ id ∈ ids, base = id.toNat) : Dense ids ↔ ∀ id ∈ ids, id.toNat < base + ids.length := by
  obtain ⟨low, listed, rfl⟩ := reached
  refine ⟨fun dense id member => dense low listed id member, fun below lower member high member' => ?_⟩
  have above := least lower member
  have bound := below high member'
  omega

private theorem past_iff {ids : List UInt8} {base : Nat} {id : UInt8} (least : ∀ id ∈ ids, base ≤ id.toNat)
    (reached : ∃ id ∈ ids, base = id.toNat) : Past ids id ↔ id.toNat = base + ids.length := by
  obtain ⟨low, listed, rfl⟩ := reached
  constructor
  · rintro ⟨lower, member, lowest, same⟩
    have one := UInt8.le_iff_toNat_le.mp (lowest low listed)
    have two := least lower member
    omega
  · intro same
    exact ⟨low, listed, fun other member => UInt8.le_iff_toNat_le.mpr (least other member), same⟩

private theorem configureTable_isSome (found : Resources) (table : List TableEntry) {s : State κ} (many : 0 < s.coreCount) :
    (configureTable found table s).isSome ↔
      (∀ id ∈ tableIds table, id.toUInt32 - found.coreBase < s.coreCount) ∧
        ∀ entry ∈ table, ¬NamesEnd found s.coreCount entry := by
  rw [tableIds, ← configure_isSome_iff many, configureTable]
  cases done : (table.map TableEntry.counted).foldlM (configureEntry found) s with
  | none => simp
  | some cores =>
    have same := (configure_sameArray done).2
    rw [← same] at many ⊢
    simpa using applyNmis_isSome (p := ⟨cores, fun _ => none⟩) many

private theorem configureTable_stored {found : Resources} {table : List TableEntry} {s : State κ} {p : Parsing κ}
    (done : configureTable found table s = some p) (distinct : (tableIds table).Nodup)
    {processorId apicId : UInt8} (listed : .madt (.lapic processorId apicId) ∈ table) :
    ∃ record, coreInstance s (processorId.toUInt32 - found.coreBase) = some record ∧
      (p.cores.core record).lapic = some ⟨apicId, found.lapicBase⟩ := by
  obtain ⟨cores, configured, applied⟩ := Option.bind_eq_some_iff.mp done
  rw [applyNmis_cores applied]
  exact configure_stored configured distinct (List.mem_map.mpr ⟨_, listed, rfl⟩)

private theorem configureTable_safe {found : Resources} {table : List TableEntry} {s : State κ} {p : Parsing κ}
    (done : configureTable found table s = some p) (distinct : (tableIds table).Nodup) : Safe table (.ok p) := by
  refine ⟨fun id => (coreInstance s (id.toUInt32 - found.coreBase)).getD .bsp, ?_, ?_⟩
  · have named : ∀ id ∈ tableIds table, ∃ record, coreInstance s (id.toUInt32 - found.coreBase) = some record := by
      intro id member
      obtain ⟨entry, inside, listed⟩ := List.mem_filterMap.mp member
      obtain ⟨row, inside', same⟩ := List.mem_map.mp inside
      cases entry with
      | lapic processorId apicId =>
        cases row with
        | madt entry =>
          cases same
          obtain ⟨record, at_record, _⟩ := configureTable_stored done distinct inside'
          cases listed
          exact ⟨record, at_record⟩
        | lapicNmi desc => cases same
      | ioapic | lapicAddressOverride _ | other => cases listed
    intro first member second member' same
    obtain ⟨record, one⟩ := named first member
    obtain ⟨record', two⟩ := named second member'
    simp only [one, two, Option.getD_some] at same
    subst same
    exact UInt8.toUInt32_inj.mp (UInt32.sub_left_inj _ |>.mp (coreInstance_inj one two))
  · intro processorId apicId listed
    obtain ⟨record, named, stored⟩ := configureTable_stored done distinct listed
    exact ⟨found.lapicBase, by simpa only [named, Option.getD_some] using stored⟩

/-- What the first run counts in a table. -/
def counts (table : List TableEntry) : Resources := countEntries (table.map TableEntry.counted)

private theorem counts_spec {table : List TableEntry} (distinct : (tableIds table).Nodup) :
    (counts table).coreCount.toNat = (tableIds table).length ∧
      (counts table).ioapicCount.toNat = ioapics (table.map TableEntry.counted) % 2 ^ 32 ∧
      (∀ id ∈ tableIds table, (counts table).coreBase.toNat ≤ id.toNat) ∧
      (tableIds table ≠ [] → ∃ id ∈ tableIds table, (counts table).coreBase.toNat = id.toNat) :=
  countEntries_spec distinct

theorem refused_iff {table : List TableEntry} (distinct : (tableIds table).Nodup) :
    Refused table ↔ (counts table).coreCount = 0 ∨ (counts table).ioapicCount = 0 := by
  obtain ⟨cores, ios, _⟩ := counts_spec distinct
  rw [Refused, ← ios, ← List.length_eq_zero_iff, ← cores, ← UInt32.toNat_inj, ← UInt32.toNat_inj]
  rfl

private theorem accepted_iff {table : List TableEntry} (distinct : (tableIds table).Nodup) (many : tableIds table ≠ []) :
    ((∀ id ∈ tableIds table, id.toUInt32 - (counts table).coreBase < (counts table).coreCount) ∧
      ∀ entry ∈ table, ¬NamesEnd (counts table) (counts table).coreCount entry) ↔
    Dense (tableIds table) ∧
      ∀ desc, .lapicNmi desc ∈ table → desc.processorId ≠ 255 → ¬Past (tableIds table) desc.processorId := by
  obtain ⟨cores, _, least, reached⟩ := counts_spec distinct
  have short : (counts table).coreCount.toNat ≤ 256 := cores ▸ lapicIds_length distinct
  have attained := reached many
  have byte : (counts table).coreBase.toNat < 256 := by
    obtain ⟨low, _, base⟩ := attained
    rw [base]
    exact low.toNat_lt
  rw [dense_iff least attained]
  refine and_congr (forall₂_congr fun id member => ?_) ⟨fun guarded desc inside single past => ?_, ?_⟩
  · rw [offset_lt_iff (least id member), cores]
  · refine guarded _ inside ⟨single, (offset_eq_iff byte short).mpr ?_⟩
    rw [cores]
    exact (past_iff least attained).mp past
  · intro apart entry inside
    cases entry with
    | madt entry => exact id
    | lapicNmi desc =>
      rintro ⟨single, same⟩
      have ends := (offset_eq_iff byte short).mp same
      rw [cores] at ends
      exact apart desc inside single ((past_iff least attained).mpr ends)

/-- The parser is safe exactly on a table it refuses, or whose processor ids have no
gap and which has no NMI for the id just past them. -/
theorem parseTable_safe_iff (table : List TableEntry) (s : State κ) (distinct : (tableIds table).Nodup) :
    Safe table (parseTable table s) ↔ Refused table ∨
      Dense (tableIds table) ∧
        ∀ desc, .lapicNmi desc ∈ table → desc.processorId ≠ 255 → ¬Past (tableIds table) desc.processorId := by
  have refused := refused_iff distinct
  simp only [parseTable]
  split
  next none => exact iff_of_true trivial (.inl (refused.mpr (.inl none)))
  next processors =>
    split
    next none => exact iff_of_true trivial (.inl (refused.mpr (.inr none)))
    next present =>
      have accepted : ¬Refused table := fun stop => (refused.mp stop).elim processors present
      have many : 0 < (newCores s (counts table).coreCount).coreCount := UInt32.pos_iff_ne_zero.mpr processors
      have met := configureTable_isSome (counts table) table many
      rw [show (newCores s (counts table).coreCount).coreCount = (counts table).coreCount from rfl,
        accepted_iff distinct fun none => accepted (.inl none)] at met
      rw [or_iff_right accepted, ← met]
      split
      next p done => exact iff_of_true (configureTable_safe done distinct) (by rw [counts, done]; rfl)
      next stuck => exact iff_of_false id (by rw [counts, stuck]; exact Bool.false_ne_true)

/-- The records end up as the first two runs alone would leave them. -/
theorem parseTable_cores {table : List TableEntry} {s : State κ} {p : Parsing κ} (parsed : parseTable table s = .ok p) :
    parseMadt (table.map TableEntry.counted) s = some p.cores := by
  simp only [parseTable] at parsed
  split at parsed
  next => cases parsed
  next processors =>
    split at parsed
    next => cases parsed
    next present =>
      split at parsed
      next done =>
        cases parsed
        obtain ⟨cores, configured, applied⟩ := Option.bind_eq_some_iff.mp done
        rw [applyNmis_cores applied, ← configured]
        simp [parseMadt, processors, present]
      next => cases parsed

/-- Two processors with a gap between their ids. -/
def gap : List TableEntry := [.madt (.lapic 0 0), .madt (.lapic 2 1), .madt .ioapic]

theorem gap_unsafe : ¬∀ (table : List TableEntry) (s : State Nat), (tableIds table).Nodup →
    Safe table (parseTable table s) := by
  intro claim
  exact claim gap boot (by decide)

/-- The same entries without the gap, and an NMI for one processor. -/
def noGap : List TableEntry :=
  [.madt (.lapic 1 0), .lapicNmi ⟨2, .edge, .high, 1⟩, .madt (.lapic 2 1), .madt .ioapic]

theorem parseTable_safe_iff_witness : Safe noGap (parseTable noGap boot) := by
  refine (parseTable_safe_iff noGap boot (by decide)).mpr (.inr ⟨by decide, ?_⟩)
  intro desc member _
  obtain rfl : desc = ⟨2, .edge, .high, 1⟩ := by simpa [noGap] using member
  decide

/-- An NMI for the id after the last one passes the guard. -/
example : parseTable [.madt (.lapic 0 0), .madt .ioapic, .lapicNmi ⟨1, .edge, .high, 1⟩] boot =
    .error .nullInstance := rfl

end Hotarubi.Processor
