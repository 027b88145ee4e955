import Hotarubi.Proofs.InterruptEntry
import Hotarubi.Proofs.VirtmmRequests
import Hotarubi.Processor.Tss

/-! The stacks of interrupts, for all processors. Each is a page of its own that nobody
else has, and entering a handler writes nowhere else. -/

namespace Hotarubi.Tss
open Base Base.Machine Base.Radix Memory Memory.Virtmm Idt

/-- The stacks that `init` sets up. -/
def tops (tss : Stacks) : List UInt64 := [tss.rsp0, tss.ist 1, tss.ist 2, tss.ist 3, tss.ist 4]

/-- The first `n` of the allocations. -/
def newStacks : Nat → Physmm.State → List UInt64 × Physmm.State
  | 0, m => ([], m)
  | n + 1, m => ((newStack m).1 :: (newStacks n (newStack m).2).1, (newStacks n (newStack m).2).2)

private theorem init_eq (m : Physmm.State) : tops (init m).1 = (newStacks 5 m).1 ∧ (init m).2 = (newStacks 5 m).2 := by
  simp [init, tops, newStacks]

/-- A stack on the whole of a page that is in use and that nobody has. -/
def OnPage (bits : Nat) (lent : Nat → Prop) (m : Physmm.State) (top page : UInt64) : Prop :=
  IsFrame page ∧ Unlent bits lent m page ∧ top = pageSize + (page + kVMRangePhysMemBase)

/-- A stack that was allocated. The others start from page 0. -/
def Granted (top : UInt64) : Prop := top ≠ pageSize

instance (top : UInt64) : Decidable (Granted top) := inferInstanceAs (Decidable (_ ≠ _))

section Stacks

variable {bits : Nat} {tables : UInt64 → Prop} {lent : Nat → Prop} {m : Physmm.State} {given : List UInt64}
  {top page : UInt64}

/-- The stacks that were allocated are on different pages, none of which is a page table. -/
structure Apart (bits : Nat) (tables : UInt64 → Prop) (lent : Nat → Prop) (m : Physmm.State) (given : List UInt64) :
    Prop where
  lending : Lending kVMRangePhysMemBase bits lent m
  accounted : m.Accounted
  kept : ∀ t, tables t → Unlent bits lent m t
  different : (given.filter Granted).Nodup
  pages : ∀ top ∈ given, Granted top → ∃ page, OnPage bits lent m top page ∧ ¬ tables page

theorem OnPage.granted (on : OnPage bits lent m top page) : Granted top := by
  obtain ⟨inside, _, rfl⟩ := on
  intro zero
  exact add_base_ne_zero (.inr rfl) inside (by grind)

private theorem newStack_apart (apart : Apart bits tables lent m given) :
    Apart bits tables lent (newStack m).2 (given ++ [(newStack m).1]) := by
  have supply := physmm_lending kVMRangePhysMemBase bits lent
  have lending := supply.keeps m Physmm.kLocked apart.lending
  have accounted := (Physmm.Call.allocPage Physmm.kLocked).exec_accounted m apart.accounted
  have others : ∀ t, tables t → Unlent bits lent (newStack m).2 t := fun t table =>
    supply.grows m Physmm.kLocked t apart.lending (apart.kept t table)
  have kept : ∀ top ∈ given, Granted top → ∃ page, OnPage bits lent (newStack m).2 top page ∧ ¬ tables page := by
    intro top member granted
    obtain ⟨page, ⟨inside, unlent, place⟩, free⟩ := apart.pages top member granted
    exact ⟨page, ⟨inside, supply.grows m Physmm.kLocked page apart.lending unlent, place⟩, free⟩
  cases answer : (Physmm.allocPage m Physmm.kLocked).1 with
  | none =>
    have null : (newStack m).1 = pageSize := by
      rw [newStack, answer]
      rfl
    refine ⟨lending, accounted, others, ?_, fun top member granted => ?_⟩
    · rw [null, List.filter_append]
      simpa [Granted] using apart.different
    · rcases List.mem_append.mp member with old | new
      · exact kept top old granted
      · rw [List.mem_singleton.mp new] at granted
        exact absurd null granted
  | some ptr =>
    obtain ⟨page, rfl, inside, fresh, unlent⟩ := supply.grants m Physmm.kLocked ptr apart.lending answer
    have place : (newStack m).1 = pageSize + (page + kVMRangePhysMemBase) := by
      rw [newStack, answer]
      rfl
    have on : OnPage bits lent (newStack m).2 (newStack m).1 page := ⟨inside, unlent, place⟩
    refine ⟨lending, accounted, others, ?_, fun top member granted => ?_⟩
    · have new : (newStack m).1 ∉ given := by
        intro member
        obtain ⟨page', ⟨_, unlent', place'⟩, _⟩ := apart.pages _ member on.granted
        rw [place, UInt64.add_right_inj, UInt64.add_left_inj] at place'
        exact fresh (place' ▸ unlent')
      rw [List.filter_append, List.nodup_append]
      refine ⟨apart.different, (List.nodup_singleton _).filter _, fun a old b single same => ?_⟩
      have last := List.mem_singleton.mp (List.mem_filter.mp single).1
      exact new (last ▸ same ▸ (List.mem_filter.mp old).1)
    · rcases List.mem_append.mp member with old | new
      · exact kept top old granted
      · rw [List.mem_singleton.mp new]
        exact ⟨page, on, fun table => fresh (apart.kept page table)⟩

private theorem newStacks_apart {n : Nat} (apart : Apart bits tables lent m given) :
    Apart bits tables lent (newStacks n m).2 (given ++ (newStacks n m).1) := by
  induction n generalizing m given with
  | zero =>
    rw [newStacks, List.append_nil]
    exact apart
  | succ n ih =>
    have rest := ih (newStack_apart apart)
    rwa [List.append_assoc] at rest

/-- Callers of physmm leave the stacks alone. -/
theorem Apart.exec (apart : Apart bits tables lent m given) {call : Physmm.Call}
    (entitled : Kmalloc.Entitled m lent call) :
    Apart bits tables (Kmalloc.lentAfter m call lent) (call.exec m).2 given := by
  have others : ∀ t, tables t → Unlent bits (Kmalloc.lentAfter m call lent) (call.exec m).2 t := fun t table =>
    (apart.kept t table).exec apart.lending entitled
  refine ⟨apart.lending.exec call, call.exec_accounted m apart.accounted, others, apart.different, ?_⟩
  intro top member granted
  obtain ⟨page, ⟨inside, unlent, place⟩, free⟩ := apart.pages top member granted
  exact ⟨page, ⟨inside, unlent.exec apart.lending entitled, place⟩, free⟩

private theorem newStacks_granted {n : Nat} (balanced : Balanced kVMRangePhysMemBase m) :
    (∀ top ∈ (newStacks n m).1, Granted top) ↔ n ≤ Physmm.spare m := by
  have supply := physmm_counted kVMRangePhysMemBase
  induction n generalizing m with
  | zero => simp [newStacks]
  | succ n ih =>
    have first := supply.granted m Physmm.kLocked balanced
    have rest := ih (supply.keeps m Physmm.kLocked balanced)
    rw [newStacks, List.forall_mem_cons]
    cases answer : (Physmm.allocPage m Physmm.kLocked).1 with
    | none =>
      have null : (newStack m).1 = pageSize := by
        rw [newStack, answer]
        rfl
      have exhausted : ¬ 0 < Physmm.spare m := by
        rw [← first]
        intro found
        obtain ⟨ptr, some'⟩ := found
        cases answer.symm.trans some'
      constructor
      · intro all
        exact absurd null all.1
      · intro enough
        omega
    | some ptr =>
      have spends := supply.spends m Physmm.kLocked ptr balanced answer
      obtain ⟨page, rfl, inside, _, _⟩ := supply.grants m Physmm.kLocked ptr balanced answer
      have here : Granted (newStack m).1 := by
        rw [newStack, answer]
        intro zero
        exact add_base_ne_zero (.inr rfl) inside (by grind)
      have less : Physmm.spare (newStack m).2 + 1 = Physmm.spare m := spends
      have later : (∀ top ∈ (newStacks n (newStack m).2).1, Granted top) ↔ n ≤ Physmm.spare (newStack m).2 := rest
      rw [later]
      constructor
      · intro all
        have enough := all.2
        omega
      · intro enough
        exact ⟨here, by omega⟩

end Stacks

section Entry

variable {bits : Nat} {lent : Nat → Prop} {m : Physmm.State} {top page a : UInt64}

theorem OnPage.toNat (on : OnPage bits lent m top page) :
    (page + kVMRangePhysMemBase).toNat = kVMRangePhysMemBase.toNat + page.toNat ∧
      top.toNat = kVMRangePhysMemBase.toNat + page.toNat + 4096 := by
  obtain ⟨inside, _, rfl⟩ := on
  have bound := inside.bound
  have start : (page + kVMRangePhysMemBase).toNat = kVMRangePhysMemBase.toNat + page.toNat := by
    rw [UInt64.toNat_add, physMemBase_toNat]
    omega
  refine ⟨start, ?_⟩
  rw [UInt64.toNat_add, start, physMemBase_toNat, pageSize_toNat]
  omega

/-- The processor does not have to align the pointer. -/
theorem OnPage.bottom (on : OnPage bits lent m top page) (n : Machine) : n.interruptBottom (some top) = top := by
  obtain ⟨_, place⟩ := on.toNat
  have aligned := on.1.aligned
  have low : (top &&& 15).toNat = top.toNat % 2 ^ 4 := Mask.and_low_toNat (v := 4) top.toBitVec rfl
  have clear : top.toBitVec &&& 15#64 = 0#64 := by
    apply BitVec.eq_of_toNat_eq
    have value : (top.toBitVec &&& 15#64).toNat = (top &&& 15).toNat := rfl
    rw [value, low, place, physMemBase_toNat]
    simp only [BitVec.toNat_ofNat]
    omega
  exact UInt64.toBitVec_inj.mp (Mask.and_not_eq_self clear)

/-- All that the entry code pushes lies in the page. -/
theorem OnPage.untouched (on : OnPage bits lent m top page) (n : Machine)
    (outside : a < page + kVMRangePhysMemBase ∨ top ≤ a) : Untouched (n.interruptBottom (some top)) a := by
  obtain ⟨start, place⟩ := on.toNat
  have bound := on.1.bound
  intro i inside same
  rw [on.bottom] at same
  have small : i < 26 := inside
  have depth : (8 * UInt64.ofNat (i + 1)).toNat = 8 * (i + 1) := by
    rw [UInt64.toNat_mul, UInt64.toNat_ofNat', show (8 : UInt64).toNat = 8 from rfl]
    omega
  have address : a.toNat = top.toNat - 8 * (i + 1) := by
    rw [same, UInt64.toNat_sub_of_le _ _ (by rw [UInt64.le_iff_toNat_le]; omega), depth]
  rw [UInt64.lt_iff_toNat_lt, UInt64.le_iff_toNat_le] at outside
  omega

private theorem signExtend_far (v : UInt32) : (signExtend v).toNat < 2 ^ 32 ∨ 2 ^ 64 - 2 ^ 32 ≤ (signExtend v).toNat := by
  rw [signExtend]
  split
  · left
    rw [UInt32.toNat_toUInt64]
    exact v.toNat_lt
  · right
    rw [UInt64.toNat_or]
    exact Nat.right_le_or

/-- The kernel's image lies above the window, and so does the table of its handlers. -/
theorem OnPage.table (on : OnPage bits lent m top page) (n : Machine) (table : UInt32) {i : Nat}
    (inside : i < idtDescriptors) :
    Untouched (n.interruptBottom (some top)) (signExtend table + 8 * UInt64.ofNat i) := by
  obtain ⟨start, place⟩ := on.toNat
  have bound := on.1.bound
  simp only [idtDescriptors] at inside
  apply on.untouched
  have offset : (8 * UInt64.ofNat i).toNat = 8 * i := by
    rw [UInt64.toNat_mul, UInt64.toNat_ofNat', show (8 : UInt64).toNat = 8 from rfl]
    omega
  have far := signExtend_far table
  have most := (signExtend table).toNat_lt
  rw [UInt64.lt_iff_toNat_lt, UInt64.le_iff_toNat_le, start, place, physMemBase_toNat, UInt64.toNat_add, offset]
  omega

end Entry

/-- physmm with the accounts of its callers and of the processors that have started. -/
structure World where
  physmm : Physmm.State
  lent : Nat → Prop
  started : List Stacks

def World.start (m : Physmm.State) : World := ⟨m, fun _ => False, []⟩

def World.given (w : World) : List UInt64 := w.started.flatMap tops

/-- A processor starts, or some part of the kernel calls physmm. -/
inductive Event where
  | start
  | physmm (call : Physmm.Call)

def Event.exec (w : World) : Event → Option (Unit × World)
  | .start => some ((), { w with physmm := (init w.physmm).2, started := w.started ++ [(init w.physmm).1] })
  | .physmm call =>
    some ((), { w with physmm := (call.exec w.physmm).2, lent := Kmalloc.lentAfter w.physmm call w.lent })

/-- Callers of physmm give back only what they have. -/
def Event.Permitted (w : World) : Event → Prop
  | .start => True
  | .physmm call => Kmalloc.Entitled w.physmm w.lent call

def World.Sound (bits : Nat) (tables : UInt64 → Prop) (w : World) : Prop := Apart bits tables w.lent w.physmm w.given

section Runs

variable {bits : Nat} {tables : UInt64 → Prop} {w w' : World}

private theorem World.given_started (w : World) (tss : Stacks) (m : Physmm.State) :
    World.given { w with physmm := m, started := w.started ++ [tss] } = w.given ++ tops tss := by
  rw [World.given, World.given, List.flatMap_append, List.flatMap_singleton]

theorem World.Sound.exec (sound : w.Sound bits tables) {event : Event} (permitted : event.Permitted w)
    (ran : event.exec w = some ((), w')) : w'.Sound bits tables := by
  cases event with
  | start =>
    have apart := newStacks_apart (n := 5) sound
    rw [← (init_eq w.physmm).1, ← (init_eq w.physmm).2, ← w.given_started _ (init w.physmm).2] at apart
    simp only [Event.exec, Option.some.injEq, Prod.mk.injEq, true_and] at ran
    -- What the five calls come to does not matter from here on.
    generalize init w.physmm = made at ran apart
    rw [← ran]
    exact apart
  | physmm call =>
    cases ran
    exact Apart.exec sound permitted

private theorem choose_given {tss : Stacks} (member : tss ∈ w.started) {cs : UInt16} {ist : UInt8} (number : ist ≤ 4)
    {top : UInt64} (chosen : tss.choose cs ist = some top) : top ∈ w.given := by
  refine List.mem_flatMap.mpr ⟨tss, member, ?_⟩
  rw [Stacks.choose] at chosen
  split at chosen
  next selected =>
    cases chosen
    have most := UInt8.le_iff_toNat_le.mp number
    have least : ist.toNat ≠ 0 := fun zero => selected (UInt8.toNat_inj.mp zero)
    rw [show (4 : UInt8).toNat = 4 from rfl] at most
    have numbers : ist.toNat = 1 ∨ ist.toNat = 2 ∨ ist.toNat = 3 ∨ ist.toNat = 4 := by omega
    rcases numbers with one | two | three | four
    · obtain rfl : ist = 1 := UInt8.toNat_inj.mp one
      simp [tops]
    · obtain rfl : ist = 2 := UInt8.toNat_inj.mp two
      simp [tops]
    · obtain rfl : ist = 3 := UInt8.toNat_inj.mp three
      simp [tops]
    · obtain rfl : ist = 4 := UInt8.toNat_inj.mp four
      simp [tops]
  next =>
    split at chosen
    next =>
      cases chosen
      exact List.mem_cons_self
    next => cases chosen

end Runs

section Boot

variable {m : Physmm.State} {image : Image} {info : Physmm.BootInfo} {b : Physmm.Booted} {mem : UInt64 → UInt64}
  {cr3 systemPml4 : UInt64} {s : State Physmm.State}

private theorem started_sound (boot : Booting m image info b)
    (started : Virtmm.init ⟨mem, cr3, systemPml4, b.state⟩ image b.memoryUpperBound = some s) :
    (World.start s.physmm).Sound b.state.mapBits (Reached (link kVMRangePhysMemBase s.mem) s.cr3 3) := by
  have low := boot.nonempty
  obtain ⟨good, _⟩ := init_entries boot.lending boot.linked low boot.high boot.covered started
  obtain ⟨s1, created, same⟩ := Option.bind_eq_some_iff.mp started
  cases same
  have balanced : Balanced 0 b.state := ⟨boot.lending.toReady, boot.started.accounted⟩
  obtain ⟨good1, _⟩ := createSystemVm_entries (physmm_counted 0).toSupply balanced boot.linked low boot.high created
  refine ⟨good.valid, Physmm.relocated_accounted good1.valid.accounted _,
    fun t reached => (good.tables.frames t reached).2, List.nodup_nil, ?_⟩
  intro top member
  cases member

/-- From the boot on, however many processors start and whatever is allocated in between:
no two stacks of interrupts share a page, nobody else has one, and from the gate to the
handler an interrupt writes to the page of its stack only, so not to the table of the
handlers. A processor has all its stacks exactly if it found five pages. -/
theorem stacks_stay_apart (boot : Booting m image info b)
    (started : Virtmm.init ⟨mem, cr3, systemPml4, b.state⟩ image b.memoryUpperBound = some s) {events : List Event}
    {w : World} (permitted : EachStep Event.exec (fun w event => event.Permitted w) (.start s.physmm) events)
    (ran : runCalls Event.exec (.start s.physmm) events = some w) :
    (w.given.filter Granted).Nodup ∧
    (∀ tss ∈ w.started, ∀ cs ist top, ist ≤ 4 → tss.choose cs ist = some top → Granted top →
      ∃ page, OnPage b.state.mapBits w.lent w.physmm top page ∧
        ¬ Reached (link kVMRangePhysMemBase s.mem) s.cr3 3 page ∧
        (∀ (n e : Machine) context nr code swap,
          HandlerEntry n e (n.interruptBottom (some top)) context nr code swap →
          ∀ a, a < page + kVMRangePhysMemBase ∨ top ≤ a → e.memory a = n.memory a) ∧
        ∀ (n : Machine) table, ∀ i < idtDescriptors,
          Untouched (n.interruptBottom (some top)) (signExtend table + 8 * UInt64.ofNat i)) ∧
    ((∀ top ∈ tops (init w.physmm).1, Granted top) ↔ 5 ≤ Physmm.spare w.physmm) := by
  have sound : w.Sound b.state.mapBits (Reached (link kVMRangePhysMemBase s.mem) s.cr3 3) :=
    run_keeps (fun _ _ _ _ sound allowed ran => sound.exec allowed ran) (started_sound boot started) permitted ran
  refine ⟨sound.different, fun tss member cs ist top number chosen granted => ?_, ?_⟩
  · obtain ⟨page, on, free⟩ := sound.pages top (choose_given member number chosen) granted
    refine ⟨page, on, free, fun n e context nr code swap entry a outside => ?_, fun n table i inside => ?_⟩
    · exact entry.outside a (on.untouched n outside)
    · exact on.table n table inside
  · have all := newStacks_granted (n := 5) ⟨sound.lending.toReady, sound.accounted⟩
    rwa [← (init_eq w.physmm).1] at all

theorem stacks_stay_apart_witness :
    ∃ s w, Virtmm.init ⟨fun _ => 0, 0, 0, smallBoot.state⟩ smallImage smallBoot.memoryUpperBound = some s ∧
      runCalls Event.exec (.start s.physmm) [.start, .physmm (.allocPage Physmm.kActive), .start] = some w ∧
      (w.given.filter Granted).Nodup ∧ ((∀ top ∈ tops (init w.physmm).1, Granted top) ↔ 5 ≤ Physmm.spare w.physmm) := by
  have created := (smallBoot_booting.created_iff (fun _ => 0) 0 0).mpr smallBoot_enough
  rw [← init_isSome] at created
  obtain ⟨s, started⟩ := Option.isSome_iff_exists.mp created
  have entitled (m : Physmm.State) (lent : Nat → Prop) : Kmalloc.Entitled m lent (.allocPage Physmm.kActive) := by
    intro gives
    cases gives
  have permitted : EachStep Event.exec (fun w event => event.Permitted w) (.start s.physmm)
      [.start, .physmm (.allocPage Physmm.kActive), .start] := ⟨trivial, entitled _ _, trivial, trivial⟩
  obtain ⟨apart, _, enough⟩ := stacks_stay_apart smallBoot_booting started permitted rfl
  exact ⟨s, _, started, rfl, apart, enough⟩

end Boot

end Hotarubi.Tss
