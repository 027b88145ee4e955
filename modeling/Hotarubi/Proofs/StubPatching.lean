import Hotarubi.Base.Trace
import Hotarubi.Processor.IrqStub
import Hotarubi.Proofs.IdtVectors
import Mathlib.Data.List.Find

/-! The bytes of the stubs against the records that stand for them. The offsets that are
detected are those of the magic words, and on the stubs that there are, each call writes
the three words of one stub and no byte of their code. -/

namespace Hotarubi.Idt
open Base

/-- Where the words are in every stub, and how long a stub is. -/
structure StubLayout where
  nr : Nat
  context : Nat
  jump : Nat
  length : Nat

/-- The stubs of the image. -/
def stubCount : Nat := idtDescriptors - idtReserved

/-- A byte of a word that is patched in a stub. -/
def StubLayout.InStub (l : StubLayout) (i a : Nat) : Prop :=
  ∃ word ∈ [(l.nr, 4), (l.context, 8), (l.jump, 4)], l.length * i + word.1 ≤ a ∧ a < l.length * i + word.1 + word.2

def StubLayout.Ordered (l : StubLayout) : Prop :=
  l.nr + 4 ≤ l.context ∧ l.context + 8 ≤ l.jump ∧ l.jump + 4 ≤ l.length

variable {symbols : Symbols} {sizeAt : Nat} {l : StubLayout} {b b' start : StubMemory} {s s' : State}

/-- What assembler and linker leave: stubs of one length with the words in their order, none
of them at the start, all of them free, and the magic words nowhere else. -/
structure Assembled (symbols : Symbols) (sizeAt : Nat) (l : StubLayout) (b : StubMemory) : Prop where
  first : 0 < l.nr
  ordered : l.Ordered
  short : stubCount * l.length < 2 ^ 64
  behind : stubCount * l.length ≤ sizeAt
  size : load b.bytes sizeAt 8 = stubCount * l.length
  stubSize : symbols.stubSize = UInt64.ofNat l.length
  nr : ∀ i < l.length, b.load32 i = idtStubNrMagic ↔ i = l.nr
  context : ∀ i < l.length, b.load32 i = idtStubCxMagic ↔ i = l.context
  jump : ∀ i < l.length, (b.load32 i = symbols.swapgsSlow ∨ b.load32 i = symbols.swapgsFast) ↔ i = l.jump
  offsets : b.patchIndex = 0 ∧ b.patchCtxt = 0 ∧ b.patchJump = 0

/-- Memory after the detection, as the calls change it. -/
structure Intact (l : StubLayout) (start b : StubMemory) : Prop where
  patchIndex : b.patchIndex = l.nr
  patchCtxt : b.patchCtxt = l.context
  patchJump : b.patchJump = l.jump
  code : ∀ a, (∀ i < stubCount, ¬ l.InStub i a) → b.bytes a = start.bytes a

/-- The words of a stub. -/
def StubMemory.words (l : StubLayout) (b : StubMemory) (i : Nat) : Stub :=
  ⟨b.load32 (l.length * i + l.nr), b.load64 (l.length * i + l.context), b.load32 (l.length * i + l.jump)⟩

/-- The records say what the bytes of the stubs say, and the tables are the same. -/
structure Agrees (l : StubLayout) (b : StubMemory) (s : State) : Prop where
  stub : ∀ i < stubCount, s.stub i = b.words l i
  interruptPointerTable : s.interruptPointerTable = b.interruptPointerTable
  idt : s.idt = b.idt

/-- The two functions that patch, and the answers of the first one. -/
inductive StubCall where
  | register (r : Registration)
  | release (v : UInt32)

def StubCall.exec (symbols : Symbols) (s : State) : StubCall → Option (List (Option UInt32) × State)
  | .register r =>
    let (answer, s) := request symbols s r
    some ([answer], s)
  | .release v => some ([], releaseIrqHandler symbols s v)

/-- The same on the bytes. -/
def StubCall.patch (symbols : Symbols) (sizeAt : Nat) (b : StubMemory) :
    StubCall → Option (List (Option UInt32) × StubMemory)
  | .register r =>
    let (answer, b) := b.registerIrqHandler symbols sizeAt r.fn r.ucontext r.swapgsFast
    some ([answer], b)
  | .release v => some ([], b.releaseIrqHandler symbols sizeAt v)

/-- The stub with the number of the vector is one of those that there are. -/
def StubCall.Inside : StubCall → Prop
  | .register _ => True
  | .release v => v.toNat < stubCount ∨ v.toNat > idtDescriptors

section Detection

private theorem seen_succ (n k : Nat) : (if k < n + 1 then k else 0) = if n = k then n else if k < n then k else 0 := by
  split <;> split <;> first | omega | (split <;> omega)

private theorem detect_foldl (assembled : Assembled symbols sizeAt l b) {n : Nat} (inside : n ≤ l.length) :
    (List.range n).foldl (StubMemory.detectAt symbols) b = { b with
      patchIndex := if l.nr < n then l.nr else 0
      patchCtxt := if l.context < n then l.context else 0
      patchJump := if l.jump < n then l.jump else 0 } := by
  obtain ⟨index, ctxt, jump⟩ := assembled.offsets
  obtain ⟨one, two, _⟩ := assembled.ordered
  induction n with
  | zero =>
    obtain ⟨bytes, patchIndex, patchCtxt, patchJump, table, idt⟩ := b
    subst index ctxt jump
    rfl
  | succ n ih =>
    have below : n < l.length := inside
    rw [List.range_succ, List.foldl_append, List.foldl_cons, List.foldl_nil, ih (Nat.le_of_lt below), StubMemory.detectAt]
    have isNr := assembled.nr n below
    have isContext := assembled.context n below
    have isJump := assembled.jump n below
    simp only [StubMemory.load32] at isNr isContext isJump ⊢
    simp only [isNr, isContext, isJump]
    rw [seen_succ, seen_succ, seen_succ]
    by_cases first : n = l.nr
    · have second : n ≠ l.context := by omega
      have third : n ≠ l.jump := by omega
      rw [if_pos first, if_pos first, if_neg second, if_neg third]
    · rw [if_neg first, if_neg first]
      by_cases second : n = l.context
      · have third : n ≠ l.jump := by omega
        rw [if_pos second, if_pos second, if_neg third]
      · rw [if_neg second, if_neg second]
        by_cases third : n = l.jump
        · rw [if_pos third, if_pos third]
        · rw [if_neg third, if_neg third]

private theorem detect_finds (assembled : Assembled symbols sizeAt l b) :
    b.size sizeAt = l.length ∧ b.detectPatchOffsets symbols sizeAt =
      (true, { b with patchIndex := l.nr, patchCtxt := l.context, patchJump := l.jump }) := by
  obtain ⟨one, two, three⟩ := assembled.ordered
  have positive := assembled.first
  have length : b.size sizeAt = l.length := by
    rw [StubMemory.size, StubMemory.load64, assembled.size, UInt64.toNat_ofNat', Nat.mod_eq_of_lt assembled.short,
      stubCount,
      Nat.mul_div_cancel_left _ (by decide)]
  refine ⟨length, ?_⟩
  rw [StubMemory.detectPatchOffsets, length, detect_foldl assembled (Nat.le_refl _), if_pos (by omega), if_pos (by omega),
    if_pos (by omega)]
  simp only [Prod.mk.injEq, decide_eq_true_eq, and_true]
  omega

end Detection

section Writes

/-- Writes that stay in the words of one stub. -/
def Spares (l : StubLayout) (k : Nat) (m m' : Nat → UInt8) : Prop := ∀ a, ¬ l.InStub k a → m' a = m a

variable {m m' m'' : Nat → UInt8} {i k n v x : Nat}

theorem Spares.trans (one : Spares l k m m') (two : Spares l k m' m'') : Spares l k m m'' :=
  fun a outside => (two a outside).trans (one a outside)

private theorem spares_store (within : ∀ a, x ≤ a → a < x + n → l.InStub k a) : Spares l k m (store m x n v) := by
  intro a outside
  apply store_outside
  by_contra inside
  exact outside (within a (by omega) (by omega))

private theorem spares_word (word : Nat × Nat) (member : word ∈ [(l.nr, 4), (l.context, 8), (l.jump, 4)]) :
    Spares l k m (store m (l.length * k + word.1) word.2 v) :=
  spares_store fun _ above below => ⟨word, member, above, below⟩

/-- The words of one stub are in no other one. -/
theorem InStub.between (ordered : l.Ordered) {a : Nat} (inside : l.InStub i a) :
    l.length * i ≤ a ∧ a < l.length * (i + 1) := by
  obtain ⟨one, two, three⟩ := ordered
  obtain ⟨word, member, above, below⟩ := inside
  simp only [List.mem_cons, List.not_mem_nil, or_false] at member
  rw [Nat.mul_succ]
  obtain rfl | rfl | rfl := member
  all_goals
    dsimp only at above below
    omega

theorem InStub.apart (ordered : l.Ordered) {a : Nat} (inside : l.InStub i a) (other : i ≠ k) : ¬ l.InStub k a := by
  intro inside'
  obtain ⟨above, below⟩ := InStub.between ordered inside
  obtain ⟨above', below'⟩ := InStub.between ordered inside'
  rcases Nat.lt_or_gt_of_ne other with less | less
  · have room : l.length * (i + 1) ≤ l.length * k := Nat.mul_le_mul_left l.length less
    omega
  · have room : l.length * (k + 1) ≤ l.length * i := Nat.mul_le_mul_left l.length less
    omega

/-- Words of other stubs stay. -/
theorem Spares.words (ordered : l.Ordered) (spares : Spares l k b.bytes b'.bytes) (other : i ≠ k) :
    b'.words l i = b.words l i := by
  have same (word : Nat × Nat) (member : word ∈ [(l.nr, 4), (l.context, 8), (l.jump, 4)]) :
      load b'.bytes (l.length * i + word.1) word.2 = load b.bytes (l.length * i + word.1) word.2 := by
    apply load_congr
    intro a above below
    exact spares a (InStub.apart ordered ⟨word, member, above, below⟩ other)
  rw [StubMemory.words, StubMemory.words, Stub.mk.injEq]
  exact ⟨congrArg UInt32.ofNat (same (l.nr, 4) (by simp)),
    congrArg UInt64.ofNat (same (l.context, 8) (by simp)),
    congrArg UInt32.ofNat (same (l.jump, 4) (by simp))⟩

/-- A call that writes one stub, on the bytes and in the records. -/
theorem Agrees.patched (agrees : Agrees l b s) (ordered : l.Ordered) (spares : Spares l k b.bytes b'.bytes)
    (stub : s'.stub = Function.update s.stub k (b'.words l k))
    (table : s'.interruptPointerTable = b'.interruptPointerTable) (idt : s'.idt = b'.idt) : Agrees l b' s' where
  stub := by
    intro i inside
    rw [stub]
    by_cases same : i = k
    · subst same
      exact Function.update_self ..
    · rw [Function.update_of_ne same, spares.words ordered same]
      exact agrees.stub i inside
  interruptPointerTable := table
  idt := idt

theorem Intact.patched (intact : Intact l start b) (inside : k < stubCount) (spares : Spares l k b.bytes b'.bytes)
    (patchIndex : b'.patchIndex = b.patchIndex) (patchCtxt : b'.patchCtxt = b.patchCtxt)
    (patchJump : b'.patchJump = b.patchJump) : Intact l start b' where
  patchIndex := patchIndex.trans intact.patchIndex
  patchCtxt := patchCtxt.trans intact.patchCtxt
  patchJump := patchJump.trans intact.patchJump
  code := by
    intro a outside
    exact (spares a (outside k inside)).trans (intact.code a outside)

end Writes

section Words
variable {a c : Nat} {v v' : UInt32} {w : UInt64}

private theorem load32_store32 : (b.store32 a v).load32 a = v := by
  rw [StubMemory.load32, StubMemory.store32, load_store_same v.toNat_lt, UInt32.ofNat_toNat]

private theorem load64_store64 : (b.store64 a w).load64 a = w := by
  rw [StubMemory.load64, StubMemory.store64, load_store_same w.toNat_lt, UInt64.ofNat_toNat]

private theorem load32_store32_apart (apart : c + 4 ≤ a ∨ a + 4 ≤ c) : (b.store32 a v).load32 c = b.load32 c :=
  congrArg UInt32.ofNat (load_store_apart apart)

private theorem load64_store32_apart (apart : c + 8 ≤ a ∨ a + 4 ≤ c) : (b.store32 a v).load64 c = b.load64 c :=
  congrArg UInt64.ofNat (load_store_apart apart)

private theorem load32_store64_apart (apart : c + 4 ≤ a ∨ a + 8 ≤ c) : (b.store64 a w).load32 c = b.load32 c :=
  congrArg UInt32.ofNat (load_store_apart apart)

private theorem load64_halves : ((b.store32 a v).store32 (a + 4) v').load64 a = UInt64.ofNat
    (v.toNat + 256 ^ 4 * v'.toNat) := by
  have low : load ((b.store32 a v).store32 (a + 4) v').bytes a 4 = v.toNat := by
    rw [StubMemory.store32, load_store_apart (.inl (Nat.le_refl _)), StubMemory.store32, load_store_same v.toNat_lt]
  have high : load ((b.store32 a v).store32 (a + 4) v').bytes (a + 4) 4 = v'.toNat := by
    rw [StubMemory.store32, load_store_same v'.toNat_lt]
  rw [StubMemory.load64, load_add _ a 4 4, low, high]

end Words

section Calls
variable {k i : Nat} {r : Registration} {u : UInt32}

private theorem takeStub_words (ordered : l.Ordered) (intact : Intact l start b) (fn ucontext : UInt64) (fast : Bool) :
    (b.takeStub symbols i (l.length * k) fn ucontext fast).words l k =
      ⟨UInt32.ofNat (idtReserved + i), ucontext, if fast then symbols.swapgsFast else symbols.swapgsSlow⟩ := by
  obtain ⟨one, two, three⟩ := ordered
  let s1 := b.store32 (l.length * k + l.nr) (UInt32.ofNat (idtReserved + i))
  let s2 := s1.store64 (l.length * k + l.context) ucontext
  let s3 := s2.store32 (l.length * k + l.jump) (if fast then symbols.swapgsFast else symbols.swapgsSlow)
  have bytes : (b.takeStub symbols i (l.length * k) fn ucontext fast).bytes = s3.bytes := by
    simp only [StubMemory.takeStub, StubMemory.store32, StubMemory.store64, intact.patchIndex, intact.patchCtxt,
      intact.patchJump, s1, s2, s3]
  have nr : s3.load32 (l.length * k + l.nr) = UInt32.ofNat (idtReserved + i) := by
    rw [load32_store32_apart (by omega), load32_store64_apart (by omega), load32_store32]
  have context : s3.load64 (l.length * k + l.context) = ucontext := by
    rw [load64_store32_apart (by omega), load64_store64]
  rw [StubMemory.words, StubMemory.load32, StubMemory.load64, StubMemory.load32, bytes, Stub.mk.injEq]
  exact ⟨nr, context, load32_store32⟩

private theorem takeStub_spares (intact : Intact l start b) (fn ucontext : UInt64) (fast : Bool) :
    Spares l k b.bytes (b.takeStub symbols i (l.length * k) fn ucontext fast).bytes := by
  simp only [StubMemory.takeStub, StubMemory.store32, StubMemory.store64, intact.patchIndex, intact.patchCtxt,
    intact.patchJump]
  exact ((spares_word (l.nr, 4) (by simp)).trans (spares_word (l.context, 8) (by simp))).trans
    (spares_word (l.jump, 4) (by simp))

/-- No call changes the size behind the stubs. -/
theorem Intact.size (intact : Intact l start b) (assembled : Assembled symbols sizeAt l start) : b.size sizeAt =
    l.length := by
  have same : load b.bytes sizeAt 8 = load start.bytes sizeAt 8 := by
    apply load_congr
    intro a above _
    apply intact.code
    intro i inside within
    obtain ⟨_, below⟩ := InStub.between assembled.ordered within
    have room : l.length * (i + 1) ≤ l.length * stubCount := Nat.mul_le_mul_left l.length inside
    have behind := assembled.behind
    rw [Nat.mul_comm] at behind
    omega
  rw [StubMemory.size, StubMemory.load64, same, assembled.size, UInt64.toNat_ofNat', Nat.mod_eq_of_lt assembled.short,
    stubCount, Nat.mul_div_cancel_left _ (by decide)]

private theorem register_lockstep (assembled : Assembled symbols sizeAt l start) (intact : Intact l start b)
    (agrees : Agrees l b s) :
    (b.registerIrqHandler symbols sizeAt r.fn r.ucontext r.swapgsFast).1 = (request symbols s r).1 ∧
      Agrees l (b.registerIrqHandler symbols sizeAt r.fn r.ucontext r.swapgsFast).2 (request symbols s r).2 ∧
      Intact l start (b.registerIrqHandler symbols sizeAt r.fn r.ucontext r.swapgsFast).2 := by
  have search : (List.range' 1 (idtDescriptors - idtReserved - 1)).find?
        (fun i => b.load32 (l.length * (i - 1) + b.patchIndex) == idtStubNrMagic) =
      (List.range' 1 (idtDescriptors - idtReserved - 1)).find? (fun i => (s.stub (i - 1)).nr == idtStubNrMagic) := by
    apply List.find?_congr
    intro i member
    have place := List.mem_range'_1.mp member
    have inside : i - 1 < stubCount := by
      simp only [idtDescriptors, idtReserved, stubCount] at place ⊢
      omega
    rw [agrees.stub (i - 1) inside, intact.patchIndex]
    rfl
  rw [request, registerIrqHandler, StubMemory.registerIrqHandler, intact.size assembled, search]
  cases found : (List.range' 1 (idtDescriptors - idtReserved - 1)).find? fun i => (s.stub (i - 1)).nr == idtStubNrMagic with
  | none => exact ⟨rfl, agrees, intact⟩
  | some i =>
    have place := List.mem_range'_1.mp (List.mem_of_find?_eq_some found)
    have inside : i - 1 < stubCount := by
      simp only [idtDescriptors, idtReserved, stubCount] at place ⊢
      omega
    refine ⟨rfl, ?_, ?_⟩
    · apply agrees.patched assembled.ordered (takeStub_spares intact r.fn r.ucontext r.swapgsFast)
      · rw [takeStub_words assembled.ordered intact]
        rfl
      · exact congrArg (Function.update · (idtReserved + i) r.fn) agrees.interruptPointerTable
      · have target : symbols.stubBase + UInt64.ofNat (l.length * (i - 1)) = stubAddr symbols (i - 1) := by
          rw [stubAddr, assembled.stubSize, UInt64.ofNat_mul]
        change Function.update s.idt (idtReserved + i) _ = Function.update b.idt (idtReserved + i) _
        rw [target, agrees.idt]
    · exact intact.patched inside (takeStub_spares intact r.fn r.ucontext r.swapgsFast) rfl rfl rfl

private theorem release_lockstep (assembled : Assembled symbols sizeAt l start) (intact : Intact l start b)
    (agrees : Agrees l b s)
    (within : u.toNat < stubCount ∨ u.toNat > idtDescriptors) :
    Agrees l (b.releaseIrqHandler symbols sizeAt u) (releaseIrqHandler symbols s u) ∧
      Intact l start (b.releaseIrqHandler symbols sizeAt u) := by
  by_cases refused : u.toNat ≤ idtReserved ∨ u.toNat > idtDescriptors
  · rw [StubMemory.releaseIrqHandler, releaseIrqHandler, if_pos refused, if_pos refused]
    exact ⟨agrees, intact⟩
  · have inside : u.toNat < stubCount := within.resolve_right fun beyond => refused (.inr beyond)
    let k := u.toNat
    let s1 := b.store32 (l.length * k + l.nr) idtStubNrMagic
    let s2 := s1.store32 (l.length * k + l.jump) symbols.swapgsFast
    let s3 := s2.store32 (l.length * k + l.context) idtStubCxMagic
    let s4 := s3.store32 (l.length * k + l.context + 4) 0xffffffff
    have bytes : (b.releaseIrqHandler symbols sizeAt u).bytes = s4.bytes := by
      rw [StubMemory.releaseIrqHandler, if_neg refused, intact.size assembled]
      simp only [StubMemory.store32, intact.patchIndex, intact.patchCtxt, intact.patchJump, s1, s2, s3, s4, k]
    obtain ⟨one, two, three⟩ := assembled.ordered
    have spares : Spares l k b.bytes (b.releaseIrqHandler symbols sizeAt u).bytes := by
      have low : Spares l k s2.bytes s3.bytes := spares_store fun a above below =>
        ⟨(l.context, 8), by simp, above, by dsimp only; omega⟩
      have high : Spares l k s3.bytes s4.bytes := spares_store fun a above below =>
        ⟨(l.context, 8), by simp, by dsimp only; omega, by dsimp only; omega⟩
      rw [bytes]
      exact (((spares_word (l.nr, 4) (by simp)).trans (spares_word (l.jump, 4) (by simp))).trans low).trans high
    have nr : s4.load32 (l.length * k + l.nr) = idtStubNrMagic := by
      rw [load32_store32_apart (by omega), load32_store32_apart (by omega), load32_store32_apart (by omega), load32_store32]
    have context : s4.load64 (l.length * k + l.context) = 0xffffffff00000000 ||| idtStubCxMagic.toUInt64 := by
      rw [load64_halves]
      decide
    have jump : s4.load32 (l.length * k + l.jump) = symbols.swapgsFast := by
      rw [load32_store32_apart (by omega), load32_store32_apart (by omega), load32_store32]
    have words : (b.releaseIrqHandler symbols sizeAt u).words l k =
        ⟨idtStubNrMagic, 0xffffffff00000000 ||| idtStubCxMagic.toUInt64, symbols.swapgsFast⟩ := by
      rw [StubMemory.words, StubMemory.load32, StubMemory.load64, StubMemory.load32, bytes, Stub.mk.injEq]
      exact ⟨nr, context, jump⟩
    constructor
    · apply agrees.patched assembled.ordered spares
      · rw [words, releaseIrqHandler, if_neg refused]
      · rw [StubMemory.releaseIrqHandler, releaseIrqHandler, if_neg refused, if_neg refused]
        exact congrArg (Function.update · u.toNat 0xbadf00d) agrees.interruptPointerTable
      · rw [StubMemory.releaseIrqHandler, releaseIrqHandler, if_neg refused, if_neg refused, agrees.idt]
        rfl
    · apply intact.patched inside spares
      · rw [StubMemory.releaseIrqHandler, if_neg refused]
        rfl
      · rw [StubMemory.releaseIrqHandler, if_neg refused]
        rfl
      · rw [StubMemory.releaseIrqHandler, if_neg refused]
        rfl

end Calls

/-- The detection finds the three words, and then in every run the bytes of the stubs answer
and change as the records do: a registration and a release write the words of one stub,
and no call changes the code around them or what lies behind the stubs. -/
theorem stubs_patched_as_recorded (assembled : Assembled symbols sizeAt l start)
    (agrees : Agrees l (start.detectPatchOffsets symbols sizeAt).2 s) {calls : List StubCall}
    (inside : ∀ call ∈ calls, call.Inside) :
    (start.detectPatchOffsets symbols sizeAt).1 = true ∧
      ∃ trace b' s', runTrace (StubCall.patch symbols sizeAt) (start.detectPatchOffsets symbols sizeAt).2 calls =
          some (trace, b') ∧
        runTrace (StubCall.exec symbols) s calls = some (trace, s') ∧ Agrees l b' s' ∧ Intact l start b' := by
  obtain ⟨_, found⟩ := detect_finds assembled
  rw [found] at agrees ⊢
  refine ⟨rfl, runTrace_lockstep (fun b s => Agrees l b s ∧ Intact l start b) StubCall.Inside ?_
    ⟨agrees, rfl, rfl, rfl, fun _ _ => rfl⟩ inside⟩
  intro b s call within ⟨agrees, intact⟩
  cases call with
  | register r =>
    obtain ⟨answer, agrees', intact'⟩ := register_lockstep (r := r) assembled intact agrees
    refine ⟨_, _, _, rfl, ?_, agrees', intact'⟩
    exact congrArg (fun answer => some ([answer], (request symbols s r).2)) answer.symm
  | release u =>
    exact ⟨[], _, _, rfl, rfl, release_lockstep assembled intact agrees within⟩

/-- The records of what is in memory. -/
def StubMemory.recorded (l : StubLayout) (b : StubMemory) : State := ⟨b.words l, b.interruptPointerTable, b.idt⟩

private theorem agrees_recorded (l : StubLayout) (b : StubMemory) : Agrees l b (b.recorded l) := ⟨fun _ _ => rfl, rfl, rfl⟩

/-- One stub: the code of the macro, and no-ops up to the alignment. -/
def assembledStub : List UInt8 :=
  [0x6a, 0x00, 0x68, 0xef, 0xbe, 0xad, 0xde, 0x6a, 0x00, 0x50, 0x48, 0xb8, 0x0d, 0xf0, 0xad, 0x0b, 0xff, 0xff, 0xff, 0xff,
    0x48, 0x89, 0x44, 0x24, 0x08, 0x48, 0x8d, 0x04, 0x25, 0x40, 0x20, 0x10, 0x80, 0xff, 0xe0] ++ List.replicate 29 0x90

def stubSymbols : Symbols := ⟨0xffffffff80103000, 64, 0xffffffff80105000, 64, 0xffffffff80101000, 0x80102100, 0x80102040⟩

/-- The section as it is loaded, with the quadword of the size behind it. -/
def loadedStubs : StubMemory where
  bytes a := if a < 14272 then assembledStub.getD (a % 64) 0 else [0xc0, 0x37].getD (a - 14272) 0
  patchIndex := 0
  patchCtxt := 0
  patchJump := 0
  interruptPointerTable _ := 0
  idt _ := ⟨0, 0, 0, 0, 0, 0⟩

def stubLayout : StubLayout := ⟨3, 12, 29, 64⟩

private theorem loadedStubs_assembled : Assembled stubSymbols 14272 stubLayout loadedStubs where
  first := by decide
  ordered := ⟨by decide, by decide, by decide⟩
  short := by decide
  behind := by decide
  size := by decide
  stubSize := by decide
  nr := by decide +kernel
  context := by decide +kernel
  jump := by decide +kernel
  offsets := ⟨rfl, rfl, rfl⟩

def stubCalls : List StubCall := [.register ⟨0x1000, 7, true⟩, .release 33, .register ⟨0x2000, 8, false⟩]

private theorem stubCalls_inside : ∀ call ∈ stubCalls, call.Inside := by
  intro call member
  simp only [stubCalls, List.mem_cons, List.not_mem_nil, or_false] at member
  rcases member with rfl | rfl | rfl
  · trivial
  · exact .inl (by decide)
  · trivial

theorem stubs_patched_as_recorded_witness :
    (loadedStubs.detectPatchOffsets stubSymbols 14272).1 = true ∧
      ∃ trace b' s',
        runTrace (StubCall.patch stubSymbols 14272) (loadedStubs.detectPatchOffsets stubSymbols 14272).2 stubCalls =
          some (trace, b') ∧
        runTrace (StubCall.exec stubSymbols) ((loadedStubs.detectPatchOffsets stubSymbols 14272).2.recorded stubLayout)
          stubCalls = some (trace, s') ∧ Agrees stubLayout b' s' ∧ Intact stubLayout loadedStubs b' :=
  stubs_patched_as_recorded loadedStubs_assembled (agrees_recorded stubLayout _) stubCalls_inside

end Hotarubi.Idt
