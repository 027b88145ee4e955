import Hotarubi.Proofs.VcbprintfFormat

/-! What arrives at the callback. Every statement counts the bytes it delivers, and a
refused call is the last one, so the result is the number of bytes or -1. -/

namespace Hotarubi.Lib.Vcbprintf

/-- The bytes that an event delivers. -/
def Event.size : Event → Nat
  | .call _ l _ => l
  | .store _ _ _ => 0

def delivered (trace : List Event) : Nat := (trace.map Event.size).sum

def Event.bytes : Event → List UInt8
  | .call s l _ => s.take l
  | .store _ _ _ => []

/-- The bytes that have been handed over. -/
def emitted (trace : List Event) : List UInt8 := trace.flatMap Event.bytes

/-- A call returned the length it was given. -/
def Event.Accepted : Event → Prop
  | .call _ l returned => returned = l
  | .store _ _ _ => True

def Clean (trace : List Event) : Prop := ∀ event ∈ trace, event.Accepted

/-- The bytes a statement delivers if all calls are accepted. -/
def Command.size : Command → Nat
  | .puts _ l => l
  | .pad _ len => toSize (toInt len)
  | .store _ _ => 0

def totalSize (commands : List Command) : Nat := (commands.map Command.size).sum

section Integers

theorem toInt_eq (n : Int) : toInt n = (n + 2147483648) % 4294967296 - 2147483648 := by
  simp [toInt, signed]

theorem toSize_eq (n : Int) : toSize n = (n % 18446744073709551616).toNat := by
  simp [toSize]

private theorem toInt_toSize (n : Int) : toInt (toSize (toInt n)) = toInt n := by
  simp only [toInt_eq, toSize_eq]
  omega

private theorem toInt_add (n k : Int) : toInt (toInt n + k) = toInt (n + k) := by
  simp only [toInt_eq]
  omega

theorem toInt_small {n : Nat} (small : n < 2 ^ 31) : toInt n = n := by
  simp only [toInt_eq]
  omega

private theorem stored_mod (length : Length) (n : Nat) : length.stored (n % 2 ^ 64) = length.stored n := by
  cases length <;> simp [Length.stored, signed, Length.bits] <;> omega

end Integers

section Traces

variable {trace new : List Event}

private theorem delivered_append (trace new : List Event) : delivered (trace ++ new) = delivered trace + delivered new := by
  simp [delivered]

theorem emitted_append (trace new : List Event) : emitted (trace ++ new) = emitted trace ++ emitted new := by
  simp [emitted]

private theorem clean_append : Clean (trace ++ new) ↔ Clean trace ∧ Clean new := by
  simp only [Clean, List.mem_append, or_imp, forall_and]

/-- Every `%n` behind accepted calls has written what they delivered. -/
def Numbered (trace : List Event) : Prop := ∀ before length address value after,
  trace = before ++ .store length address value :: after → Clean before → value = length.stored (delivered before)

theorem Numbered.calls (numbered : Numbered trace) (calls : ∀ event ∈ new, ∃ s l returned, event = .call s l returned) :
    Numbered (trace ++ new) := by
  intro before length address value after split clean
  rcases List.append_eq_append_iff.mp split with ⟨middle, _, rest⟩ | ⟨middle, same, rest⟩
  · obtain ⟨s, l, returned, call⟩ := calls (.store length address value) (rest ▸ by simp)
    cases call
  · cases middle with
    | nil =>
      rw [List.nil_append] at rest
      obtain ⟨s, l, returned, call⟩ := calls (.store length address value) (rest ▸ List.mem_cons_self)
      cases call
    | cons event middle =>
      obtain ⟨rfl, _⟩ := List.cons.inj rest
      exact numbered before length address value middle same clean

theorem Numbered.store (numbered : Numbered trace) {length : Length} {address : Nat} {value : Int}
    (right : Clean trace → value = length.stored (delivered trace)) :
    Numbered (trace ++ [.store length address value]) := by
  intro before length' address' value' after split clean
  rcases List.append_eq_append_iff.mp split with ⟨middle, same, rest⟩ | ⟨middle, same, rest⟩
  · cases middle with
    | nil =>
      rw [List.append_nil] at same
      cases rest
      exact same ▸ right (same ▸ clean)
    | cons event middle =>
      have length := congrArg List.length rest
      simp only [List.length_cons, List.length_nil, List.length_append] at length
      omega
  · cases middle with
    | nil =>
      rw [List.append_nil] at same
      cases rest
      exact same ▸ right (same ▸ clean)
    | cons event middle =>
      obtain ⟨rfl, _⟩ := List.cons.inj rest
      exact numbered before length' address' value' middle same clean

end Traces

section Statements

variable {σ : Type} {cb : Callback σ} {command : Command} {commands : List Command} {x x' : Printer σ} {success : Bool}

/-- Calls that are accepted one after the other. -/
def Calls (new : List Event) : Prop := ∀ event ∈ new, ∃ s l, event = .call s l l

theorem Calls.clean {new : List Event} (calls : Calls new) : Clean new := by
  intro event member
  obtain ⟨s, l, rfl⟩ := calls event member
  rfl

private theorem filler_call (useZero : Bool) {len : Nat} (short : len ≤ fillSize) :
    emitted [.call (filler useZero) len len] = List.replicate len (if useZero then '0'.toUInt8 else ' '.toUInt8) := by
  have within : len ≤ (List.replicate fillSize (if useZero then '0'.toUInt8 else ' '.toUInt8)).length :=
    by simpa using short
  have whole : filler useZero = List.replicate fillSize (if useZero then '0'.toUInt8 else ' '.toUInt8) ++ [0] := rfl
  simp only [emitted, List.flatMap_cons, List.flatMap_nil, List.append_nil, Event.bytes]
  rw [whole, List.take_append_of_le_length within, List.take_replicate, Nat.min_eq_left short]

private theorem padFrom_spec (cb : Callback σ) (useZero : Bool) {limit len : Nat} (enough : len < limit * fillSize)
    (n : Int)
    (x : Printer σ) :
    ∃ p new, Calls new ∧
      (padFrom cb useZero limit len (toInt n) x = (toInt (n + len), { x with p, trace := x.trace ++ new }) ∧
          delivered new = len ∧ emitted new = List.replicate len (if useZero then '0'.toUInt8 else ' '.toUInt8) ∨
        ∃ p' s l, (cb p' s l).1 ≠ l ∧ padFrom cb useZero limit len (toInt n) x =
          (-1, { x with p, trace := x.trace ++ (new ++ [.call s l (cb p' s l).1]) })) := by
  induction limit generalizing len n x with
  | zero => omega
  | succ limit ih =>
    rw [padFrom]
    by_cases empty : len = 0
    · subst empty
      exact ⟨x.p, [], nofun, .inl ⟨by simp, rfl, rfl⟩⟩
    · rw [if_neg empty]
      by_cases last : len < fillSize
      · rw [if_pos last]
        by_cases refused : (cb x.p (filler useZero) len).1 ≠ len
        · refine ⟨(cb x.p (filler useZero) len).2, [], nofun, .inr ⟨x.p, filler useZero, len, refused, ?_⟩⟩
          simp only [Printer.call, refused, ne_eq, not_false_eq_true, if_true, List.nil_append]
        · rw [not_not] at refused
          refine ⟨(cb x.p (filler useZero) len).2, [.call (filler useZero) len len], ?_,
            .inl ⟨?_, by simp [delivered, Event.size], ?_⟩⟩
          · simp [Calls]
          · simp only [Printer.call, refused, ne_eq, not_true_eq_false, if_false, toInt_add]
          · exact filler_call useZero (Nat.le_of_lt last)
      · rw [if_neg last]
        by_cases refused : (cb x.p (filler useZero) fillSize).1 ≠ fillSize
        · refine ⟨(cb x.p (filler useZero) fillSize).2, [], nofun, .inr ⟨x.p, filler useZero, fillSize, refused, ?_⟩⟩
          simp only [Printer.call, refused, ne_eq, not_false_eq_true, if_true, List.nil_append]
        · rw [not_not] at refused
          simp only [Printer.call, refused, ne_eq, not_true_eq_false, if_false, toInt_add]
          have bound : len - fillSize < limit * fillSize := by
            simp only [fillSize] at *
            omega
          have parts : len = fillSize + (len - fillSize) := by omega
          obtain ⟨p, new, calls, result⟩ := ih bound (n + fillSize)
            { x with
              p := (cb x.p (filler useZero) fillSize).2
              trace := x.trace ++ [.call (filler useZero) fillSize fillSize] }
          refine ⟨p, .call (filler useZero) fillSize fillSize :: new, ?_, ?_⟩
          · intro event member
            rcases List.mem_cons.mp member with rfl | later
            · exact ⟨_, _, rfl⟩
            · exact calls event later
          · rcases result with ⟨ran, counted, bytes⟩ | ⟨p', s, l, refused', ran⟩
            · refine .inl ⟨?_, ?_, ?_⟩
              · have sum : n + (fillSize : Int) + ((len - fillSize : Nat) : Int) = n + len := by omega
                rw [ran, sum, List.append_assoc]
                rfl
              · have total := delivered_append [.call (filler useZero) fillSize fillSize] new
                rw [List.singleton_append, counted] at total
                rw [total]
                simp only [delivered, List.map_cons, List.map_nil, Event.size, List.sum_cons, List.sum_nil]
                omega
              · have first := filler_call useZero (Nat.le_refl fillSize)
                have both := emitted_append [.call (filler useZero) fillSize fillSize] new
                rw [List.singleton_append, first, bytes, List.replicate_append_replicate, ← parts] at both
                exact both
            · refine .inr ⟨p', s, l, refused', ?_⟩
              rw [ran, List.append_assoc]
              rfl

/-- The count is right as long as no call was refused, and so is what `%n` wrote. -/
structure Counted (x : Printer σ) : Prop where
  numbered : Numbered x.trace
  produced : Clean x.trace → x.produced = UInt64.ofNat (delivered x.trace)

/-- What statements do: they hand over their bytes, or a call is refused. -/
structure Outcome (cb : Callback σ) (commands : List Command) (x : Printer σ) (success : Bool) (x' : Printer σ)
    (new : List Event) : Prop where
  trace : x'.trace = x.trace ++ new
  counted : Counted x → Counted x'
  result : success = true ∧ Clean new ∧ delivered new = totalSize commands ∧ emitted new = commands.flatMap Command.bytes ∨
    (∃ p s l, (cb p s l).1 ≠ l) ∧ ¬ Clean new ∧ (totalSize commands < 2 ^ 31 → success = false ∧
      ∃ before s l returned, new = before ++ [.call s l returned] ∧ Clean before)

theorem Outcome.calls {p : σ} {new : List Event} (calls : Calls new) (size : delivered new = command.size)
    (bytes : emitted new = command.bytes) : Outcome cb [command] x true
      { p, produced := x.produced + UInt64.ofNat command.size, trace := x.trace ++ new } new := by
  refine ⟨rfl, fun counted => ⟨counted.numbered.calls fun event member => ?_, fun clean => ?_⟩,
    .inl ⟨rfl, calls.clean, by simp [totalSize, size], by simp [bytes]⟩⟩
  · obtain ⟨s, l, same⟩ := calls event member
    exact ⟨s, l, l, same⟩
  · rw [delivered_append, UInt64.ofNat_add, counted.produced (clean_append.mp clean).1, size]

theorem Outcome.refused {p : σ} {s : List UInt8} {l : Nat} {new : List Event} (calls : Calls new)
    (refused : (cb p s l).1 ≠ l)
    (trace : x'.trace = x.trace ++ (new ++ [.call s l (cb p s l).1]))
    (noticed : totalSize commands < 2 ^ 31 → success = false) :
    Outcome cb commands x success x' (new ++ [.call s l (cb p s l).1]) := by
  have dirty : ¬ Clean (new ++ [.call s l (cb p s l).1]) := fun clean => refused (clean (.call s l (cb p s l).1) (by simp))
  refine ⟨trace, fun counted => ⟨?_, fun clean => ?_⟩,
    .inr ⟨⟨p, s, l, refused⟩, dirty, fun small => ⟨noticed small, new, s, l, _, rfl, calls.clean⟩⟩⟩
  · rw [trace]
    apply counted.numbered.calls
    intro event member
    rcases List.mem_append.mp member with before | last
    · obtain ⟨s, l, same⟩ := calls event before
      exact ⟨s, l, l, same⟩
    · exact ⟨s, l, _, List.mem_singleton.mp last⟩
  · rw [trace] at clean
    exact absurd (clean_append.mp clean).2 dirty

theorem Outcome.append {commands' : List Command} {x'' : Printer σ} {new new' : List Event}
    (first : Outcome cb commands x true x' new) (later : Outcome cb commands' x' success x'' new') :
    Outcome cb (commands ++ commands') x success x'' (new ++ new') := by
  have total : totalSize (commands ++ commands') = totalSize commands + totalSize commands' := by simp [totalSize]
  refine ⟨by rw [later.trace, first.trace, List.append_assoc], later.counted ∘ first.counted, ?_⟩
  rw [total]
  rcases first.result with ⟨_, clean, counted, bytes⟩ | ⟨refused, dirty, noticed⟩
  · rcases later.result with ⟨done, clean', counted', bytes'⟩ | ⟨refused, dirty', noticed'⟩
    · refine .inl ⟨done, clean_append.mpr ⟨clean, clean'⟩, ?_, ?_⟩
      · rw [delivered_append, counted, counted']
      · rw [emitted_append, bytes, bytes', List.flatMap_append]
    · refine .inr ⟨refused, fun both => dirty' (clean_append.mp both).2, fun small => ?_⟩
      obtain ⟨failed, before, s, l, returned, rfl, clean'⟩ := noticed' (by omega)
      exact ⟨failed, new ++ before, s, l, returned, (List.append_assoc ..).symm, clean_append.mpr ⟨clean, clean'⟩⟩
  · refine .inr ⟨refused, fun both => dirty (clean_append.mp both).1, fun small => ?_⟩
    obtain ⟨failed, _⟩ := noticed (by omega)
    cases failed

private theorem perform_outcome (cb : Callback σ) (command : Command) (x : Printer σ) : ∃ success x' new,
    command.perform cb x = (success, x') ∧ Outcome cb [command] x success x' new := by
  cases command with
  | puts s l =>
    by_cases refused : (cb x.p s l).1 ≠ l
    · have none : Calls [] := nofun
      let x' : Printer σ := { x with p := (cb x.p s l).2, trace := x.trace ++ ([] ++ [.call s l (cb x.p s l).1]) }
      refine ⟨false, x', _, ?_, Outcome.refused none refused rfl fun _ => rfl⟩
      simp only [Command.perform, Printer.call, refused, ne_eq, not_false_eq_true, if_true]
      rfl
    · rw [not_not] at refused
      have calls : Calls [.call s l l] := by simp [Calls]
      refine ⟨true, _, _, ?_, Outcome.calls calls (p := (cb x.p s l).2) (by simp [delivered, Event.size, Command.size])
        (by simp [emitted, Event.bytes, Command.bytes])⟩
      simp only [Command.perform, Printer.call, refused, ne_eq, not_true_eq_false, if_false, Command.size]
  | pad useZero len =>
    have enough : toSize (toInt len) < (toSize (toInt len) / fillSize + 1) * fillSize := by
      simp only [fillSize]
      omega
    have zero : toInt 0 = 0 := by decide
    obtain ⟨p, new, calls, result⟩ := padFrom_spec cb useZero enough 0 x
    rw [zero, Int.zero_add, toInt_toSize] at result
    rcases result with ⟨ran, counted, bytes⟩ | ⟨p', s, l, refused, ran⟩
    · refine ⟨true, _, new, ?_, Outcome.calls calls (p := p) counted bytes⟩
      simp only [Command.perform, padString, ran, ne_eq, not_true_eq_false, if_false, Command.size]
    · have noticed : totalSize [.pad useZero len] < 2 ^ 31 → ¬ -1 = toInt len := by
        intro small same
        simp only [totalSize, List.map_cons, List.map_nil, List.sum_cons, List.sum_nil, Command.size, ← same] at small
        exact absurd small (by decide)
      by_cases same : -1 = toInt len
      · let x' : Printer σ :=
          ⟨p, x.produced + UInt64.ofNat (toSize (toInt len)), x.trace ++ (new ++ [.call s l (cb p' s l).1])⟩
        refine ⟨true, x', _, ?_, Outcome.refused calls refused rfl fun small => absurd same (noticed small)⟩
        simp only [Command.perform, padString, ran, same, ne_eq, not_true_eq_false, if_false]
        rfl
      · let x' : Printer σ := { x with p, trace := x.trace ++ (new ++ [.call s l (cb p' s l).1]) }
        refine ⟨false, x', _, ?_, Outcome.refused calls refused rfl fun _ => rfl⟩
        simp only [Command.perform, padString, ran, same, ne_eq, not_false_eq_true, if_true]
        rfl
  | store length address =>
    refine ⟨true, _, [.store length address (length.stored x.produced.toNat)], rfl, rfl, fun counted =>
      ⟨?_, fun clean => ?_⟩,
      .inl ⟨rfl, by simp [Clean, Event.Accepted], rfl, rfl⟩⟩
    · apply counted.numbered.store
      intro clean
      rw [counted.produced clean, UInt64.toNat_ofNat', stored_mod]
    · simp only [delivered_append]
      exact counted.produced (clean_append.mp clean).1

private theorem performAll_outcome (cb : Callback σ) (commands : List Command) (x : Printer σ) : ∃ success x' new,
    performAll cb commands x = (success, x') ∧ Outcome cb commands x success x' new := by
  induction commands generalizing x with
  | nil => exact ⟨true, x, [], rfl, by simp, id, .inl ⟨rfl, nofun, rfl, rfl⟩⟩
  | cons command commands ih =>
    obtain ⟨success, x1, new, ran, outcome⟩ := perform_outcome cb command x
    rw [performAll, ran]
    cases success with
    | true =>
      obtain ⟨success, x', new', ran', outcome'⟩ := ih x1
      exact ⟨success, x', new ++ new', ran', outcome.append outcome'⟩
    | false =>
      refine ⟨false, x1, new, rfl, outcome.trace, outcome.counted, ?_⟩
      rcases outcome.result with ⟨done, _⟩ | ⟨refused, dirty, noticed⟩
      · cases done
      · refine .inr ⟨refused, dirty, fun small => noticed ?_⟩
        simp only [totalSize, List.map_cons, List.sum_cons, List.map_nil, List.sum_nil] at small ⊢
        omega

end Statements

def Accepting {σ : Type} (cb : Callback σ) : Prop := ∀ p s l, (cb p s l).1 = l

theorem emitted_text {σ : Type} {cb : Callback σ} (accepting : Accepting cb) (p : σ) (fmt : List UInt8) (args : List Arg) :
    emitted (vcbprintf cb p fmt args).2.trace = text fmt args := by
  obtain ⟨success, x, new, ran, outcome⟩ := performAll_outcome cb (printed fmt args).1 ⟨p, 0, []⟩
  have trace : x.trace = new := outcome.trace
  rcases outcome.result with ⟨rfl, _, _, bytes⟩ | ⟨⟨p', s, l, refused⟩, _⟩
  · rw [printed] at ran
    simp only [vcbprintf, ran, if_true, trace, bytes]
    rfl
  · exact absurd (accepting p' s l) refused

/-- Where no call is refused, the format alone decides whether there is a result. -/
theorem accepted_result {σ : Type} {cb : Callback σ} (accepting : Accepting cb) (p : σ) (fmt : List UInt8)
    (args : List Arg) :
    ∃ rc, (vcbprintf cb p fmt args).1 = (printed fmt args).2.map fun _ => rc := by
  obtain ⟨success, x, new, ran, outcome⟩ := performAll_outcome cb (printed fmt args).1 ⟨p, 0, []⟩
  rcases outcome.result with ⟨rfl, _⟩ | ⟨⟨p', s, l, refused⟩, _⟩
  · rw [printed] at ran
    refine ⟨toInt x.produced.toNat, ?_⟩
    simp only [vcbprintf, ran, if_true]
    rfl
  · exact absurd (accepting p' s l) refused

/-- A fault is always one of the format. -/
theorem vcbprintf_fault {σ : Type} {cb : Callback σ} {p : σ} {fmt : List UInt8} {args : List Arg} {fault : Fault}
    (failed : (vcbprintf cb p fmt args).1 = .error fault) : (printed fmt args).2 = .error fault := by
  unfold vcbprintf at failed
  simp only at failed
  split at failed
  next =>
    cases finish : (script fmt.length fmt args).2 with
    | ok _ =>
      rw [finish] at failed
      cases failed
    | error other =>
      rw [finish] at failed
      cases failed
      exact finish
  next => cases failed

/-- Nothing of a conversion is left over for what follows it: the bytes of a format in
front of another are its own bytes in front of those of the other. -/
theorem concatenation {σ : Type} {cb : Callback σ} (accepting : Accepting cb) {f : List UInt8} {A : List Arg}
    (conforms : Conforms f A []) (g : List UInt8) (B : List Arg) (p q r : σ) :
    emitted (vcbprintf cb p (f ++ g) (A ++ B)).2.trace =
      emitted (vcbprintf cb q f A).2.trace ++ emitted (vcbprintf cb r g B).2.trace := by
  rw [emitted_text accepting, emitted_text accepting, emitted_text accepting, conforms.text_append g B, List.nil_append]

def acceptAll : Callback Unit := fun _ _ l => (l, ())

theorem concatenation_witness :
    let f := ['%', '-', '4', 'd', '%', '%'].map Char.toUInt8
    let g := ['%', '4', 'c', '%'].map Char.toUInt8
    emitted (vcbprintf acceptAll () (f ++ g) ([.word 7] ++ [.word 65])).2.trace =
      emitted (vcbprintf acceptAll () f [.word 7]).2.trace ++ emitted (vcbprintf acceptAll () g [.word 65]).2.trace := by
  intro f g
  have conforms : Conforms f [.word 7] [] := .conversion (by rfl) (.conversion (by rfl) .done)
  exact concatenation (fun _ _ _ => rfl) conforms g [.word 65] () () ()

end Hotarubi.Lib.Vcbprintf
