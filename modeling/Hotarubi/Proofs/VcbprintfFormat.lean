import Hotarubi.Lib.Vcbprintf
import Mathlib.Data.List.Find

/-! How a format is read. A conversion takes its specification from the front of the
format and its arguments from the front of the list, and what is behind them does not
matter to it. -/

namespace Hotarubi.Lib.Vcbprintf

/-- The bytes a statement hands over if all calls are accepted. -/
def Command.bytes : Command → List UInt8
  | .puts s l => s.take l
  | .pad useZero len => List.replicate (toSize (toInt len)) (if useZero then '0'.toUInt8 else ' '.toUInt8)
  | .store _ _ => []

/-- The statements for a whole format, and how reading it ends. -/
def printed (fmt : List UInt8) (args : List Arg) : List Command × Except Fault Unit := script fmt.length fmt args

def text (fmt : List UInt8) (args : List Arg) : List UInt8 := (printed fmt args).1.flatMap Command.bytes

/-- A format of literal text and complete specifications, the arguments it takes, and those it leaves. -/
inductive Conforms : List UInt8 → List Arg → List Arg → Prop
  | done {args : List Arg} : Conforms [] args args
  | literal {c : UInt8} {fmt : List UInt8} {args left : List Arg} (text : c ≠ '%'.toUInt8)
    (later : Conforms fmt args left) : Conforms (c :: fmt) args left
  | conversion {fmt rest : List UInt8} {args args' left : List Arg} {commands : List Command}
    (complete : conversion fmt args = (commands, .ok (rest, args')))
    (later : Conforms rest args' left) : Conforms ('%'.toUInt8 :: fmt) args left

section Consumption

variable {fmt rest : List UInt8} {args args' : List Arg} {flags flags' : Flags} {spec : Spec}

theorem bind_ok {α β : Type} {x : Except Fault α} {f : α → Except Fault β} {b : β} :
    (x >>= f) = .ok b ↔ ∃ a, x = .ok a ∧ f a = .ok b := by
  cases x <;> simp [bind, Except.bind]

private theorem readFlags_cons (c : UInt8) (flags : Flags) :
    (∃ flags', ∀ fmt, readFlags (c :: fmt) flags = readFlags fmt flags') ∨
      ∀ fmt, readFlags (c :: fmt) flags = (flags, c :: fmt) := by
  simp only [readFlags]
  repeat'
    split
    next => exact .inl ⟨_, fun _ => rfl⟩
  exact .inr fun _ => rfl

private theorem readFlags_length (fmt : List UInt8) (flags : Flags) : (readFlags fmt flags).2.length ≤ fmt.length := by
  induction fmt generalizing flags with
  | nil => exact Nat.le_refl _
  | cons c fmt ih =>
    rcases readFlags_cons c flags with ⟨flags', goes⟩ | ends
    · rw [goes]
      exact Nat.le_succ_of_le (ih flags')
    · rw [ends]

private theorem readNumber_length (n : Int) (fmt : List UInt8) : (readNumber n fmt).2.length ≤ fmt.length := by
  fun_induction readNumber n fmt
  all_goals simp only [List.length_cons, List.length_nil] at *
  all_goals omega

private theorem readWidth_length {width : Int} (read : readWidth flags fmt args = .ok (width, flags', rest, args')) :
    rest.length ≤ fmt.length := by
  have digits := readNumber_length 0 fmt
  unfold readWidth at read
  simp only at read
  split at read
  next =>
    obtain ⟨⟨value, left⟩, _, read⟩ := bind_ok.mp read
    simp only at read
    split at read <;>
    · cases read
      rw [List.length_tail]
      omega
  next =>
    cases read
    exact digits

private theorem readPrecision_length {precision : Int} {haveDot : Bool}
    (read : readPrecision fmt args = .ok (precision, haveDot, rest, args')) : rest.length ≤ fmt.length := by
  have digits := readNumber_length 0 fmt.tail
  rw [List.length_tail] at digits
  unfold readPrecision at read
  simp only at read
  split at read
  next =>
    split at read
    next =>
      obtain ⟨⟨value, left⟩, _, read⟩ := bind_ok.mp read
      cases read
      rw [List.length_tail]
      omega
    next =>
      cases read
      omega
  next =>
    cases read
    exact Nat.le_refl _

private theorem readLength_length (fmt : List UInt8) : (readLength fmt).2.length ≤ fmt.length := by
  unfold readLength
  split
  next => simp
  next => exact Nat.le_refl _

private theorem readSpec_length (read : readSpec fmt args = .ok (spec, rest, args')) : rest.length ≤ fmt.length := by
  obtain ⟨⟨width, flags, fmt1, args1⟩, readWidth, read⟩ := bind_ok.mp read
  obtain ⟨⟨precision, haveDot, fmt2, args2⟩, readPrecision, read⟩ := bind_ok.mp read
  simp only [Except.ok.injEq, Prod.mk.injEq] at read
  obtain ⟨_, rfl, _⟩ := read
  have first := readFlags_length fmt ⟨false, false, false, false, false, false⟩
  have second := readWidth_length readWidth
  have third := readPrecision_length readPrecision
  have last := readLength_length fmt2
  omega

theorem conversion_length {commands : List Command} (read : conversion fmt args = (commands, .ok (rest, args'))) :
    rest.length ≤ fmt.length := by
  unfold conversion at read
  split at read
  next =>
    cases read
    rw [List.length_tail]
    omega
  next =>
    simp only at read
    split at read
    next => cases read
    next => cases read
    next spec c rest' left parsed =>
      have bound := readSpec_length parsed
      rw [List.length_cons] at bound
      split at read
      next => cases read
      next =>
        cases read
        omega

end Consumption

section Printing

variable {fmt : List UInt8} {args : List Arg}

/-- The statements from a `%` on. -/
def converted (limit : Nat) (fmt : List UInt8) (args : List Arg) : List Command × Except Fault Unit :=
  if fmt = [] then ([], .ok ())
  else
    match conversion fmt.tail args with
    | (commands, .error fault) => (commands, .error fault)
    | (commands, .ok (fmt, args)) => (commands ++ (script limit fmt args).1, (script limit fmt args).2)

private theorem script_succ (limit : Nat) (fmt : List UInt8) (args : List Arg) : script (limit + 1) fmt args =
    ((literal fmt).1 ++ (converted limit (literal fmt).2 args).1, (converted limit (literal fmt).2 args).2) := by
  rw [script]
  by_cases empty : fmt = []
  · subst empty
    simp [literal, converted]
  · rw [if_neg empty]
    unfold converted
    by_cases nothing : (literal fmt).2 = []
    · simp [nothing]
    · simp only [nothing, if_false]
      cases conversion (literal fmt).2.tail args with
      | mk commands next =>
        cases next with
        | error fault => rfl
        | ok next => simp only [List.append_assoc]

theorem literal_length (fmt : List UInt8) : (literal fmt).2.length ≤ fmt.length := by
  unfold literal
  split
  next => exact Nat.le_refl _
  next =>
    split
    next => simp
    next => exact Nat.le_refl _

private theorem script_limit {n k : Nat} (enough : fmt.length ≤ n) (enough' : fmt.length ≤ k) :
    script n fmt args = script k fmt args := by
  induction n generalizing k fmt args with
  | zero =>
    obtain rfl := List.length_eq_zero_iff.mp (Nat.le_zero.mp enough)
    cases k <;> simp [script]
  | succ n ih =>
    cases k with
    | zero =>
      obtain rfl := List.length_eq_zero_iff.mp (Nat.le_zero.mp enough')
      simp [script]
    | succ k =>
      have shorter := literal_length fmt
      have same : converted n (literal fmt).2 args = converted k (literal fmt).2 args := by
        unfold converted
        split
        next => rfl
        next nonempty =>
          split
          next => rfl
          next commands rest left read =>
            have less := conversion_length read
            have positive := List.length_pos_iff.mpr nonempty
            rw [List.length_tail] at less
            have passes : rest.length ≤ n := by omega
            have passes' : rest.length ≤ k := by omega
            rw [ih passes passes']
      rw [script_succ, script_succ, same]

private theorem converted_limit {n k : Nat} (enough : fmt.length ≤ n) (enough' : fmt.length ≤ k) :
    converted n fmt args = converted k fmt args := by
  unfold converted
  split
  next => rfl
  next =>
    split
    next => rfl
    next commands rest left read =>
      have less := conversion_length read
      rw [List.length_tail] at less
      have passes : rest.length ≤ n := by omega
      have passes' : rest.length ≤ k := by omega
      rw [script_limit passes passes']

private theorem printed_eq (fmt : List UInt8) (args : List Arg) : printed fmt args =
    ((literal fmt).1 ++ (converted fmt.length (literal fmt).2 args).1, (converted fmt.length (literal fmt).2 args).2) := by
  rw [printed, script_limit (Nat.le_refl _) (Nat.le_succ _), script_succ]

private theorem literal_cons {c : UInt8} (plain : c ≠ '%'.toUInt8) (fmt : List UInt8) :
    (literal (c :: fmt)).2 = (literal fmt).2 ∧
      (literal (c :: fmt)).1.flatMap Command.bytes = c :: (literal fmt).1.flatMap Command.bytes := by
  cases fmt with
  | nil => simp [literal, plain, Command.bytes]
  | cons d fmt =>
    by_cases percent : d = '%'.toUInt8
    · subst percent
      simp [literal, plain, Command.bytes]
    · simp [literal, plain, percent, Command.bytes, Nat.add_comm 1]

theorem text_literal {c : UInt8} (plain : c ≠ '%'.toUInt8) (fmt : List UInt8) (args : List Arg) :
    text (c :: fmt) args = c :: text fmt args ∧ (printed (c :: fmt) args).2 = (printed fmt args).2 := by
  obtain ⟨behind, bytes⟩ := literal_cons plain fmt
  have shorter := literal_length fmt
  have longer : (literal fmt).2.length ≤ (c :: fmt).length := Nat.le_succ_of_le shorter
  unfold text
  rw [printed_eq (c :: fmt), printed_eq fmt, behind, converted_limit longer shorter]
  simp only [List.flatMap_append, bytes, List.cons_append, and_self]

private theorem literal_percent (fmt : List UInt8) : literal ('%'.toUInt8 :: fmt) = ([], '%'.toUInt8 :: fmt) := by
  simp [literal]

theorem text_conversion {fmt rest : List UInt8} {args args' : List Arg} {commands : List Command}
    (read : conversion fmt args = (commands, .ok (rest, args'))) :
    text ('%'.toUInt8 :: fmt) args = commands.flatMap Command.bytes ++ text rest args' ∧
      (printed ('%'.toUInt8 :: fmt) args).2 = (printed rest args').2 := by
  have passes : rest.length ≤ ('%'.toUInt8 :: fmt).length := Nat.le_succ_of_le (conversion_length read)
  unfold text
  rw [printed_eq, literal_percent]
  unfold converted
  simp only [List.cons_ne_nil, if_false, List.tail_cons, read, List.nil_append, List.flatMap_append,
    script_limit passes (Nat.le_refl _), printed, and_self]

theorem printed_fault {fmt : List UInt8} {args : List Arg} {commands : List Command} {fault : Fault}
    (read : conversion fmt args = (commands, .error fault)) : (printed ('%'.toUInt8 :: fmt) args).2 = .error fault := by
  rw [printed_eq, literal_percent]
  unfold converted
  simp only [List.cons_ne_nil, if_false, List.tail_cons, read]

/-- All that is printed from a percent sign on comes from the conversion behind it. -/
theorem printed_congr {fmt fmt' : List UInt8} {args : List Arg} (same : conversion fmt args = conversion fmt' args) :
    printed ('%'.toUInt8 :: fmt) args = printed ('%'.toUInt8 :: fmt') args := by
  rw [printed_eq, printed_eq, literal_percent, literal_percent]
  unfold converted
  simp only [List.cons_ne_nil, if_false, List.tail_cons, ← same]
  cases read : conversion fmt args with
  | mk commands next =>
    cases next with
    | error fault => rfl
    | ok next =>
      obtain ⟨rest, left⟩ := next
      simp only
      have passes : rest.length ≤ ('%'.toUInt8 :: fmt).length := Nat.le_succ_of_le (conversion_length read)
      have passes' : rest.length ≤ ('%'.toUInt8 :: fmt').length := Nat.le_succ_of_le (conversion_length (same ▸ read))
      rw [script_limit passes passes']

theorem Conforms.finish {left : List Arg} (conforms : Conforms fmt args left) : (printed fmt args).2 = .ok () := by
  induction conforms with
  | done => rfl
  | literal plain _ ih => rw [(text_literal plain _ _).2, ih]
  | conversion complete _ ih => rw [(text_conversion complete).2, ih]

end Printing

section Behind

variable {fmt rest : List UInt8} {args args' : List Arg} {flags flags' : Flags} {spec : Spec}
  (behind : List UInt8) (further : List Arg)

private theorem readFlags_append (some : (readFlags fmt flags).2 ≠ []) :
    readFlags (fmt ++ behind) flags = ((readFlags fmt flags).1, (readFlags fmt flags).2 ++ behind) := by
  induction fmt generalizing flags with
  | nil => exact absurd rfl some
  | cons c fmt ih =>
    rw [List.cons_append]
    rcases readFlags_cons c flags with ⟨flags', goes⟩ | ends
    · rw [goes] at some ⊢
      rw [goes]
      exact ih some
    · rw [ends, ends]
      rfl

private theorem readNumber_append {n : Int} (some : (readNumber n fmt).2 ≠ []) :
    readNumber n (fmt ++ behind) = ((readNumber n fmt).1, (readNumber n fmt).2 ++ behind) := by
  induction fmt generalizing n with
  | nil => exact absurd rfl some
  | cons c fmt ih =>
    rw [List.cons_append]
    unfold readNumber at some ⊢
    split
    next digit =>
      rw [if_pos digit] at some
      exact ih some
    next => rfl

private theorem vaWord_append {value : UInt64} (read : vaWord args = .ok (value, args')) :
    vaWord (args ++ further) = .ok (value, args' ++ further) := by
  unfold vaWord at read
  split at read
  next =>
    cases read
    rfl
  next => cases read

private theorem vaInt_append {value : Int} (read : vaInt args = .ok (value, args')) :
    vaInt (args ++ further) = .ok (value, args' ++ further) := by
  unfold vaInt at read ⊢
  obtain ⟨⟨word, left⟩, taken, read⟩ := bind_ok.mp read
  simp only [Except.ok.injEq, Prod.mk.injEq] at read
  obtain ⟨rfl, rfl⟩ := read
  rw [vaWord_append further taken]
  rfl

private theorem vaString_append {array : Option (List UInt8)} (read : vaString args = .ok (array, args')) :
    vaString (args ++ further) = .ok (array, args' ++ further) := by
  unfold vaString at read
  split at read
  next =>
    cases read
    rfl
  next => cases read

private theorem vaVariable_append {address : Nat} (read : vaVariable args = .ok (address, args')) :
    vaVariable (args ++ further) = .ok (address, args' ++ further) := by
  unfold vaVariable at read
  split at read
  next =>
    cases read
    rfl
  next => cases read

private theorem head_append {c : UInt8} (some : fmt ≠ []) : (fmt ++ behind).head? = Option.some c ↔ fmt.head? =
    Option.some c := by
  cases fmt with
  | nil => exact absurd rfl some
  | cons d fmt => rfl

private theorem tail_append (some : fmt ≠ []) : (fmt ++ behind).tail = fmt.tail ++ behind := by
  cases fmt with
  | nil => exact absurd rfl some
  | cons d fmt => rfl

private theorem readWidth_append {width : Int} (read : readWidth flags fmt args = .ok (width, flags', rest, args'))
    (some : rest ≠ []) :
    readWidth flags (fmt ++ behind) (args ++ further) = .ok (width, flags', rest ++ behind, args' ++ further) := by
  unfold readWidth at read ⊢
  simp only at read ⊢
  have left : (readNumber 0 fmt).2 ≠ [] := by
    intro nothing
    rw [nothing] at read
    cases read
    exact some rfl
  rw [readNumber_append behind left]
  by_cases star : (readNumber 0 fmt).2.head? = Option.some '*'.toUInt8
  · rw [if_pos star] at read
    rw [if_pos ((head_append behind left).mpr star)]
    obtain ⟨⟨value, args1⟩, taken, read⟩ := bind_ok.mp read
    refine bind_ok.mpr ⟨(value, args1 ++ further), vaInt_append further taken, ?_⟩
    simp only at read ⊢
    split at read
    next negative =>
      cases read
      rw [if_pos negative, tail_append behind left]
    next positive =>
      cases read
      rw [if_neg positive, tail_append behind left]
  · rw [if_neg star] at read
    rw [if_neg (mt (head_append behind left).mp star)]
    cases read
    rfl

private theorem readPrecision_append {precision : Int} {haveDot : Bool}
    (read : readPrecision fmt args = .ok (precision, haveDot, rest, args')) (some : rest ≠ []) :
    readPrecision (fmt ++ behind) (args ++ further) = .ok (precision, haveDot, rest ++ behind, args' ++ further) := by
  have nonempty : fmt ≠ [] := by
    rintro rfl
    cases read
    exact some rfl
  unfold readPrecision at read ⊢
  by_cases dot : fmt.head? = Option.some '.'.toUInt8
  · rw [if_pos dot] at read
    rw [if_pos ((head_append behind nonempty).mpr dot), tail_append behind nonempty]
    simp only at read ⊢
    have left : (readNumber 0 fmt.tail).2 ≠ [] := by
      intro nothing
      rw [nothing] at read
      cases read
      exact some rfl
    rw [readNumber_append behind left]
    by_cases star : (readNumber 0 fmt.tail).2.head? = Option.some '*'.toUInt8
    · rw [if_pos star] at read
      rw [if_pos ((head_append behind left).mpr star)]
      obtain ⟨⟨value, args1⟩, taken, read⟩ := bind_ok.mp read
      cases read
      refine bind_ok.mpr ⟨(value, args1 ++ further), vaInt_append further taken, ?_⟩
      rw [tail_append behind left]
    · rw [if_neg star] at read
      rw [if_neg (mt (head_append behind left).mp star)]
      cases read
      rfl
  · rw [if_neg dot] at read
    rw [if_neg (mt (head_append behind nonempty).mp dot)]
    cases read
    rfl

theorem readLength_other {c : UInt8} (other : c ∉ ['h', 'l', 'j', 'z', 't'].map Char.toUInt8) (fmt : List UInt8) :
    readLength (c :: fmt) = (.int, c :: fmt) := by
  simp only [List.map_cons, List.map_nil, List.mem_cons, List.not_mem_nil, or_false, not_or] at other
  obtain ⟨h, l, j, z, t⟩ := other
  simp [readLength, lengthModifiers, List.isPrefixOf, Ne.symm h, Ne.symm l, Ne.symm j, Ne.symm z, Ne.symm t]

/-- No length modifier has more than two characters, so the one that is met is met
whatever is behind the conversion character. -/
private theorem readLength_append (some : (readLength fmt).2 ≠ []) :
    readLength (fmt ++ behind) = ((readLength fmt).1, (readLength fmt).2 ++ behind) := by
  have short : ∀ modifier ∈ lengthModifiers, modifier.1.length ≤ 2 := by decide
  rcases fmt with _ | ⟨c, _ | ⟨d, fmt⟩⟩
  · exact absurd rfl some
  · -- a modifier of one character would leave no conversion character
    have other : c ∉ ['h', 'l', 'j', 'z', 't'].map Char.toUInt8 := by
      intro letter
      apply some
      simp only [List.map_cons, List.map_nil, List.mem_cons, List.not_mem_nil, or_false] at letter
      rcases letter with rfl | rfl | rfl | rfl | rfl <;> rfl
    rw [List.cons_append, readLength_other other, readLength_other other]
    rfl
  · have found :
        lengthModifiers.find? (fun modifier => (modifier.1.map Char.toUInt8).isPrefixOf (c :: d :: fmt ++ behind)) =
        lengthModifiers.find? (fun modifier => (modifier.1.map Char.toUInt8).isPrefixOf (c :: d :: fmt)) := by
      refine List.find?_congr ?_
      simp [lengthModifiers, List.isPrefixOf]
    unfold readLength
    rw [found]
    split
    next str key hit =>
      have bound := short _ (List.mem_of_find?_eq_some hit)
      rw [List.drop_append_of_le_length (Nat.le_trans bound (by simp))]
    next => rfl

theorem readSpec_append (read : readSpec fmt args = .ok (spec, rest, args')) (some : rest ≠ []) :
    readSpec (fmt ++ behind) (args ++ further) = .ok (spec, rest ++ behind, args' ++ further) := by
  unfold readSpec at read ⊢
  obtain ⟨⟨width, flags, fmt1, args1⟩, widthRead, read⟩ := bind_ok.mp read
  obtain ⟨⟨precision, haveDot, fmt2, args2⟩, precisionRead, read⟩ := bind_ok.mp read
  simp only [Except.ok.injEq, Prod.mk.injEq] at read
  obtain ⟨rfl, rfl, rfl⟩ := read
  have left2 : fmt2 ≠ [] := by
    rintro rfl
    exact some rfl
  have left1 : fmt1 ≠ [] := by
    rintro rfl
    exact left2 (List.length_eq_zero_iff.mp (Nat.le_zero.mp (readPrecision_length precisionRead)))
  have left : (readFlags fmt ⟨false, false, false, false, false, false⟩).2 ≠ [] := by
    intro nothing
    have short := readWidth_length widthRead
    rw [nothing] at short
    exact left1 (List.length_eq_zero_iff.mp (Nat.le_zero.mp short))
  rw [readFlags_append behind left]
  refine bind_ok.mpr ⟨_, readWidth_append behind further widthRead left1, ?_⟩
  refine bind_ok.mpr ⟨_, readPrecision_append behind further precisionRead left2, ?_⟩
  simp only [readLength_append behind some]

private theorem fetchNumber_append {isSigned negative : Bool} {length : Length} {number : UInt64}
    (read : fetchNumber isSigned length args = .ok (number, negative, args')) :
    fetchNumber isSigned length (args ++ further) = .ok (number, negative, args' ++ further) := by
  unfold fetchNumber at read ⊢
  obtain ⟨⟨word, left⟩, taken, read⟩ := bind_ok.mp read
  refine bind_ok.mpr ⟨(word, left ++ further), vaWord_append further taken, ?_⟩
  simp only at read ⊢
  cases isSigned with
  | true =>
    simp only [if_true, Except.ok.injEq, Prod.mk.injEq] at read ⊢
    exact ⟨read.1, read.2.1, congrArg (· ++ further) read.2.2⟩
  | false =>
    simp only [Bool.false_eq_true, if_false, Except.ok.injEq, Prod.mk.injEq] at read ⊢
    exact ⟨read.1, read.2.1, congrArg (· ++ further) read.2.2⟩

/-- A conversion takes its arguments from the front and, but for an invalid one, prints the
same; an invalid one prints its own bytes. -/
private theorem convert_append {c : UInt8} {start start' : List UInt8} {len : Nat} {commands : List Command}
    (same : start'.take len = start.take len) (read : convert spec c start len args = .ok (commands, args')) :
    ∃ commands', convert spec c start' len (args ++ further) = .ok (commands', args' ++ further) ∧
      commands'.flatMap Command.bytes = commands.flatMap Command.bytes := by
  unfold convert at read ⊢
  split at read
  next number =>
    rw [if_pos number]
    refine ⟨commands, ?_, rfl⟩
    unfold convertInteger at read ⊢
    obtain ⟨⟨value, negative, left⟩, fetched, read⟩ := bind_ok.mp read
    obtain ⟨numlen, measured, read⟩ := bind_ok.mp read
    cases read
    refine bind_ok.mpr ⟨_, fetchNumber_append further fetched, ?_⟩
    exact bind_ok.mpr ⟨_, measured, rfl⟩
  next other =>
    rw [if_neg other]
    split at read
    next char =>
      rw [if_pos char]
      obtain ⟨⟨value, left⟩, taken, read⟩ := bind_ok.mp read
      cases read
      exact ⟨_, bind_ok.mpr ⟨_, vaInt_append further taken, rfl⟩, rfl⟩
    next notChar =>
      rw [if_neg notChar]
      split at read
      next string =>
        rw [if_pos string]
        obtain ⟨⟨array, left⟩, taken, read⟩ := bind_ok.mp read
        obtain ⟨precision, measured, read⟩ := bind_ok.mp read
        cases read
        exact ⟨_, bind_ok.mpr ⟨_, vaString_append further taken, bind_ok.mpr ⟨_, measured, rfl⟩⟩, rfl⟩
      next notString =>
        rw [if_neg notString]
        split at read
        next count =>
          rw [if_pos count]
          obtain ⟨⟨address, left⟩, taken, read⟩ := bind_ok.mp read
          cases read
          exact ⟨_, bind_ok.mpr ⟨_, vaVariable_append further taken, rfl⟩, rfl⟩
        next invalid =>
          rw [if_neg invalid]
          cases read
          exact ⟨_, rfl, by simp [Command.bytes, same]⟩

private theorem conversion_append {commands : List Command} (read : conversion fmt args = (commands, .ok (rest, args'))) :
    ∃ commands', conversion (fmt ++ behind) (args ++ further) = (commands', .ok (rest ++ behind, args' ++ further)) ∧
      commands'.flatMap Command.bytes = commands.flatMap Command.bytes := by
  unfold conversion at read ⊢
  split at read
  next percent =>
    obtain ⟨fmt', rfl⟩ := List.head?_eq_some_iff.mp percent
    cases read
    exact ⟨[.puts ('%'.toUInt8 :: fmt' ++ behind ++ [0]) 1], by simp, by simp [Command.bytes]⟩
  next other =>
    simp only at read
    split at read
    next => cases read
    next => cases read
    next spec c rest' left parsed =>
      split at read
      next => cases read
      next commands' left' converted =>
        cases read
        have bound := readSpec_length parsed
        rw [List.length_cons] at bound
        have nonempty : fmt ≠ [] := by
          rintro rfl
          simp at bound
        have parsed' := readSpec_append behind further parsed (List.cons_ne_nil c rest)
        rw [if_neg (mt (head_append behind nonempty).mp other)]
        rw [List.cons_append] at parsed'
        simp only [parsed']
        have length : ('%'.toUInt8 :: (fmt ++ behind)).length - (rest ++ behind).length =
            ('%'.toUInt8 :: fmt).length - rest.length := by
          simp only [List.length_cons, List.length_append]
          omega
        have short : ('%'.toUInt8 :: fmt).length - rest.length ≤ ('%'.toUInt8 :: fmt).length := Nat.sub_le _ _
        have same : ('%'.toUInt8 :: (fmt ++ behind) ++ [0]).take (('%'.toUInt8 :: fmt).length - rest.length) =
            ('%'.toUInt8 :: fmt ++ [0]).take (('%'.toUInt8 :: fmt).length - rest.length) := by
          rw [← List.cons_append, List.append_assoc, List.take_append_of_le_length short,
            List.take_append_of_le_length short]
        obtain ⟨commands', converted', bytes⟩ := convert_append further same converted
        refine ⟨commands', ?_, bytes⟩
        rw [length, converted']

theorem Conforms.text_append {left : List Arg} (conforms : Conforms fmt args left) :
    text (fmt ++ behind) (args ++ further) = text fmt args ++ text behind (left ++ further) := by
  induction conforms with
  | done => simp [text, printed, script]
  | literal plain _ ih =>
    rw [List.cons_append, (text_literal plain _ _).1, (text_literal plain _ _).1, ih, List.cons_append]
  | conversion complete _ ih =>
    obtain ⟨commands', complete', bytes⟩ := conversion_append behind further complete
    rw [List.cons_append, (text_conversion complete').1, (text_conversion complete).1, ih, bytes, List.append_assoc]

end Behind

end Hotarubi.Lib.Vcbprintf
