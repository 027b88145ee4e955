import Hotarubi.Proofs.VcbprintfDirective

/-! Where the scanner of formats goes. What it leaves behind a specification depends on
the format only; one that the end of the format cuts off takes it beyond that end. -/

namespace Hotarubi.Lib.Vcbprintf

section Grammar

def isFlag (c : UInt8) : Bool := decide (c ∈ ['\'', '-', '+', ' ', '#', '0'].map Char.toUInt8)

def isDigit (c : UInt8) : Bool := decide ('0'.toUInt8 ≤ c ∧ c ≤ '9'.toUInt8)

/-- A format without an asterisk in front. -/
def behindStar : List UInt8 → List UInt8
  | [] => []
  | c :: fmt => if c = '*'.toUInt8 then fmt else c :: fmt

/-- A format without a width in front: digits and an asterisk may follow each other. -/
def behindWidth (fmt : List UInt8) : List UInt8 := behindStar (fmt.dropWhile isDigit)

def behindPrecision : List UInt8 → List UInt8
  | [] => []
  | c :: fmt => if c = '.'.toUInt8 then behindWidth fmt else c :: fmt

def behindLength : List UInt8 → List UInt8
  | c :: d :: fmt =>
    if c = d ∧ c ∈ ['h', 'l'].map Char.toUInt8 then fmt
    else if c ∈ ['h', 'l', 'j', 'z', 't'].map Char.toUInt8 then d :: fmt else c :: d :: fmt
  | [c] => if c ∈ ['h', 'l', 'j', 'z', 't'].map Char.toUInt8 then [] else [c]
  | [] => []

/-- A format, from behind a percent sign on, without the specification in front of its
conversion character. -/
def behindSpec (fmt : List UInt8) : List UInt8 := behindLength (behindPrecision (behindWidth (fmt.dropWhile isFlag)))

/-- A format in which every specification has its conversion character. -/
inductive Complete : List UInt8 → Prop where
  | done : Complete []
  | text {c : UInt8} {fmt : List UInt8} (plain : c ≠ '%'.toUInt8) (later : Complete fmt) : Complete (c :: fmt)
  | percent {fmt : List UInt8} (later : Complete fmt) : Complete ('%'.toUInt8 :: '%'.toUInt8 :: fmt)
  | spec {c : UInt8} {fmt rest : List UInt8} (other : fmt.head? ≠ some '%'.toUInt8) (behind : behindSpec fmt = c :: rest)
    (later : Complete rest) : Complete ('%'.toUInt8 :: fmt)

/-- The main loop without a limit to its passes: what it comes to, where it ends. -/
inductive Scans : List UInt8 → List Arg → List Command × Except Fault Unit → Prop where
  | done {args : List Arg} : Scans [] args ([], .ok ())
  | text {fmt : List UInt8} {args : List Arg} {text : List Command} (some : fmt ≠ [])
    (front : literal fmt = (text, [])) : Scans fmt args (text, .ok ())
  | fault {fmt rest : List UInt8} {c : UInt8} {args : List Arg} {text commands : List Command} {fault : Fault}
    (some : fmt ≠ []) (front : literal fmt = (text, c :: rest))
    (read : conversion rest args = (commands, .error fault)) : Scans fmt args (text ++ commands, .error fault)
  | pass {fmt rest next : List UInt8} {c : UInt8} {args left : List Arg} {text commands later : List Command}
    {finish : Except Fault Unit} (some : fmt ≠ []) (front : literal fmt = (text, c :: rest))
    (read : conversion rest args = (commands, .ok (next, left))) (rest : Scans next left (later, finish)) :
    Scans fmt args (text ++ commands ++ later, finish)

/-- What is asked of the scanner: no read behind the end of the format, and an end. -/
structure ScansInside (fmt : List UInt8) : Prop where
  inside : ∀ (σ : Type) (cb : Callback σ) (p : σ) (args : List Arg), (vcbprintf cb p fmt args).1 ≠ .error .formatEnd
  ends : ∀ args, ∃ outcome, Scans fmt args outcome

end Grammar

section Reading

variable {fmt rest : List UInt8} {args args' : List Arg} {flags flags' : Flags} {spec : Spec}

private theorem readFlags_rest (fmt : List UInt8) (flags : Flags) : (readFlags fmt flags).2 = fmt.dropWhile isFlag := by
  fun_induction readFlags fmt flags
  case case1 => rfl
  case case8 flags c fmt separate minus plus space hash zero =>
    rw [List.dropWhile_cons_of_neg]
    simp [isFlag, separate, minus, plus, space, hash, zero]
  all_goals
    rw [List.dropWhile_cons_of_pos (by simp [isFlag])]
    assumption

private theorem readNumber_rest (n : Int) (fmt : List UInt8) : (readNumber n fmt).2 = fmt.dropWhile isDigit := by
  fun_induction readNumber n fmt with
  | case1 => rfl
  | case2 n c fmt digit ih => rw [ih, List.dropWhile_cons_of_pos (p := isDigit) (decide_eq_true digit)]
  | case3 n c fmt other => rw [List.dropWhile_cons_of_neg (by simpa [isDigit] using other)]

private theorem behindStar_eq (fmt : List UInt8) : behindStar fmt = if fmt.head? =
    some '*'.toUInt8 then fmt.tail else fmt := by
  cases fmt with
  | nil => rfl
  | cons c fmt => simp [behindStar]

private theorem behindPrecision_eq (fmt : List UInt8) :
    behindPrecision fmt = if fmt.head? = some '.'.toUInt8 then behindWidth fmt.tail else fmt := by
  cases fmt with
  | nil => rfl
  | cons c fmt => simp [behindPrecision]

private theorem readWidth_rest {width : Int} (read : readWidth flags fmt args = .ok (width, flags', rest, args')) :
    rest = behindWidth fmt := by
  rw [behindWidth, behindStar_eq, ← readNumber_rest 0]
  unfold readWidth at read
  simp only at read
  split at read
  next star =>
    rw [if_pos star]
    obtain ⟨⟨value, left⟩, _, read⟩ := bind_ok.mp read
    simp only at read
    split at read <;>
    · cases read
      rfl
  next other =>
    rw [if_neg other]
    cases read
    rfl

private theorem readPrecision_rest {precision : Int} {haveDot : Bool}
    (read : readPrecision fmt args = .ok (precision, haveDot, rest, args')) : rest = behindPrecision fmt := by
  rw [behindPrecision_eq, behindWidth, behindStar_eq, ← readNumber_rest 0]
  unfold readPrecision at read
  simp only at read
  split at read
  next dot =>
    rw [if_pos dot]
    split at read
    next star =>
      rw [if_pos star]
      obtain ⟨⟨value, left⟩, _, read⟩ := bind_ok.mp read
      cases read
      rfl
    next other =>
      rw [if_neg other]
      cases read
      rfl
  next other =>
    rw [if_neg other]
    cases read
    rfl

private theorem readLength_double {c : UInt8} (letter : c ∈ ['h', 'l'].map Char.toUInt8) (d : UInt8) (fmt : List UInt8) :
    (readLength (c :: d :: fmt)).2 = if c = d then fmt else d :: fmt := by
  simp only [List.map_cons, List.map_nil, List.mem_cons, List.not_mem_nil, or_false] at letter
  split
  next double =>
    subst double
    rcases letter with rfl | rfl <;> rfl
  next single =>
    have other : (c == d) = false := beq_eq_false_iff_ne.mpr single
    rcases letter with rfl | rfl
    all_goals
      simp only [readLength, lengthModifiers, List.find?, List.map, List.isPrefixOf, other, Bool.false_and, Bool.and_false]
      rfl

private theorem readLength_rest (fmt : List UInt8) : (readLength fmt).2 = behindLength fmt := by
  rcases fmt with _ | ⟨c, _ | ⟨d, fmt⟩⟩
  · rfl
  · by_cases letter : c ∈ ['h', 'l', 'j', 'z', 't'].map Char.toUInt8
    · rw [behindLength, if_pos letter]
      simp only [List.map_cons, List.map_nil, List.mem_cons, List.not_mem_nil, or_false] at letter
      rcases letter with rfl | rfl | rfl | rfl | rfl <;> rfl
    · rw [readLength_other letter, behindLength, if_neg letter]
  · by_cases letter : c ∈ ['h', 'l', 'j', 'z', 't'].map Char.toUInt8
    · simp only [behindLength, if_pos letter]
      by_cases pair : c ∈ ['h', 'l'].map Char.toUInt8
      · simp only [readLength_double pair, pair, and_true]
      · rw [if_neg fun both => pair both.2]
        simp only [List.map_cons, List.map_nil, List.mem_cons, List.not_mem_nil, or_false, not_or] at letter pair
        obtain ⟨h, l⟩ := pair
        rcases letter with rfl | rfl | rfl | rfl | rfl
        · exact absurd rfl h
        · exact absurd rfl l
        all_goals rfl
    · have single : ¬(c = d ∧ c ∈ ['h', 'l'].map Char.toUInt8) := by
        intro double
        exact letter (List.mem_of_mem_take (i := 2) double.2)
      rw [readLength_other letter, behindLength, if_neg single, if_neg letter]

/-- What is left behind a specification. -/
theorem readSpec_rest (read : readSpec fmt args = .ok (spec, rest, args')) : rest = behindSpec fmt := by
  obtain ⟨⟨width, flags, fmt1, args1⟩, widthRead, read⟩ := bind_ok.mp read
  obtain ⟨⟨precision, haveDot, fmt2, args2⟩, precisionRead, read⟩ := bind_ok.mp read
  simp only [Except.ok.injEq, Prod.mk.injEq] at read
  obtain ⟨_, rfl, _⟩ := read
  rw [behindSpec, readLength_rest, readPrecision_rest precisionRead, readWidth_rest widthRead, readFlags_rest]

end Reading

section Faults

variable {fmt rest : List UInt8} {args args' : List Arg} {spec : Spec}

private theorem bind_error {α β : Type} {x : Except Fault α} {f : α → Except Fault β} {fault : Fault} :
    (x >>= f) = .error fault ↔ x = .error fault ∨ ∃ a, x = .ok a ∧ f a = .error fault := by
  cases x <;> simp [bind, Except.bind]

private theorem vaWord_fault {fault : Fault} (read : vaWord args = .error fault) : fault = .argument := by
  unfold vaWord at read
  split at read <;> cases read
  rfl

private theorem vaInt_fault {fault : Fault} (read : vaInt args = .error fault) : fault = .argument := by
  rcases bind_error.mp read with early | ⟨⟨value, left⟩, _, late⟩
  · exact vaWord_fault early
  · cases late

private theorem readWidth_fault {flags : Flags} {fault : Fault} (read : readWidth flags fmt args = .error fault) :
    fault = .argument := by
  unfold readWidth at read
  simp only at read
  split at read
  next star =>
    rcases bind_error.mp read with early | ⟨⟨value, left⟩, _, late⟩
    · exact vaInt_fault early
    · simp only at late
      split at late <;> cases late
  next other => cases read

private theorem readPrecision_fault {fault : Fault} (read : readPrecision fmt args = .error fault) : fault = .argument := by
  unfold readPrecision at read
  simp only at read
  split at read
  next dot =>
    split at read
    next star =>
      rcases bind_error.mp read with early | ⟨⟨value, left⟩, _, late⟩
      · exact vaInt_fault early
      · cases late
    next digits => cases read
  next other => cases read

private theorem readSpec_fault {fault : Fault} (read : readSpec fmt args = .error fault) : fault = .argument := by
  rcases bind_error.mp read with early | ⟨⟨value, flags, fmt1, args1⟩, _, read⟩
  · exact readWidth_fault early
  rcases bind_error.mp read with early | ⟨⟨value, dot, fmt2, args2⟩, _, read⟩
  · exact readPrecision_fault early
  · cases read

private theorem strlen_fault {array : List UInt8} {fault : Fault} (failed : strlen array = .error fault) : fault =
    .stringEnd := by
  rw [strlen_takeWhile] at failed
  split at failed <;> cases failed
  rfl

private theorem fetchNumber_fault {isSigned : Bool} {length : Length} {fault : Fault}
    (failed : fetchNumber isSigned length args = .error fault) : fault = .argument := by
  rcases bind_error.mp failed with early | ⟨⟨value, left⟩, _, late⟩
  · exact vaWord_fault early
  · simp only at late
    split at late <;> cases late

private theorem stringLength_fault {array : Option (List UInt8)} {fault : Fault}
    (failed : stringLength array = .error fault) :
    fault = .stringEnd := by
  cases array with
  | none => cases failed
  | some array =>
    rw [stringLength] at failed
    cases measured : strlen array with
    | ok length =>
      rw [measured] at failed
      cases failed
    | error other =>
      rw [measured] at failed
      cases failed
      exact strlen_fault measured

private theorem stringPrecision_fault {array : Option (List UInt8)} {fault : Fault}
    (failed : stringPrecision spec array = .error fault) : fault = .stringEnd := by
  unfold stringPrecision at failed
  split at failed
  next =>
    split at failed
    next => cases failed
    next => exact stringLength_fault failed
  next =>
    cases measured : stringLength array with
    | ok length =>
      rw [measured] at failed
      cases failed
    | error other =>
      rw [measured] at failed
      cases failed
      exact stringLength_fault measured

private theorem convertInteger_fault {c : UInt8} {fault : Fault} (failed : convertInteger spec c args = .error fault) :
    fault = .argument ∨ fault = .stringEnd := by
  unfold convertInteger at failed
  rcases bind_error.mp failed with early | ⟨⟨number, negative, left⟩, _, failed⟩
  · exact .inl (fetchNumber_fault early)
  rcases bind_error.mp failed with early | ⟨numlen, _, late⟩
  · exact .inr (strlen_fault early)
  · cases late

private theorem convertString_fault {fault : Fault} (failed : convertString spec args = .error fault) :
    fault = .argument ∨ fault = .stringEnd := by
  rcases bind_error.mp failed with early | ⟨⟨array, left⟩, _, failed⟩
  · unfold vaString at early
    split at early <;> cases early
    exact .inl rfl
  rcases bind_error.mp failed with early | ⟨precision, _, late⟩
  · exact .inr (stringPrecision_fault early)
  · cases late

private theorem convert_fault {c : UInt8} {start : List UInt8} {len : Nat} {fault : Fault}
    (failed : convert spec c start len args = .error fault) : fault = .argument ∨ fault = .stringEnd := by
  unfold convert at failed
  split at failed
  next number => exact convertInteger_fault failed
  next other =>
    split at failed
    next char =>
      rcases bind_error.mp failed with early | ⟨⟨value, left⟩, _, late⟩
      · exact .inl (vaInt_fault early)
      · cases late
    next other =>
      split at failed
      next string => exact convertString_fault failed
      next other =>
        split at failed
        next count =>
          rcases bind_error.mp failed with early | ⟨⟨address, left⟩, _, late⟩
          · unfold vaVariable at early
            split at early <;> cases early
            exact .inl rfl
          · cases late
        next invalid => cases failed

/-- A conversion goes beyond the end of the format only where nothing is behind its
specification. -/
private theorem conversion_inside {commands : List Command} {c : UInt8}
    (behind : behindSpec fmt = c :: rest) {fault : Fault}
    (read : conversion fmt args = (commands, .error fault)) : fault ≠ .formatEnd := by
  unfold conversion at read
  split at read
  next => cases read
  next =>
    simp only at read
    split at read
    next failed =>
      cases read
      rw [readSpec_fault failed]
      decide
    next parsed =>
      rw [← readSpec_rest parsed] at behind
      cases behind
    next =>
      split at read
      next failed =>
        cases read
        rcases convert_fault failed with rfl | rfl <;> nofun
      next => cases read

private theorem conversion_behind {commands : List Command} {c : UInt8} {next : List UInt8}
    (other : fmt.head? ≠ some '%'.toUInt8)
    (behind : behindSpec fmt = c :: rest) (read : conversion fmt args = (commands, .ok (next, args'))) : next = rest := by
  unfold conversion at read
  rw [if_neg other] at read
  simp only at read
  split at read
  next => cases read
  next => cases read
  next parsed =>
    rw [← readSpec_rest parsed] at behind
    obtain ⟨_, rfl⟩ := List.cons.inj behind
    split at read <;> cases read
    rfl

end Faults

section Arguments

private theorem readWidth_suited (flags : Flags) (fmt : List UInt8) : ∃ suited width flags', ∀ more,
    readWidth flags fmt (suited ++ more) = .ok (width, flags', behindWidth fmt, more) := by
  rw [behindWidth, behindStar_eq, ← readNumber_rest 0]
  unfold readWidth
  by_cases star : (readNumber 0 fmt).2.head? = some '*'.toUInt8
  · have positive : ¬toInt (0 : UInt64).toNat < 0 := by decide
    refine ⟨[.word 0], toInt (0 : UInt64).toNat, flags, fun more => ?_⟩
    simp only [if_pos star]
    refine bind_ok.mpr ⟨_, vaInt_word 0 more, ?_⟩
    simp only [if_neg positive]
  · refine ⟨[], (readNumber 0 fmt).1, flags, fun more => ?_⟩
    simp only [if_neg star, List.nil_append]

private theorem readPrecision_suited (fmt : List UInt8) : ∃ suited precision haveDot, ∀ more,
    readPrecision fmt (suited ++ more) = .ok (precision, haveDot, behindPrecision fmt, more) := by
  rw [behindPrecision_eq, behindWidth, behindStar_eq, ← readNumber_rest 0]
  unfold readPrecision
  by_cases dot : fmt.head? = some '.'.toUInt8
  · by_cases star : (readNumber 0 fmt.tail).2.head? = some '*'.toUInt8
    · refine ⟨[.word 0], if toInt (0 : UInt64).toNat < 0 then 0 else toInt (0 : UInt64).toNat, true, fun more => ?_⟩
      simp only [if_pos dot, if_pos star]
      exact bind_ok.mpr ⟨_, vaInt_word 0 more, rfl⟩
    · refine ⟨[], (readNumber 0 fmt.tail).1, true, fun more => ?_⟩
      simp only [if_pos dot, if_neg star, List.nil_append]
  · refine ⟨[], 0, false, fun more => ?_⟩
    simp only [if_neg dot, List.nil_append]

private theorem readSpec_suited (fmt : List UInt8) : ∃ suited spec, ∀ more,
    readSpec fmt (suited ++ more) = .ok (spec, behindSpec fmt, more) := by
  obtain ⟨first, width, flags, widthRead⟩ :=
    readWidth_suited (readFlags fmt ⟨false, false, false, false, false, false⟩).1 (fmt.dropWhile isFlag)
  obtain ⟨second, precision, haveDot, precisionRead⟩ := readPrecision_suited (behindWidth (fmt.dropWhile isFlag))
  let precise := haveDot && decide (0 < precision)
  let behind := readLength (behindPrecision (behindWidth (fmt.dropWhile isFlag)))
  refine ⟨first ++ second, ⟨{ flags with fillWithZero := if precise then false else flags.fillWithZero }, width, precision,
    haveDot, precise, behind.1⟩, fun more => ?_⟩
  unfold readSpec
  simp only [readFlags_rest, List.append_assoc]
  refine bind_ok.mpr ⟨_, widthRead (second ++ more), bind_ok.mpr ⟨_, precisionRead more, ?_⟩⟩
  simp only [readLength_rest]
  rfl

private theorem fetchNumber_suited (isSigned : Bool) (length : Length) : ∃ number negative, ∀ more,
    fetchNumber isSigned length (.word 0 :: more) = .ok (number, negative, more) := by
  unfold fetchNumber
  cases isSigned
  all_goals
    exact ⟨_, _, fun more => bind_ok.mpr ⟨(0, more), rfl, rfl⟩⟩

private theorem convertInteger_suited (spec : Spec) (c : UInt8) : ∃ commands, ∀ more,
    convertInteger spec c (.word 0 :: more) = .ok (commands, more) := by
  have bounds : ∀ octal hex : Prop, [Decidable octal] → [Decidable hex] →
      1 < (if octal then 8 else if hex then 16 else 10) ∧ (if octal then 8 else if hex then 16 else 10) ≤ 16 := by
    intro octal hex _ _
    split_ifs <;> decide
  unfold convertInteger
  extract_lets flags spec base isSigned
  obtain ⟨number, negative, fetched⟩ := fetchNumber_suited isSigned spec.length
  obtain ⟨order, limit⟩ := bounds (c = 'o'.toUInt8) (c = 'X'.toUInt8 ∨ c = 'x'.toUInt8 ∨ c = 'p'.toUInt8)
  obtain ⟨behind, buffer⟩ := convertNumber_eq (decide (c = 'X'.toUInt8)) order limit number
  have measured := strlen_eq (numeral_plain (decide (c = 'X'.toUInt8)) order limit number.toNat) behind
  rw [← buffer] at measured
  exact ⟨_, fun more => bind_ok.mpr ⟨_, fetched more, bind_ok.mpr ⟨_, measured, rfl⟩⟩⟩

private theorem convert_suited (spec : Spec) (c : UInt8) (start : List UInt8) (len : Nat) : ∃ suited commands, ∀ more,
    convert spec c start len (suited ++ more) = .ok (commands, more) := by
  unfold convert
  by_cases number : c ∈ ['p', 'd', 'i', 'o', 'u', 'x', 'X'].map Char.toUInt8
  · obtain ⟨commands, converted⟩ := convertInteger_suited spec c
    exact ⟨[.word 0], commands, fun more => (if_pos number).trans (converted more)⟩
  simp only [if_neg number]
  by_cases char : c = 'c'.toUInt8
  · simp only [if_pos char]
    exact ⟨[.word 0], _, fun more => bind_ok.mpr ⟨_, vaInt_word 0 more, rfl⟩⟩
  simp only [if_neg char]
  by_cases string : c = 's'.toUInt8
  · have precise : stringPrecision spec none = .ok (if spec.havePrecision && decide
      (spec.precision < 0) then spec.precision else 0) := by
      unfold stringPrecision
      cases spec.havePrecision <;> cases spec.haveDot <;> simp [stringLength, Except.map]
    simp only [if_pos string]
    exact ⟨[.string none], _, fun more => bind_ok.mpr ⟨(none, more), rfl, bind_ok.mpr ⟨_, precise, rfl⟩⟩⟩
  simp only [if_neg string]
  by_cases count : c = 'n'.toUInt8
  · simp only [if_pos count]
    exact ⟨[.variable 0], _, fun more => bind_ok.mpr ⟨(0, more), rfl, rfl⟩⟩
  · simp only [if_neg count]
    exact ⟨[], _, fun more => rfl⟩

private theorem conversion_suited {c : UInt8} (other : fmt.head? ≠ some '%'.toUInt8) (behind : behindSpec fmt = c :: rest) :
    ∃ suited commands, ∀ more, conversion fmt (suited ++ more) = (commands, .ok (rest, more)) := by
  obtain ⟨first, spec, parsed⟩ := readSpec_suited fmt
  obtain ⟨second, commands, converted⟩ :=
    convert_suited spec c ('%'.toUInt8 :: fmt ++ [0]) (('%'.toUInt8 :: fmt).length - rest.length)
  refine ⟨first ++ second, commands, fun more => ?_⟩
  unfold conversion
  rw [if_neg other, List.append_assoc]
  simp only [parsed, behind, converted]

private theorem conversion_overrun (other : fmt.head? ≠ some '%'.toUInt8) (behind : behindSpec fmt = []) :
    ∃ args commands, conversion fmt args = (commands, .error .formatEnd) := by
  obtain ⟨suited, spec, parsed⟩ := readSpec_suited fmt
  have read := parsed []
  rw [behind] at read
  refine ⟨suited ++ [], [.puts ('%'.toUInt8 :: fmt ++ [0]) (('%'.toUInt8 :: fmt).length + 1)], ?_⟩
  unfold conversion
  rw [if_neg other]
  simp only [read]

end Arguments

section Runs

variable {fmt : List UInt8}

private theorem conversion_percent (fmt : List UInt8) (args : List Arg) : ∃ commands,
    conversion ('%'.toUInt8 :: fmt) args = (commands, .ok (fmt, args)) := by
  refine ⟨[.puts ('%'.toUInt8 :: fmt ++ [0]) 1], ?_⟩
  rw [conversion, List.head?_cons, if_pos rfl, List.tail_cons]

private theorem script_scans {limit : Nat} {args : List Arg} (enough : fmt.length ≤ limit) :
    Scans fmt args (script limit fmt args) := by
  induction limit generalizing fmt args with
  | zero =>
    obtain rfl := List.length_eq_zero_iff.mp (Nat.le_zero.mp enough)
    exact .done
  | succ limit ih =>
    rw [script]
    by_cases empty : fmt = []
    · rw [if_pos empty, empty]
      exact .done
    · rw [if_neg empty]
      have shorter := literal_length fmt
      cases front : literal fmt with
      | mk text rest =>
        rw [front] at shorter
        simp only
        cases rest with
        | nil => exact .text empty front
        | cons c rest =>
          rw [if_neg (List.cons_ne_nil c rest), List.tail_cons]
          rw [List.length_cons] at shorter
          cases read : conversion rest args with
          | mk commands next =>
            simp only
            cases next with
            | error fault => exact .fault empty front read
            | ok next =>
              have less := conversion_length read
              exact .pass empty front read (ih (by omega))

private theorem complete_inside (complete : Complete fmt) (args : List Arg) : (printed fmt args).2 ≠ .error .formatEnd := by
  induction complete generalizing args with
  | done => nofun
  | text plain later ih =>
    rw [(text_literal plain _ args).2]
    exact ih args
  | @percent fmt later ih =>
    obtain ⟨commands, read⟩ := conversion_percent fmt args
    rw [(text_conversion read).2]
    exact ih args
  | @spec c fmt rest other behind later ih =>
    cases read : conversion fmt args with
    | mk commands next =>
      cases next with
      | error fault =>
        rw [printed_fault read]
        intro same
        cases same
        exact conversion_inside behind read rfl
      | ok next =>
        obtain ⟨left, args'⟩ := next
        obtain rfl := conversion_behind other behind read
        rw [(text_conversion read).2]
        exact ih args'

private theorem complete_or_overrun (fmt : List UInt8) : Complete fmt ∨ ∃ args, (printed fmt args).2 =
    .error .formatEnd := by
  induction size : fmt.length using Nat.strongRecOn generalizing fmt with
  | ind n ih =>
    subst size
    rcases fmt with _ | ⟨c, fmt⟩
    · exact .inl .done
    have shorter : fmt.length < (c :: fmt).length := Nat.lt_succ_self _
    by_cases plain : c ≠ '%'.toUInt8
    · rcases ih _ shorter fmt rfl with complete | ⟨args, overrun⟩
      · exact .inl (.text plain complete)
      · exact .inr ⟨args, (text_literal plain fmt args).2.trans overrun⟩
    obtain rfl := not_not.mp plain
    by_cases percent : fmt.head? = some '%'.toUInt8
    · obtain ⟨rest, rfl⟩ := List.head?_eq_some_iff.mp percent
      have less : rest.length < ('%'.toUInt8 :: '%'.toUInt8 :: rest).length := Nat.lt_of_succ_lt shorter
      rcases ih _ less rest rfl with complete | ⟨args, overrun⟩
      · exact .inl (.percent complete)
      · obtain ⟨commands, read⟩ := conversion_percent rest args
        exact .inr ⟨args, (text_conversion read).2.trans overrun⟩
    cases behind : behindSpec fmt with
    | nil =>
      obtain ⟨args, commands, read⟩ := conversion_overrun percent behind
      exact .inr ⟨args, printed_fault read⟩
    | cons c rest =>
      obtain ⟨suited, commands, read⟩ := conversion_suited percent behind
      have less : rest.length < ('%'.toUInt8 :: fmt).length := Nat.lt_succ_of_le (conversion_length (read []))
      rcases ih _ less rest rfl with complete | ⟨args, overrun⟩
      · exact .inl (.spec percent behind complete)
      · exact .inr ⟨suited ++ args, (text_conversion (read args)).2.trans overrun⟩

end Runs

/-- For every format: whatever the callback and the arguments are, nothing behind its end
is read and the scanner comes to an end, if and only if every specification has its
conversion character. -/
theorem scans_inside_iff (fmt : List UInt8) : ScansInside fmt ↔ Complete fmt := by
  constructor
  · intro scans
    rcases complete_or_overrun fmt with complete | ⟨args, overrun⟩
    · exact complete
    · have accepting : Accepting acceptAll := fun _ _ _ => rfl
      obtain ⟨rc, result⟩ := accepted_result accepting () fmt args
      rw [overrun] at result
      exact absurd result (scans.inside Unit acceptAll () args)
  · intro complete
    refine ⟨fun σ cb p args overrun => ?_, fun args => ⟨_, script_scans (Nat.le_refl fmt.length)⟩⟩
    exact complete_inside complete args (vcbprintf_fault overrun)

theorem lone_percent_overrun : ¬ScansInside ['%'.toUInt8] := by
  intro scans
  exact scans.inside Unit acceptAll () [] (by decide)

end Hotarubi.Lib.Vcbprintf
