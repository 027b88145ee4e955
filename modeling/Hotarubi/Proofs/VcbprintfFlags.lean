import Hotarubi.Proofs.VcbprintfScanner

/-! The order of the flags. The loop over them comes to the same flags for all texts of
the same characters, and nothing behind it looks at these again. -/

namespace Hotarubi.Lib.Vcbprintf

/-- The directive with other flags. -/
def Directive.flagged (d : Directive) (flags : List Flag) : Directive := { d with flags }

section Order

variable {flags flags' : List Flag} {fmt rest : List UInt8} {c : UInt8}

private theorem collected_congr (same : ∀ flag, flag ∈ flags ↔ flag ∈ flags') (start : Flags) :
    start.collected flags = start.collected flags' := by
  simp only [Flags.collected, same]

private theorem readSpec_flags (same : ∀ flag, flag ∈ flags ↔ flag ∈ flags') (fmt : List UInt8) (args : List Arg) :
    readSpec (flags.map (fun flag => flag.char.toUInt8) ++ fmt) args =
      readSpec (flags'.map (fun flag => flag.char.toUInt8) ++ fmt) args := by
  have apart : Flags.Apart ⟨false, false, false, false, false, false⟩ := fun _ => rfl
  unfold readSpec
  rw [readFlags_text flags fmt apart, readFlags_text flags' fmt apart, collected_congr same]

private theorem flags_head (flag : Flag) : flag.char.toUInt8 ≠ '%'.toUInt8 ∧ isFlag flag.char.toUInt8 = true := by
  cases flag <;> decide

private theorem behindSpec_flags (flags : List Flag) (fmt : List UInt8) :
    behindSpec (flags.map (fun flag => flag.char.toUInt8) ++ fmt) = behindSpec fmt := by
  induction flags with
  | nil => rfl
  | cons flag flags ih =>
    rw [← ih, behindSpec, List.map_cons, List.cons_append, List.dropWhile_cons_of_pos (flags_head flag).2]
    rfl

private theorem convert_start (member : c ∈ conversionHeads) (spec : Spec) (start start' : List UInt8) (len len' : Nat)
    (args : List Arg) : convert spec c start len args = convert spec c start' len' args := by
  have known : ∀ c ∈ conversionHeads, c ∈ ['p', 'd', 'i', 'o', 'u', 'x', 'X'].map Char.toUInt8 ∨ c = 'c'.toUInt8 ∨
      c = 's'.toUInt8 :=
    List.forall_iff_forall_mem.mp (by decide)
  unfold convert
  rcases known c member with number | rfl | rfl
  · rw [if_pos number, if_pos number]
  · rfl
  · rfl

/-- A conversion does not depend on the order of its flags, unless it is invalid and
printed as it is. -/
private theorem conversion_flags (same : ∀ flag, flag ∈ flags ↔ flag ∈ flags') (behind : behindSpec fmt = c :: rest)
    (member : c ∈ conversionHeads) (args : List Arg) :
    conversion (flags.map (fun flag => flag.char.toUInt8) ++ fmt) args =
      conversion (flags'.map (fun flag => flag.char.toUInt8) ++ fmt) args := by
  cases flags with
  | nil =>
    have none : flags' = [] := List.eq_nil_iff_forall_not_mem.mpr fun flag found => by simpa using (same flag).mpr found
    rw [none]
  | cons flag more =>
    cases flags' with
    | nil => simpa using (same flag).mp List.mem_cons_self
    | cons flag' more' =>
      have other (flag : Flag) (more : List Flag) :
          ((flag :: more).map (fun flag => flag.char.toUInt8) ++ fmt).head? ≠ some '%'.toUInt8 := by
        simpa using (flags_head flag).1
      unfold conversion
      rw [if_neg (other flag more), if_neg (other flag' more'), readSpec_flags same]
      cases parsed : readSpec ((flag' :: more').map (fun flag => flag.char.toUInt8) ++ fmt) args with
      | error fault => rfl
      | ok found =>
        obtain ⟨spec, next, left⟩ := found
        have split := readSpec_rest parsed
        rw [behindSpec_flags, behind] at split
        subst split
        simp only
        rw [convert_start member]

private theorem directive_behind (d : Directive) (member : c ∈ conversionHeads) (rest : List UInt8) :
    behindSpec (d.body ++ c :: rest) = c :: rest := by
  have read := readSpec_append rest [] (readSpec_eq d member (.word 0)) (List.cons_ne_nil c [])
  rw [List.append_assoc] at read
  exact (readSpec_rest read).symm

private theorem vcbprintf_congr {σ : Type} (cb : Callback σ) (p : σ) {fmt' : List UInt8} {args : List Arg}
    (same : printed fmt args = printed fmt' args) : vcbprintf cb p fmt args = vcbprintf cb p fmt' args := by
  unfold printed at same
  unfold vcbprintf
  rw [same]

end Order

/-- For every conversion of a number, a pointer, a character or a string: two texts of the
same flags lead to the same calls and the same result, with any width, precision, length
and arguments, and whatever follows. -/
theorem flag_order {σ : Type} (cb : Callback σ) (p : σ) (d : Directive) {flags : List Flag}
    (same : ∀ flag, flag ∈ flags ↔ flag ∈ d.flags) {c : Char} (member : c ∈ ['d', 'i', 'u', 'o', 'x', 'X', 'p', 'c', 's'])
    (rest : List UInt8) (args : List Arg) :
    vcbprintf cb p ((d.flagged flags).format c ++ rest) args = vcbprintf cb p (d.format c ++ rest) args := by
  have head : ∀ c ∈ ['d', 'i', 'u', 'o', 'x', 'X', 'p', 'c', 's'], c.toUInt8 ∈ conversionHeads :=
    List.forall_iff_forall_mem.mp (by decide)
  have body (d : Directive) : d.format c ++ rest = '%'.toUInt8 :: (d.flags.map (fun flag => flag.char.toUInt8) ++
      (d.width.text ++ (d.precision.text ++ (d.length.text ++ c.toUInt8 :: rest)))) := by
    simp [Directive.format, Directive.body]
  have behind := directive_behind d (head c member) rest
  rw [Directive.body, List.append_assoc, behindSpec_flags] at behind
  simp only [List.append_assoc] at behind
  apply vcbprintf_congr
  rw [body, body]
  apply printed_congr
  exact conversion_flags same behind (head c member) args

theorem flag_order_witness :
    let d : Directive := ⟨[.minus, .plus, .zero], .star 4294967291, .absent, .int⟩
    let args := d.args (.word 7)
    vcbprintf acceptAll () ((d.flagged [.zero, .plus, .minus, .zero]).format 'd' ++ []) args =
      vcbprintf acceptAll () (d.format 'd' ++ []) args := by
  intro d args
  have same : ∀ flag, flag ∈ [Flag.zero, .plus, .minus, .zero] ↔ flag ∈ d.flags := by
    intro flag
    cases flag <;> decide
  exact flag_order acceptAll () d same (by decide) [] args

end Hotarubi.Lib.Vcbprintf
