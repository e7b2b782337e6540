import HotkeyScript.Proofs.Number.Checked
import HotkeyScript.Proofs.Session.Expression
import HotkeyScript.Proofs.Token.Literal
/-!
# Numbers — integers as they are shown and read back

What is shown of an integer is a sign where it is negative, and a literal of its magnitude
(`Radix.toList_render`). The literal is read as the magnitude where that is a word
(`Radix.read?_literal`), and the sign takes it to the opposite. So running what is shown of
an integer comes to the integer, of the same kind.

There is one word whose magnitude is no word. What is shown of the least integer is refused
for a literal that is out of range (`Session.reads_back_integers`).
-/

namespace HotkeyScript

namespace Radix

/-- The kind of a literal's token. -/
def kind : Radix → TokenKind
  | decimal => .decimal
  | hexadecimal => .hexadecimal

/-- The form that a literal is read in. -/
def form : Radix → Form
  | decimal => .decimal
  | hexadecimal => .hexadecimal

/-- The literal of a natural number. -/
def literal : Radix → Nat → List Char
  | decimal, m => Nat.toDigits 10 m
  | hexadecimal, m => '0' :: 'x' :: Nat.toDigits 16 m

/-! ## Literals -/

theorem numberText_literal (radix : Radix) (m : Nat) : NumberText radix.kind (radix.literal m) := by
  cases radix with
  | decimal =>
    have hnatural : Decimal.natural? 10 (Nat.toDigits 10 m) = some m :=
      Decimal.natural?_toDigits (by decide) (by decide) m
    exact .decimal (Decimal.runOf_isDigit hnatural)
  | hexadecimal =>
    have hnatural : Decimal.natural? 16 (Nat.toDigits 16 m) = some m :=
      Decimal.natural?_toDigits (by decide) (by decide) m
    exact .hexadecimal (Decimal.runOf_isHexDigit hnatural)

/-- Digits without a sign are read as an integer. -/
theorem integer?_toDigits {base : Nat} (hone : 1 < base) (hbase : base ≤ 16) (m : Nat) :
    Decimal.integer? base (Nat.toDigits base m) = some (m : Int) := by
  have hnatural := Decimal.natural?_toDigits hone hbase m
  have hdigits := Decimal.runOf_isHexDigit hnatural
  obtain ⟨c, cs, hcs⟩ := List.exists_cons_of_ne_nil hdigits.1
  rw [hcs] at hnatural hdigits ⊢
  have hc : Text.isHexDigit c = true := (Bool.and_eq_true_iff.1 hdigits.2).1
  rw [Decimal.integer?_cons (Scan.ne_of_class rfl hc) (Scan.ne_of_class rfl hc), hnatural]
  rfl

/-- **A literal is read as its number**, where that is a word. -/
theorem read?_literal (radix : Radix) (m : Nat) :
    Number.read? radix.form (radix.literal m) = (word? m).map radix.number := by
  cases radix with
  | decimal => exact congrArg (Option.bind · _) (integer?_toDigits (by decide) (by decide) m)
  | hexadecimal => exact congrArg (Option.bind · _) (integer?_toDigits (by decide) (by decide) m)

/-! ## What is shown -/

/-- **What is shown of an integer** is its sign and the literal of its magnitude. -/
theorem toList_render (radix : Radix) (n : Int64) : (radix.number n).render.toList =
    (if n.toInt < 0 then ['-'] else []) ++ radix.literal n.toInt.natAbs := by
  cases radix with
  | decimal =>
    change (toString n.toInt).toList = _
    have hnat (m : Nat) : (toString m).toList = Nat.toDigits 10 m := by
      rw [Nat.toString_eq_ofList_toDigits, String.toList_ofList]
    cases n.toInt with
    | ofNat m =>
      have hnonneg : ¬ Int.ofNat m < 0 := Int.not_lt.2 (Int.natCast_nonneg m)
      rw [if_neg hnonneg]
      exact hnat m
    | negSucc m =>
      change ("-" ++ toString (m + 1)).toList = _
      rw [if_pos (Int.negSucc_lt_zero m), String.toList_append, hnat]
      rfl
  | hexadecimal =>
    change (if n.toInt < 0 then "-0x" ++ String.ofList (Nat.toDigits 16 n.toInt.natAbs)
      else "0x" ++ String.ofList (Nat.toDigits 16 n.toInt.natAbs)).toList = _
    have hdigits : (String.ofList (Nat.toDigits 16 n.toInt.natAbs)).toList =
        Nat.toDigits 16 n.toInt.natAbs := String.toList_ofList
    split
    · rw [String.toList_append, hdigits]
      rfl
    · rw [String.toList_append, hdigits]
      rfl

/-! ## Magnitudes -/

/-- A magnitude that is a word is taken to the integer by the sign. -/
theorem signed_number {n w : Int64} (radix : Radix) (h : n.toInt = -w.toInt) :
    (Value.number (radix.number w)).signed .minus = .ok (.number (radix.number n)) := by
  have hchecked : checked (-w.toInt) = .ok n := checked_eq_iff.2 (.inl ⟨n, h, rfl⟩)
  cases radix with
  | decimal =>
    change Value.number <$> (Number.decimal <$> checked (-w.toInt)) = _
    rw [hchecked]
    rfl
  | hexadecimal =>
    change Value.number <$> (Number.hexadecimal <$> checked (-w.toInt)) = _
    rw [hchecked]
    rfl

/-- **The magnitude of a word is a word**, but for that of the least. -/
theorem exists_word?_natAbs {n : Int64} (hn : n ≠ Int64.minValue) :
    ∃ w : Int64, word? n.toInt.natAbs = some w ∧ w.toInt = n.toInt.natAbs := by
  have hfits := fits_toInt n
  have hne : n.toInt ≠ Int64.minValue.toInt := fun h => hn (Int64.toInt_inj.1 h)
  have hmin : Int64.minValue.toInt = -9223372036854775808 := rfl
  have hmax : Int64.maxValue.toInt = 9223372036854775807 := rfl
  cases hw : word? n.toInt.natAbs with
  | some w => exact ⟨w, rfl, word?_eq_some_iff.1 hw⟩
  | none =>
    have hout := word?_eq_none_iff.1 hw
    unfold Fits at hfits
    omega

theorem word?_natAbs_minValue : word? Int64.minValue.toInt.natAbs = none := by decide

end Radix

/-! ## Numbers and signed numbers as expressions -/

namespace Rule

variable {nested deeper : Rule Expr} {t : Token} {f : Failure}
  {literal : NumberLiteral} {op : UnaryOp} {n : Nat} {sign : Token}

/-- An operand has signs in front of it, or is an atom. -/
theorem operand_succ (n : Nat) : operand (n + 1) = signed (operand n) (expression n) := by
  rw [operand]

/-- A number has no sign in its token. -/
theorem ofKind?_of_isNumber (ht : t.kind.isNumber = true) : UnaryOp.ofKind? t.kind = none := by
  rcases TokenKind.number_cases ht with hk | hk | hk <;> rw [hk] <;> rfl

theorem gives_number (ht : t.kind.isNumber = true) (h : t.number? = .ok literal)
    (ts : List Token) : Gives (signed deeper nested (t :: ts)) (.number literal) ts := by
  refine ⟨Nat.lt_succ_self _, ?_⟩
  rw [signed_of_none (ofKind?_of_isNumber ht), atom_eq_number ht, h]
  rfl

theorem signed_of_number?_error (ht : t.kind.isNumber = true) (h : t.number? = .error f)
    (ts : List Token) : signed deeper nested (t :: ts) = .error f := by
  rw [signed_of_none (ofKind?_of_isNumber ht), atom_eq_number ht, h]
  rfl

/-- Behind a sign, a number is read one level down. -/
theorem gives_signed_number (hsign : UnaryOp.ofKind? sign.kind = some op)
    (ht : t.kind.isNumber = true) (h : t.number? = .ok literal) (ts : List Token) :
    Gives (signed (operand (n + 1)) nested (sign :: t :: ts))
      (.unary op (.number literal) (sign.span.merge literal.span)) ts := by
  have hnumber : Gives (operand (n + 1) (t :: ts)) (.number literal) ts := by
    rw [operand_succ]
    exact gives_number ht h ts
  obtain ⟨hlt, hnumber⟩ := hnumber
  refine ⟨Nat.lt_succ_of_lt hlt, ?_⟩
  rw [signed_eq_map hsign, hnumber]
  rfl

theorem signed_number_of_error (hsign : UnaryOp.ofKind? sign.kind = some op)
    (ht : t.kind.isNumber = true) (h : t.number? = .error f) (ts : List Token) :
    signed (operand (n + 1)) nested (sign :: t :: ts) = .error f := by
  rw [signed_eq_map hsign, operand_succ, signed_of_number?_error ht h]
  rfl

end Rule

theorem Expr.eval_number (call : Caller) (literal : NumberLiteral) (m : Machine) :
    (Expr.number literal).eval call m = .ok (.number literal.value) m := by
  rw [eval]
  rfl

theorem Expr.eval_signed {call : Caller} {sign : Sign} {operand : Expr} {u v : Value}
    {m : Machine} (h : operand.eval call m = .ok u m) (hv : u.signed sign = .ok v) (span : Span) :
    (Expr.unary (.sign sign) operand span).eval call m = .ok v m := by
  rw [eval]
  refine (Run.bind_of_ok h).trans ?_
  change Machine.orFail span (u.signed sign) m = _
  rw [hv]
  rfl

/-! ## Literals as scripts -/

namespace Radix

variable {radix : Radix} {m : Nat} {w : Int64} {p : Position}

/-- The literal of a natural number as a mark. -/
def mark (radix : Radix) (m : Nat) : Mark := NumberText.mark radix.kind (radix.literal m)

/-- A sign as a mark. -/
def minusMark : Mark := ⟨.plain .minus ['-'], []⟩

theorem isNumber_kind (radix : Radix) : radix.kind.isNumber = true := by
  cases radix <;> rfl

theorem form?_kind (radix : Radix) : radix.kind.form? = some radix.form := by
  cases radix <;> rfl

theorem scanned_mark (radix : Radix) (m : Nat) : Mark.Scanned [] [radix.mark m] :=
  ⟨rfl, (radix.numberText_literal m).readBefore (.nil _), trivial⟩

theorem scanned_minusMark (radix : Radix) (m : Nat) :
    Mark.Scanned [] [minusMark, radix.mark m] :=
  ⟨rfl, Wording.readBefore_punctuation rfl (by decide) _, scanned_mark radix m⟩

/-- The token of a literal is read as its number. -/
theorem read?_token (radix : Radix) (m : Nat) (p : Position) :
    Number.read? radix.form ((radix.mark m).token p).lexeme.toList =
      (word? m).map radix.number := by
  rw [← read?_literal]
  exact congrArg _ String.toList_ofList

theorem number?_token (h : word? m = some w) : ((radix.mark m).token p).number? =
    .ok ⟨radix.number w, ((radix.mark m).token p).span⟩ :=
  Token.number?_of_read? radix.form?_kind (by rw [read?_token, h]; rfl)

theorem number?_token_error (h : word? m = none) : ((radix.mark m).token p).number? =
    .error ⟨.numberRange (String.ofList (radix.literal m)), some ((radix.mark m).token p)⟩ :=
  Token.number?_of_unread radix.form?_kind (by rw [read?_token, h]; rfl)

end Radix

namespace Session

variable {s : Session} {radix : Radix} {m : Nat} {w : Int64} {v : Value}

open Radix

/-- **The literal of a number is the script of it**, where the number is a word. -/
theorem evaluates_literal (h : word? m = some w) :
    s.Evaluates (String.ofList (radix.literal m)) (.number (radix.number w)) := by
  have htext : Mark.textOf [radix.mark m] = radix.literal m := List.append_nil _
  have hprogram := Mark.program_of_operand (scanned_mark radix m) rfl
    (by cases radix <;> rfl) (Rule.gives_number radix.isNumber_kind (number?_token h) []) s.name
  rw [htext] at hprogram
  exact evaluates_of_program hprogram fun call machine => Expr.eval_number call _ machine

/-- **A minus in front of a literal** takes its number to the opposite. -/
theorem evaluates_minus_literal (h : word? m = some w)
    (hminus : (Value.number (radix.number w)).signed .minus = .ok v) :
    s.Evaluates (String.ofList ('-' :: radix.literal m)) v := by
  have htext : Mark.textOf [minusMark, radix.mark m] = '-' :: radix.literal m :=
    congrArg ('-' :: ·) (List.append_nil _)
  have hprogram := Mark.program_of_operand (scanned_minusMark radix m) rfl rfl
    (Rule.gives_signed_number rfl radix.isNumber_kind (number?_token h) []) s.name
  rw [htext] at hprogram
  exact evaluates_of_program hprogram fun call machine =>
    Expr.eval_signed (Expr.eval_number call _ machine) hminus _

/-- A literal that is no word is out of range. -/
theorem refuses_minus_literal (h : word? m = none) :
    let text := String.ofList ('-' :: radix.literal m)
    let source : Source := ⟨s.name, text⟩
    let span : Span := ⟨Position.start.past ['-'], Position.start.past text.toList⟩
    s.Refuses text
      (.ofGrammar source ⟨.numberRange (String.ofList (radix.literal m)), span, false⟩) := by
  intro text source span
  have htext : Mark.textOf [minusMark, radix.mark m] = '-' :: radix.literal m :=
    congrArg ('-' :: ·) (List.append_nil _)
  have hprogram := Mark.program_of_mistake (scanned_minusMark radix m) rfl rfl
    (Rule.signed_number_of_error rfl radix.isNumber_kind (number?_token_error h) []) s.name
  rw [htext] at hprogram
  let digits := (radix.mark m).token (Position.start.past minusMark.written)
  have hkind : digits.kind.isLineEnd = false := by cases radix <;> rfl
  have hspan : digits.span = span := by
    have hstop : Position.start.past text.toList =
        (Position.start.past ['-']).past (radix.literal m) := by
      rw [String.toList_ofList]
      rfl
    exact congrArg (Span.mk _) hstop.symm
  rw [hkind, hspan] at hprogram
  exact refuses_of_program hprogram

/-- **What is shown of an integer is read back.** Running it, as decimal or as
hexadecimal, comes to the number that it was shown of. Only what is shown of the least
integer is refused, for its digits are out of range. -/
theorem reads_back_integers (s : Session) (radix : Radix) (n : Int64) :
    let text := (radix.number n).render
    (n ≠ Int64.minValue → s.Evaluates text (.number (radix.number n))) ∧
    (n = Int64.minValue → ∃ digits span, text = "-" ++ digits ∧ s.Refuses text
      (.ofGrammar ⟨s.name, text⟩ ⟨.numberRange digits, span, false⟩)) := by
  intro text
  have hrender := radix.toList_render n
  have hneg (h : n.toInt < 0) : text = String.ofList ('-' :: radix.literal n.toInt.natAbs) := by
    rw [if_pos h] at hrender
    exact String.toList_inj.1 (hrender.trans String.toList_ofList.symm)
  have hnonneg (h : ¬ n.toInt < 0) : text = String.ofList (radix.literal n.toInt.natAbs) := by
    rw [if_neg h] at hrender
    exact String.toList_inj.1 (hrender.trans String.toList_ofList.symm)
  refine ⟨fun hn => ?_, fun hn => ?_⟩
  · obtain ⟨w, hword, hw⟩ := exists_word?_natAbs hn
    by_cases h : n.toInt < 0
    · rw [hneg h]
      exact evaluates_minus_literal hword (radix.signed_number (by omega))
    · have hsame : w = n := Int64.toInt_inj.1 (by omega)
      rw [hnonneg h, ← hsame]
      exact evaluates_literal (hsame ▸ hword)
  · have hless : n.toInt < 0 := by
      rw [hn]
      decide
    refine ⟨_, _, ?_, hneg hless ▸ refuses_minus_literal (hn ▸ word?_natAbs_minValue)⟩
    rw [hneg hless]
    exact String.toList_inj.1 (by simp)

/-- A negative hexadecimal is read back, and the least decimal is refused. -/
theorem reads_back_integers_negativeAndLeast :
    let s : Session := .start "numbers" {} fun _ => true
    (-31 : Int64) ≠ Int64.minValue ∧ s.Evaluates "-0x1f" (.number (.hexadecimal (-31))) ∧
      ∃ digits span, "-9223372036854775808" = "-" ++ digits ∧ s.Refuses "-9223372036854775808"
        (.ofGrammar ⟨"numbers", "-9223372036854775808"⟩ ⟨.numberRange digits, span, false⟩) := by
  intro s
  have hne : (-31 : Int64) ≠ Int64.minValue := by decide
  have hhex : (Radix.hexadecimal.number (-31)).render = "-0x1f" := by decide +kernel
  have hleast : (Radix.decimal.number Int64.minValue).render = "-9223372036854775808" := by
    decide +kernel
  have hread := (reads_back_integers s .hexadecimal (-31)).1 hne
  have hrefused := (reads_back_integers s .decimal Int64.minValue).2 rfl
  rw [hhex] at hread
  rw [hleast] at hrefused
  exact ⟨hne, hread, hrefused⟩

end Session

end HotkeyScript
