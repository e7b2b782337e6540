import HotkeyScript.Proofs.Session.Expression
/-!
# Quotations — every text can be written

Two layers of escapes lie over a text between quotes. Backticks are in front of what can
not stand on the line (`Text.escaped`), and then each quote is doubled (`Scan.doubled`). A
scan undoes the second and `Text.unescape` the first, in that order. Neither misreads what
the other wrote: a doubled quote has no backtick in it, and no escape has a quote in it.

So the quotation of a text is a script of one line that evaluates to the text
(`Session.evaluates_quotation`).
-/

namespace HotkeyScript

namespace Text

/-- A character as it is written between quotes. -/
def quotedChar : Char → List Char
  | '"' => ['"', '"']
  | '\x60' => ['\x60', '\x60']
  | '\n' => ['\x60', 'n']
  | '\t' => ['\x60', 't']
  | '\r' => ['\x60', 'r']
  | c => [c]

/-- A text written between quotes. -/
def quotation (text : String) : String :=
  String.ofList ('"' :: (text.toList.flatMap quotedChar ++ ['"']))

/-! ## The layer of backticks -/

/-- A character with the backtick that it needs. -/
def escapedChar (c : Char) : List Char := if c = '"' then [c] else quotedChar c

/-- A text with the backticks that it needs. -/
def escaped (cs : List Char) : List Char := cs.flatMap escapedChar

/-- The escape of one character is undone, whatever stands behind it. -/
theorem unescape_escapedChar (c : Char) (rest : List Char) :
    unescape (escapedChar c ++ rest) = c :: unescape rest := by
  have hplain (hbacktick : c ≠ '\x60') : unescape (c :: rest) = c :: unescape rest := by
    rw [unescape] <;> exact fun _ hc _ => hbacktick hc
  by_cases hquote : c = '"'
  · rw [escapedChar, if_pos hquote]
    exact hplain (hquote ▸ by decide)
  rw [escapedChar, if_neg hquote]
  unfold quotedChar
  split
  next => exact absurd rfl hquote
  next => rfl
  next => rfl
  next => rfl
  next => rfl
  next hbacktick _ _ _ => exact hplain hbacktick

/-- **Backticks are undone exactly**, whatever the text has of its own. -/
theorem unescape_escaped (cs : List Char) : unescape (escaped cs) = cs := by
  induction cs with
  | nil => rfl
  | cons c cs ih =>
    rw [escaped, List.flatMap_cons, unescape_escapedChar]
    exact congrArg _ ih

/-! ## The layer of quotes -/

theorem doubled_escapedChar (c : Char) : Scan.doubled (escapedChar c) = quotedChar c := by
  by_cases hquote : c = '"'
  · rw [escapedChar, if_pos hquote, hquote]
    rfl
  rw [escapedChar, if_neg hquote]
  unfold quotedChar
  split
  next => exact absurd rfl hquote
  next => rfl
  next => rfl
  next => rfl
  next => rfl
  next => rw [Scan.doubled, List.flatMap_singleton, if_neg hquote]

/-- The inside of a quotation is the text with backticks, its quotes doubled. -/
theorem doubled_escaped (cs : List Char) :
    Scan.doubled (escaped cs) = cs.flatMap quotedChar := by
  induction cs with
  | nil => rfl
  | cons c cs ih =>
    rw [escaped, List.flatMap_cons, List.flatMap_cons, ← doubled_escapedChar, ← ih]
    exact List.flatMap_append

/-! ## One line -/

theorem feed_notMem_quotedChar (c : Char) : '\n' ∉ quotedChar c := by
  unfold quotedChar
  split
  case h_6 hfeed _ _ => exact fun hmem => hfeed (List.mem_singleton.1 hmem).symm
  all_goals decide

/-- No escape breaks the line. -/
theorem feed_notMem_escaped (cs : List Char) : '\n' ∉ escaped cs := by
  intro hmem
  obtain ⟨c, -, hc⟩ := List.mem_flatMap.1 hmem
  unfold escapedChar at hc
  split at hc
  next hquote => exact absurd (hquote ▸ List.mem_singleton.1 hc) (by decide)
  next => exact feed_notMem_quotedChar c hc

theorem feed_notMem_quotation (text : String) : '\n' ∉ (quotation text).toList := by
  rw [quotation, String.toList_ofList, List.mem_cons, List.mem_append, List.mem_flatMap]
  rintro (hquote | ⟨c, -, hc⟩ | hquote)
  · exact absurd hquote (by decide)
  · exact feed_notMem_quotedChar c hc
  · exact absurd hquote (by decide)

end Text

/-! ## The script of one quotation -/

/-- A quotation as a mark. -/
def quotationMark (cs : List Char) : Mark where
  kind := .quoted
  lexeme := cs
  text := '"' :: (cs.flatMap Text.quotedChar ++ ['"'])
  blanks := []

theorem scanned_quotationMark (cs : List Char) : Mark.Scanned [] [quotationMark cs] := by
  have hread := Wording.readBefore_quoted (Text.feed_notMem_escaped cs) (.nil (· == '"'))
  rw [Text.unescape_escaped, Text.doubled_escaped] at hread
  exact ⟨rfl, hread, trivial⟩

/-- A quotation is read as its text. -/
theorem gives_quotation {nested deeper : Rule Expr} (p : Position) (cs : List Char) :
    let t := (quotationMark cs).token p
    Gives (Rule.signed deeper nested [t]) (.text (String.ofList cs) false t.span) [] := by
  intro t
  refine ⟨Nat.zero_lt_one, ?_⟩
  rw [Rule.signed_of_none rfl, Rule.atom]
  rfl

/-- **A quotation is a script of one expression**, the text that it is of. -/
theorem program_quotation (file text : String) : ∃ span,
    (⟨file, Text.quotation text⟩ : Source).program =
      .ok ⟨[.expr (.text text false span) span]⟩ := by
  have hprogram := Mark.program_of_operand (scanned_quotationMark text.toList) rfl rfl
    (gives_quotation _ _) file
  have htext : Mark.textOf [quotationMark text.toList] = (Text.quotation text).toList := by
    rw [Mark.textOf_cons, Mark.textOf_nil, List.append_nil, Text.quotation, String.toList_ofList]
    rfl
  rw [htext, String.ofList_toList, String.ofList_toList] at hprogram
  exact ⟨_, hprogram⟩

/-- **Every text can be written between quotes.** Its quotation is one line, and a session
that runs it comes to the text. -/
theorem Session.evaluates_quotation (s : Session) (text : String) :
    '\n' ∉ (Text.quotation text).toList ∧ s.Evaluates (Text.quotation text) (.text text) := by
  obtain ⟨span, hprogram⟩ := program_quotation s.name text
  refine ⟨Text.feed_notMem_quotation text, evaluates_of_program hprogram fun call m => ?_⟩
  rw [Expr.eval]
  rfl

end HotkeyScript
