import HotkeyScript.Proofs.Token.Break
/-!
# Tokens — lexing goes line by line

The tokens of two texts with a line break between them are those of the one, a
token for the break where its end was, and those of the other, which stand as
many characters and lines further on as the first text and the break have
(`tokenize_lines`). What is wrong in the second text is wrong in the whole, at
the place that it is shifted to.
-/

namespace HotkeyScript

/-! ## Shifts -/

/-- A position in a text that further characters and whole lines were put in
front of. -/
def Position.shift (chars lines : Nat) (p : Position) : Position :=
  ⟨p.offset + chars, p.line + lines, p.column⟩

def Span.shift (chars lines : Nat) (s : Span) : Span :=
  ⟨s.start.shift chars lines, s.stop.shift chars lines⟩

def Token.shift (chars lines : Nat) (t : Token) : Token :=
  { t with span := t.span.shift chars lines }

def LexicalError.shift (chars lines : Nat) (e : LexicalError) : LexicalError :=
  { e with span := e.span.shift chars lines }

namespace Position

variable (chars lines : Nat) (p : Position)

theorem after_shift (c : Char) :
    (p.shift chars lines).after c = (p.after c).shift chars lines := by
  unfold after shift
  split
  · simp only [Nat.add_right_comm]
  · simp only [Nat.add_right_comm]

/-- Walking a text commutes with what is put in front of it. -/
theorem past_shift (cs : List Char) :
    (p.shift chars lines).past cs = (p.past cs).shift chars lines := by
  induction cs generalizing p with
  | nil => rfl
  | cons c cs ih => rw [past_cons, past_cons, after_shift, ih]

/-- A walk counts the line breaks. -/
theorem line_past (cs : List Char) : (p.past cs).line = p.line + cs.count '\n' := by
  induction cs generalizing p with
  | nil => rfl
  | cons c cs ih =>
    rw [past_cons, ih, after]
    by_cases hc : c = '\n'
    · rw [if_pos hc, hc, List.count_cons_self]
      dsimp only
      omega
    · rw [if_neg hc, List.count_cons_of_ne hc]

/-- Behind a break a script starts again. -/
theorem past_break (cs : List Char) :
    start.past (cs ++ ['\n']) = start.shift (cs.length + 1) (1 + cs.count '\n') := by
  have ho : (start.past cs).offset = 0 + cs.length := offset_past start cs
  have hl : (start.past cs).line = 1 + cs.count '\n' := line_past start cs
  rw [past_append, past_cons, past_nil, after, if_pos rfl, ho, hl]
  simp only [shift, start, Nat.zero_add, Nat.add_comm]

end Position

namespace Piece

/-- Pieces are placed behind the text of those in front of them. -/
theorem place_append (p : Position) (ps qs : List Piece) :
    place p (ps ++ qs) = place p ps ++ place (p.past (textOf ps)) qs := by
  induction ps generalizing p with
  | nil => rfl
  | cons q ps ih =>
    rw [textOf_cons, Position.past_append]
    cases q with
    | gap text => exact ih _
    | token => exact congrArg (_ :: ·) (ih _)

/-- A token behind blanks stands where they end. -/
theorem place_append_token (p : Position) (ps : List Piece) (blanks : List Char) (kind : TokenKind)
    (lexeme text : List Char) (spaced : Bool) :
    place p (ps ++ [.gap blanks, .token kind lexeme text spaced]) =
      place p ps ++ [⟨kind, String.ofList lexeme,
        ⟨p.past (textOf ps ++ blanks), (p.past (textOf ps ++ blanks)).past text⟩, spaced⟩] := by
  rw [place_append, Position.past_append]
  rfl

theorem place_shift (chars lines : Nat) (p : Position) (ps : List Piece) :
    place (p.shift chars lines) ps = (place p ps).map (Token.shift chars lines) := by
  induction ps generalizing p with
  | nil => rfl
  | cons q ps ih =>
    cases q with
    | gap text => rw [place, place, Position.past_shift, ih]
    | token kind lexeme text spaced =>
      rw [place, place, List.map_cons, Position.past_shift, ih]
      rfl

/-- What is cut behind a break is placed as in a text of its own, shifted. -/
theorem place_behind_break {front : List Piece} {cs : List Char} (h : textOf front = cs ++ ['\n'])
    (more : List Piece) :
    place .start (front ++ more) = place .start front ++
      (place .start more).map (Token.shift (cs.length + 1) (1 + cs.count '\n')) := by
  rw [place_append, h, Position.past_break, place_shift]

end Piece

/-- A fault behind a break is where it was, shifted. -/
theorem Cut.toError_shift_break (cs : List Char) (cut : Cut) :
    (cut.shift (cs ++ ['\n'])).toError =
      cut.toError.shift (cs.length + 1) (1 + cs.count '\n') := by
  simp only [toError, shift, Position.past_append, ← Position.past_shift, ← Position.past_break,
    LexicalError.shift, Span.shift]

/-! ## Texts -/

theorem tokenize_of_ok {text : String} {ps : List Piece}
    (h : Piece.cut true text.toList = .ok ps) :
    tokenize text = .ok (Piece.place .start (.token .fileStart [] [] false :: ps)) := by
  rw [tokenize, h]

theorem tokenize_of_error {text : String} {cut : Cut}
    (h : Piece.cut true text.toList = .error cut) : tokenize text = .error cut.toError := by
  rw [tokenize, h]

/-- A text that has tokens was cut. -/
theorem exists_cut_of_tokenize {text : String} {ts : List Token} (h : tokenize text = .ok ts) :
    ∃ ps, Piece.cut true text.toList = .ok ps ∧
      ts = Piece.place .start (.token .fileStart [] [] false :: ps) := by
  cases hc : Piece.cut true text.toList with
  | error cut => rw [tokenize_of_error hc] at h; cases h
  | ok ps => rw [tokenize_of_ok hc] at h; cases h; exact ⟨ps, rfl, rfl⟩

/-- The token of a line break that stands where a text ended. -/
def Token.lineEndAt (eof : Token) : Token :=
  ⟨.lineEnd, "\n", ⟨eof.span.start, eof.span.start.after '\n'⟩, eof.spaced⟩

theorem toList_append_break (a b : String) :
    (a ++ "\n" ++ b).toList = a.toList ++ '\n' :: b.toList := by
  rw [String.toList_append, String.toList_append, List.append_assoc]
  rfl

/-- The first of the tokens of a text is its start. -/
theorem exists_fileStart_of_tokenize {text : String} {ts : List Token}
    (h : tokenize text = .ok ts) : ∃ sof rest, ts = sof :: rest ∧ sof.kind = .fileStart := by
  obtain ⟨ps, -, rfl⟩ := exists_cut_of_tokenize h
  exact ⟨_, _, rfl, rfl⟩

/-- What comes of a text behind a text that has tokens, and a line break. -/
theorem tokenize_append_break {a : String} {ta : List Token} (ha : tokenize a = .ok ta) :
    let chars := a.length + 1
    let lines := 1 + a.toList.count '\n'
    ∃ before eof, ta = before ++ [eof] ∧ eof.kind = .fileEnd ∧ ∀ b : String,
      (∀ sof rest, tokenize b = .ok (sof :: rest) → tokenize (a ++ "\n" ++ b) =
        .ok (before ++ eof.lineEndAt :: rest.map (Token.shift chars lines))) ∧
      ∀ e, tokenize b = .error e → tokenize (a ++ "\n" ++ b) = .error (e.shift chars lines) := by
  intro chars lines
  obtain ⟨ps, hps, rfl⟩ := exists_cut_of_tokenize ha
  obtain ⟨front, blanks, spaced, rfl, hbreak⟩ := Piece.cut_append_break hps
  have htext : Piece.textOf front ++ blanks = a.toList := by
    simpa [Piece.text] using Piece.textOf_cut hps
  let first : List Piece := .token .fileStart [] [] false :: front
  let q := Position.start.past (Piece.textOf first ++ blanks)
  refine ⟨Piece.place .start first, ⟨.fileEnd, String.ofList [], ⟨q, q⟩, spaced⟩,
    Piece.place_append_token _ first _ _ _ _ _, rfl, fun b => ?_⟩
  let broken := first ++ [.gap blanks, .token .lineEnd ['\n'] ['\n'] spaced]
  have hbroken : Piece.textOf broken = a.toList ++ ['\n'] := by
    simp [broken, first, Piece.text, ← htext]
  have hcut := hbreak b.toList
  rw [← toList_append_break] at hcut
  cases hb : Piece.cut true b.toList with
  | error cut =>
    rw [tokenize_of_error hb]
    refine ⟨fun sof rest h => absurd h (by simp), fun e he => ?_⟩
    cases he
    rw [hb] at hcut
    change _ = Except.error (cut.shift (Piece.textOf broken)) at hcut
    rw [tokenize_of_error hcut, hbroken, Cut.toError_shift_break, String.length_toList]
  | ok more =>
    rw [tokenize_of_ok hb]
    refine ⟨fun sof rest h => ?_, fun e he => absurd he (by simp)⟩
    cases h
    rw [hb] at hcut
    have htokens := Piece.place_behind_break hbroken more
    rw [Piece.place_append_token, String.length_toList] at htokens
    refine (tokenize_of_ok hcut).trans (congrArg Except.ok (htokens.trans ?_))
    exact List.append_assoc ..

/-- **Lexing goes line by line.** Let a text have tokens, the last of them its
end. It has tokens together with a line break and another text just if the other
has: its own but for the end, one for the break, and those of the other but for
its start, shifted by the characters and the lines in front of them. What is
wrong with the other is wrong with the whole, at the shifted place. -/
theorem tokenize_lines {a : String} {ta : List Token} (ha : tokenize a = .ok ta) :
    let chars := a.length + 1
    let lines := 1 + a.toList.count '\n'
    ∃ before eof, ta = before ++ [eof] ∧ eof.kind = .fileEnd ∧ ∀ b : String,
      (∀ t, tokenize (a ++ "\n" ++ b) = .ok t ↔
        ∃ sof rest, tokenize b = .ok (sof :: rest) ∧ sof.kind = .fileStart ∧
          t = before ++ eof.lineEndAt :: rest.map (Token.shift chars lines)) ∧
      ∀ e, tokenize b = .error e → tokenize (a ++ "\n" ++ b) = .error (e.shift chars lines) := by
  intro chars lines
  obtain ⟨before, eof, hta, heof, hbehind⟩ := tokenize_append_break ha
  refine ⟨before, eof, hta, heof, fun b => ?_⟩
  obtain ⟨hok, herror⟩ := hbehind b
  refine ⟨fun t => ⟨fun ht => ?_, ?_⟩, herror⟩
  · cases hb : tokenize b with
    | error e =>
      rw [herror e hb] at ht
      cases ht
    | ok tb =>
      obtain ⟨sof, rest, rfl, hsof⟩ := exists_fileStart_of_tokenize hb
      rw [hok sof rest hb] at ht
      cases ht
      exact ⟨sof, rest, rfl, hsof, rfl⟩
  · rintro ⟨sof, rest, hb, -, rfl⟩
    exact hok sof rest hb

/-- An assignment with a comment, and a message box on the next line. -/
theorem tokenize_lines_commentThenBox :
    let a := "x := 1 ; one"
    let b := "MsgBox % x"
    ∃ before eof sof rest, tokenize a = .ok (before ++ [eof]) ∧ tokenize b = .ok (sof :: rest) ∧
      tokenize (a ++ "\n" ++ b) = .ok (before ++ eof.lineEndAt :: rest.map (Token.shift 13 1)) := by
  intro a b
  have ha : (tokenize a).toBool = true := by decide +kernel
  have hab : (tokenize (a ++ "\n" ++ b)).toBool = true := by decide +kernel
  cases hta : tokenize a with
  | error e => rw [hta] at ha; cases ha
  | ok ta =>
    cases ht : tokenize (a ++ "\n" ++ b) with
    | error e => rw [ht] at hab; cases hab
    | ok t =>
      obtain ⟨before, eof, rfl, -, hlines⟩ := tokenize_lines hta
      obtain ⟨sof, rest, hb, -, rfl⟩ := ((hlines b).1 t).1 ht
      have hchars : a.length + 1 = 13 := by decide +kernel
      have hcount : 1 + a.toList.count '\n' = 1 := by decide +kernel
      refine ⟨before, eof, sof, rest, rfl, hb, ?_⟩
      rw [hchars, hcount]

end HotkeyScript
