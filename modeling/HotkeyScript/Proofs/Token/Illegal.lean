import HotkeyScript.Proofs.Token.Cover
import HotkeyScript.Proofs.Token.Number
/-!
# Tokens — where an illegal character is

A text may be refused for a colon at its end, and for a character that cannot go on with a
number. What the error marks is one character of the text, and it is the one that the error
quotes (`illegal_character_marked`).

There is one exception. An `x` that no digit is behind is quoted, but the zero in front of
it is marked (`illegal_x_marks_zero`). That this is all there is goes by the scans that can
fail so (`Cut.Marks`), and a cut keeps it behind what it has passed.
-/

namespace HotkeyScript

open Text

/-- A fault of a text quotes a character and marks it where it stands, or quotes an `x` with
no digit behind it and marks the zero in front. -/
inductive Cut.Marks (c : Char) : Cut → List Char → Prop where
  | itself {before behind : List Char} : c.isDigit = false →
      Marks c ⟨.illegal c, before, [c]⟩ (before ++ c :: behind)
  | zero {before behind : List Char} : c = 'x' → NotNext isNumberChar behind →
      Marks c ⟨.illegal c, before, ['0']⟩ (before ++ '0' :: 'x' :: behind)

section

variable {lineStart spaced : Bool} {c d : Char} {cs : List Char} {fault : Cut}

/-- A fault marks the same character when it is seen from further in front. -/
theorem Cut.Marks.shift (h : fault.Marks c cs) (front : List Char) :
    (fault.shift front).Marks c (front ++ cs) := by
  cases h with
  | itself hc =>
    rw [← List.append_assoc]
    exact .itself hc
  | zero hx hbehind =>
    rw [← List.append_assoc]
    exact .zero hx hbehind

/-! ## Scans that fail -/

namespace Scan

/-- A digit can stand anywhere in a number. -/
theorem digits_error {shape : Shape} {before : List Char}
    (h : digits shape cs = .error (before, d)) : d.isDigit = false := by
  induction cs generalizing shape before with
  | nil => cases h
  | cons c cs ih =>
    unfold digits at h
    split at h
    next =>
      split at h
      next hnext =>
        cases h
        refine Bool.eq_false_iff.2 fun hdigit => ?_
        rw [Shape.next?, if_pos hdigit] at hnext
        cases hnext
      next =>
        split at h
        next => cases h
        next hmore =>
          cases h
          exact ih hmore
    next => cases h

theorem marks_colon (h : colon spaced cs = .error fault) (hc : fault.fault = .illegal c) :
    fault.Marks c (':' :: cs) := by
  unfold colon at h
  split at h <;> cases h
  cases hc
  exact @Cut.Marks.itself _ [] _ rfl

theorem marks_number (hd : d.isDigit = true) (h : number spaced d cs = .error fault)
    (hc : fault.fault = .illegal c) : fault.Marks c (d :: cs) := by
  unfold number at h
  split at h
  next before e hdigits =>
    cases h
    cases hc
    obtain ⟨more, hmore⟩ := digits_run_error hdigits
    have hcs : before ++ c :: (more ++ cs.dropWhile isNumberChar) = cs := by
      rw [← List.cons_append, ← List.append_assoc, ← hmore, List.takeWhile_append_dropWhile]
    rw [← hcs]
    exact @Cut.Marks.itself _ (d :: before) _ (digits_error hdigits)
  next shape text rest hdigits =>
    split at h
    next hx =>
      cases h
      cases hc
      obtain ⟨rfl, rfl⟩ := hx
      have hcs : cs = 'x' :: cs.dropWhile isNumberChar := by
        rw [← List.singleton_append, (digits_run hdigits).1, List.takeWhile_append_dropWhile]
      -- an `x` is read behind a zero only, so that is what the literal starts with
      cases (Shape.Read.first cs.head? hd).digits hdigits
      rw [hcs]
      exact @Cut.Marks.zero _ [] _ rfl (.dropWhile _ _)
    next => cases h

/-- **A scan that refuses a character marks it**, or the zero in front of it. -/
theorem marks_next (h : next lineStart spaced d cs = .error fault)
    (hc : fault.fault = .illegal c) : fault.Marks c (d :: cs) := by
  unfold next at h
  split at h
  next => cases h
  split at h
  next => cases h
  split at h
  next => cases h
  split at h
  next =>
    unfold slash at h
    split at h
    next =>
      split at h
      next => split at h <;> cases h; cases hc
      next => cases h
    next => cases h
  split at h
  next hcolon => exact hcolon ▸ marks_colon h hc
  split at h
  next => cases h
  split at h
  next =>
    unfold quote at h
    split at h <;> cases h
    cases hc
  split at h
  next hd => exact marks_number hd h hc
  split at h <;> cases h

end Scan

/-! ## Whole texts -/

/-- **A cut keeps what a fault marks** behind all that it has passed. -/
theorem Piece.marks_cut (h : cut lineStart cs = .error fault) (hc : fault.fault = .illegal c) :
    fault.Marks c cs := by
  fun_induction cut lineStart cs generalizing fault with
  | case1 => cases h
  | case2 lineStart cs blanks d tail hcs =>
    rename_i fault' hs
    cases h
    have hmarks := (Scan.marks_next hs hc).shift blanks
    rwa [← hcs, List.takeWhile_append_dropWhile] at hmarks
  | case3 lineStart cs blanks d tail hcs scan hs fault' hmore =>
    rename_i ih
    cases h
    have hmarks := (ih hmore hc).shift (blanks ++ textOf scan.pieces)
    rwa [List.append_assoc, (Scan.covers_next hs).textOf_append_rest, ← hcs,
      List.takeWhile_append_dropWhile] at hmarks
  | case4 => cases h

end

/-! ## Errors -/

/-- An error's span is a span of the text, and what stands there is what the fault marks. -/
theorem Cut.span_toError (fault : Cut) (behind : List Char) :
    fault.toError.span.In (fault.before ++ fault.marked ++ behind) ∧
      between (fault.before ++ fault.marked ++ behind) fault.toError.span.start.offset
        fault.toError.span.stop.offset = fault.marked := by
  have hstart : fault.toError.span.start = Position.start.past fault.before := rfl
  have hstop : fault.toError.span.stop = Position.start.past (fault.before ++ fault.marked) :=
    (Position.past_append _ _ _).symm
  rw [hstop, hstart, Position.offset_past_start, Position.offset_past_start, List.length_append]
  refine ⟨⟨?_, ?_, ?_⟩, between_append _ _ _⟩
  · rw [hstart, List.append_assoc]
    exact Position.in_past _ _
  · rw [hstop]
    exact Position.in_past _ _
  · rw [hstart, hstop, Position.offset_past_start, Position.offset_past_start, List.length_append]
    exact Nat.le_add_right _ _

/-- A fault that marks a character makes an error that does, and the run of characters of
numbers from there tells which of the two it is. -/
theorem Cut.Marks.span_toError {fault : Cut} {c : Char} {cs : List Char} (h : fault.Marks c cs) :
    let span := fault.toError.span
    let run := (cs.drop span.start.offset).takeWhile isNumberChar
    let marked := between cs span.start.offset span.stop.offset
    span.In cs ∧ (run ≠ ['0', 'x'] → marked = [c]) ∧
      (run = ['0', 'x'] → marked = ['0'] ∧ c = 'x') := by
  intro span run marked
  have hstart : span.start.offset = fault.before.length := Position.offset_past_start _
  have hrun : run = (cs.drop fault.before.length).takeWhile isNumberChar := by rw [← hstart]
  cases h with
  | @itself before behind hdigit =>
    have hspan := Cut.span_toError ⟨.illegal c, before, [c]⟩ behind
    rw [List.append_assoc] at hspan
    refine ⟨hspan.1, fun _ => hspan.2, fun hzero => ?_⟩
    -- the run begins with the character, which is no zero
    rw [hrun, List.drop_left, List.takeWhile_cons] at hzero
    split at hzero
    · rw [(List.cons.inj hzero).1] at hdigit
      cases hdigit
    · cases hzero
  | @zero before behind hx hbehind =>
    have hspan := Cut.span_toError ⟨.illegal c, before, ['0']⟩ ('x' :: behind)
    rw [List.append_assoc] at hspan
    refine ⟨hspan.1, fun hne => ?_, fun _ => ⟨hspan.2, hx⟩⟩
    rw [hrun, List.drop_left] at hne
    have hzero : (['0', 'x'] ++ behind).takeWhile isNumberChar = ['0', 'x'] :=
      hbehind.takeWhile_append rfl
    exact absurd hzero hne

/-- **An illegal character is marked where it stands.** The error of a text that is refused
for a character has a span in the text, and what stands there is the character that it
quotes. Only where an `x` has no digit behind it is the zero in front of it marked. -/
theorem illegal_character_marked {text : String} {e : LexicalError} {c : Char}
    (h : tokenize text = .error e) (hc : e.fault = .illegal c) :
    let run := (text.toList.drop e.span.start.offset).takeWhile isNumberChar
    let marked := between text.toList e.span.start.offset e.span.stop.offset
    e.span.In text.toList ∧ (run ≠ ['0', 'x'] → marked = [c]) ∧
      (run = ['0', 'x'] → marked = ['0'] ∧ c = 'x') := by
  unfold tokenize at h
  split at h
  next fault hcut =>
    cases h
    exact (Piece.marks_cut hcut hc).span_toError
  next => cases h

/-- A point in a hexadecimal number. -/
theorem illegal_character_marked_secondPoint :
    let text := "a := 1\nb := 0x1.5"
    let e : LexicalError := ⟨.illegal '.', ⟨⟨15, 2, 9⟩, ⟨16, 2, 10⟩⟩⟩
    tokenize text = .error e ∧ between text.toList 15 16 = ['.'] := by
  intro text e
  have h : tokenize text = .error e := by decide +kernel
  have hrun : ((text.toList.drop 15).takeWhile isNumberChar) ≠ ['0', 'x'] := by decide +kernel
  exact ⟨h, (illegal_character_marked h rfl).2.1 hrun⟩

/-- The error of a bare `0x` quotes the `x` and marks the zero. -/
theorem illegal_x_marks_zero :
    ∃ e, tokenize "0x" = .error e ∧ e.fault = .illegal 'x' ∧
      between "0x".toList e.span.start.offset e.span.stop.offset = ['0'] := by
  refine ⟨⟨.illegal 'x', ⟨⟨0, 1, 1⟩, ⟨1, 1, 2⟩⟩⟩, ?_, rfl, ?_⟩
  · decide +kernel
  · decide +kernel

end HotkeyScript
