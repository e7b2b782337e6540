import HotkeyScript.Proofs.Token.Written
/-!
# Tokens — number literals

The run of characters that a digit starts, as far as any of them may stand in a number,
is a number literal or is not: digits, digits with a point between them, or hexadecimal
digits behind `0x` (`NumberText`). Wherever the lexer comes to a digit, the run is a token
of the kind that it spells, or an illegal character is found in it (`number_literals`).

That a scan accepts only literals goes by what it has read in each shape, which one more
character keeps (`Scan.Shape.Read.step`). That it accepts all of them goes by the three
ways in which literals are written.
-/

namespace HotkeyScript

open Text

/-! ## Literals -/

namespace Text

/-- A digit, or one of the six letters that are digits to the base 16. -/
def isHexDigit (c : Char) : Bool := c.isDigit || ('a' ≤ c && c ≤ 'f') || ('A' ≤ c && c ≤ 'F')

/-- A text that is not empty and has no other characters than those of a class. -/
def RunOf (p : Char → Bool) (cs : List Char) : Prop := cs ≠ [] ∧ cs.all p = true

end Text

/-- **The grammar of number literals**, with the kinds of their tokens. -/
inductive NumberText : TokenKind → List Char → Prop where
  | decimal {ds : List Char} : RunOf Char.isDigit ds → NumberText .decimal ds
  | float {ds es : List Char} : RunOf Char.isDigit ds → RunOf Char.isDigit es →
      NumberText .float (ds ++ '.' :: es)
  | hexadecimal {hs : List Char} : RunOf isHexDigit hs → NumberText .hexadecimal ('0' :: 'x' :: hs)

namespace Text

variable {p : Char → Bool} {c : Char} {cs : List Char}

theorem RunOf.concat (hcs : cs.all p = true) (hc : p c = true) : RunOf p (cs ++ [c]) := by
  refine ⟨List.append_ne_nil_of_right_ne_nil cs (List.cons_ne_nil c []), ?_⟩
  rw [List.all_append, hcs, Bool.true_and, List.all_cons, hc]
  rfl

theorem RunOf.singleton (hc : p c = true) : RunOf p [c] := concat List.all_nil hc

/-- Hexadecimal digits are what may stand in a number but for the point and the `x`. -/
theorem isHexDigit_iff : isHexDigit c = true ↔ isNumberChar c = true ∧ c ≠ '.' ∧ c ≠ 'x' := by
  have hnumber : isNumberChar c = (isHexDigit c || c == '.' || c == 'x') := rfl
  rw [hnumber, Bool.or_eq_true, Bool.or_eq_true, beq_iff_eq, beq_iff_eq]
  refine ⟨fun h => ⟨.inl (.inl h), Scan.ne_of_class rfl h, Scan.ne_of_class rfl h⟩, ?_⟩
  rintro ⟨(h | h) | h, hpoint, hx⟩
  · exact h
  · exact absurd h hpoint
  · exact absurd h hx

end Text

namespace Scan

variable {c : Char} {cs front text rest : List Char} {following : Option Char}
  {shape final next : Shape}

/-! ## What is accepted is a literal -/

/-- What was read of a literal in each shape. A point may have been the last of it, if a
digit comes next. -/
inductive Shape.Read (following : Option Char) : Shape → List Char → Prop where
  | zero : Read following .zero ['0']
  | integer {ds : List Char} : RunOf Char.isDigit ds → Read following .integer ds
  | fraction {ds es : List Char} : RunOf Char.isDigit ds → es.all Char.isDigit = true →
      (es = [] → following.any Char.isDigit = true) → Read following .fraction (ds ++ '.' :: es)
  | hexadecimal {hs : List Char} : hs.all isHexDigit = true →
      Read following .hexadecimal ('0' :: 'x' :: hs)

namespace Shape.Read

/-- The digit that a literal starts with. -/
theorem first (following : Option Char) (hc : c.isDigit = true) :
    Read following (if c = '0' then .zero else .integer) [c] := by
  split
  next h => exact h ▸ .zero
  next => exact .integer (.singleton hc)

/-- In front of a point or of an `x`, only digits were read. -/
theorem isRun (h : Read following shape front) (hshape : shape = .zero ∨ shape = .integer) :
    RunOf Char.isDigit front := by
  cases h with
  | zero => exact .singleton rfl
  | integer h => exact h
  | fraction => rcases hshape with h | h <;> cases h
  | hexadecimal => rcases hshape with h | h <;> cases h

/-- A digit goes on with what was read in any shape. -/
theorem digit (h : Read (some c) shape front) (hc : c.isDigit = true) (following : Option Char) :
    Read following (if shape = .zero then .integer else shape) (front ++ [c]) := by
  cases h with
  | zero => exact .integer (.concat rfl hc)
  | integer h => exact .integer (.concat h.2 hc)
  | @fraction ds es hds hes =>
    rw [List.append_assoc]
    have hmore : RunOf Char.isDigit (es ++ [c]) := .concat hes hc
    exact .fraction hds hmore.2 fun hnil => absurd hnil hmore.1
  | hexadecimal h =>
    have hhex : isHexDigit c = true := by simp [isHexDigit, hc]
    exact .hexadecimal (RunOf.concat h hhex).2

/-- **One more character** is read into the next shape. -/
theorem step (h : Read (some c) shape front) (hc : isNumberChar c = true)
    (hnext : shape.next? c following = some next) : Read following next (front ++ [c]) := by
  unfold Shape.next? at hnext
  split at hnext
  next hdigit =>
    cases hnext
    exact h.digit hdigit following
  split at hnext
  next hpoint =>
    split at hnext
    next hshape =>
      cases hnext
      rw [hpoint]
      exact .fraction (h.isRun hshape.1) rfl fun _ => hshape.2
    next => cases hnext
  next hpoint =>
    split at hnext
    next hx =>
      split at hnext
      next hzero =>
        cases hnext
        subst hzero hx
        cases h
        exact .hexadecimal rfl
      next => cases hnext
    next hx =>
      split at hnext
      next hshape =>
        cases hnext
        subst hshape
        cases h with
        | hexadecimal h => exact .hexadecimal (RunOf.concat h (isHexDigit_iff.2 ⟨hc, hpoint, hx⟩)).2
      next => cases hnext

/-- **What a literal has come to at its end** was read in its final shape. -/
theorem digits (h : Read cs.head? shape front)
    (hdigits : Scan.digits shape cs = .ok (final, text, rest)) :
    Read rest.head? final (front ++ text) := by
  -- on what is left, while the text that was read grows by each character
  induction cs generalizing shape front text with
  | nil =>
    cases hdigits
    rwa [List.append_nil]
  | cons c cs ih =>
    unfold Scan.digits at hdigits
    split at hdigits
    next hc =>
      split at hdigits
      · cases hdigits
      next next hnext =>
        split at hdigits
        next hmore =>
          cases hdigits
          rw [← List.singleton_append, ← List.append_assoc]
          exact ih (h.step hc hnext) hmore
        next => cases hdigits
    next =>
      cases hdigits
      rwa [List.append_nil]

/-- What was read where nothing of a number comes next is a literal, or `0x` alone. -/
theorem numberText (h : Read rest.head? final text) (hrest : NotNext isNumberChar rest)
    (hx : ¬ (final = .hexadecimal ∧ text = ['0', 'x'])) : NumberText final.kind text := by
  cases h with
  | zero => exact .decimal (.singleton rfl)
  | integer h => exact .decimal h
  | @fraction ds es hds hes hpoint =>
    refine .float hds ⟨fun hnil => ?_, hes⟩
    -- a point was read only in front of a digit, which would be next
    obtain ⟨c, hc, hdigit⟩ := (Option.any_eq_true _ _).1 (hpoint hnil)
    have hnumber := hrest c hc
    rw [isNumberChar_of_isDigit hdigit] at hnumber
    cases hnumber
  | hexadecimal h => exact .hexadecimal ⟨fun hnil => hx ⟨rfl, by rw [hnil]⟩, h⟩

end Shape.Read

/-! ## Every literal is accepted -/

/-- Hexadecimal digits go on with what stands behind `0x`. -/
theorem digits_hexDigits {hs : List Char} (hhs : hs.all isHexDigit = true)
    (hrest : NotNext isNumberChar rest) :
    digits .hexadecimal (hs ++ rest) = .ok (.hexadecimal, hs, rest) := by
  induction hs with
  | nil => exact digits_of_notNext hrest _
  | cons c hs ih =>
    rw [List.all_cons, Bool.and_eq_true] at hhs
    obtain ⟨hnumber, hpoint, hx⟩ := isHexDigit_iff.1 hhs.1
    have hnext : Shape.hexadecimal.next? c (hs ++ rest).head? = some .hexadecimal := by
      rw [Shape.next?, if_neg hpoint, if_neg hx]
      split <;> rfl
    rw [List.cons_append, digits, if_pos hnumber, hnext]
    dsimp only
    rw [ih hhs.2]

/-- **A literal is read to its end**, if nothing of a number comes next. -/
theorem digits_of_numberText {kind : TokenKind} (h : NumberText kind (c :: text))
    (hrest : NotNext isNumberChar rest) :
    ∃ final, digits (if c = '0' then .zero else .integer) (text ++ rest) = .ok (final, text, rest) ∧
      final.kind = kind ∧ ¬ (final = .hexadecimal ∧ text = ['x']) := by
  generalize hliteral : c :: text = literal at h
  cases h with
  | decimal h =>
    subst hliteral
    have htext : text.all Char.isDigit = true := (Bool.and_eq_true_iff.1 h.2).2
    obtain ⟨shape, hshape, hdigits⟩ := digits_leading c htext rest
    rw [digits_of_notNext hrest] at hdigits
    change _ = Except.ok (shape, text ++ [], rest) at hdigits
    rw [List.append_nil] at hdigits
    refine ⟨shape, hdigits, ?_⟩
    rcases hshape with rfl | rfl
    · exact ⟨rfl, fun hx => absurd hx.1 (by decide)⟩
    · exact ⟨rfl, fun hx => absurd hx.1 (by decide)⟩
  | @float ds es hds hes =>
    obtain ⟨d, ds, rfl⟩ := List.exists_cons_of_ne_nil hds.1
    rw [List.cons_append, List.cons.injEq] at hliteral
    obtain ⟨rfl, rfl⟩ := hliteral
    have htext : ds.all Char.isDigit = true := (Bool.and_eq_true_iff.1 hds.2).2
    -- digits leave an integer, which a point with digits behind it makes a fraction
    obtain ⟨shape, hshape, hdigits⟩ := digits_leading c htext ('.' :: (es ++ rest))
    rw [digits_point_digits hshape hes.1 hes.2, digits_of_notNext hrest] at hdigits
    change _ = Except.ok (Shape.fraction, ds ++ '.' :: (es ++ []), rest) at hdigits
    rw [List.append_nil] at hdigits
    refine ⟨.fraction, ?_, rfl, fun hx => absurd hx.1 (by decide)⟩
    rw [List.append_assoc]
    exact hdigits
  | @hexadecimal hs hhs =>
    cases hliteral
    refine ⟨.hexadecimal, ?_, rfl, fun hx => hhs.1 (List.cons.inj hx.2).2⟩
    have hnext : Shape.zero.next? 'x' (hs ++ rest).head? = some .hexadecimal := rfl
    have hnumber : isNumberChar 'x' = true := rfl
    rw [if_pos rfl, List.cons_append, digits, if_pos hnumber, hnext]
    dsimp only
    rw [digits_hexDigits hhs.2 hrest]

/-! ## Numbers -/

/-- **A number is scanned just if the run that its digit starts is a literal**, and then it
is the whole run. -/
theorem number_eq_ok_iff (hc : c.isDigit = true) {spaced : Bool} {s : Scan} :
    number spaced c cs = .ok s ↔ ∃ kind, NumberText kind (c :: cs.takeWhile isNumberChar) ∧
      s = plain kind (c :: cs.takeWhile isNumberChar) spaced (cs.dropWhile isNumberChar) := by
  constructor
  · intro h
    unfold number at h
    split at h
    · cases h
    next shape text rest hdigits =>
      split at h
      next => cases h
      next hx =>
        cases h
        have hread := (Shape.Read.first cs.head? hc).digits hdigits
        obtain ⟨rfl, rfl⟩ := digits_run hdigits
        refine ⟨_, hread.numberText (.dropWhile _ _) fun hcx => hx ⟨hcx.1, ?_⟩, rfl⟩
        exact (List.cons.inj hcx.2).2
  · rintro ⟨kind, hliteral, rfl⟩
    obtain ⟨final, hdigits, rfl, hx⟩ :=
      digits_of_numberText hliteral (.dropWhile isNumberChar cs)
    rw [List.takeWhile_append_dropWhile] at hdigits
    rw [number, hdigits]
    exact if_neg hx

/-- A number is refused for a character of that run, and what it marks begins in the run. -/
theorem number_eq_error {spaced : Bool} {fault : Cut} (h : number spaced c cs = .error fault) :
    ∃ d behind, fault.fault = .illegal d ∧ d ∈ behind ∧
      c :: cs.takeWhile isNumberChar = fault.before ++ behind := by
  unfold number at h
  split at h
  next before d hdigits =>
    cases h
    obtain ⟨more, hmore⟩ := digits_run_error hdigits
    exact ⟨d, d :: more, rfl, List.mem_cons_self, congrArg (c :: ·) hmore⟩
  next shape text rest hdigits =>
    split at h
    next hx =>
      cases h
      rw [← (digits_run hdigits).1, hx.2]
      exact ⟨'x', [c, 'x'], rfl, List.mem_cons_of_mem c List.mem_cons_self, rfl⟩
    next => cases h

end Scan

/-! ## Where the lexer comes to a character -/

section

variable {lineStart spaced : Bool} {passed cs tail lexeme word rest : List Char} {c d : Char}
  {kind : TokenKind}

/-- What is wrong where the lexer has come to is wrong with the whole text. -/
theorem Piece.Reaches.tokenize_of_fault {fault : Cut}
    (hreach : Reaches lineStart cs true (passed ++ cs)) (hc : cs.dropWhile isBlank = c :: tail)
    (hs : Scan.next lineStart (!(cs.takeWhile isBlank).isEmpty) c tail = .error fault) :
    tokenize (String.ofList (passed ++ cs)) =
      .error (fault.shift (passed ++ cs.takeWhile isBlank)).toError := by
  obtain ⟨front, hfront, hcut⟩ := hreach.exists_cut_eq
  obtain rfl := List.append_cancel_right hfront
  rw [cut_of_fault hc hs] at hcut
  refine tokenize_of_error ?_
  rw [String.toList_ofList, hcut]
  exact congrArg Except.error (by rw [Cut.shift, Cut.shift, Cut.shift, List.append_assoc])

/-- A token that the lexer cuts where it has come to is among the tokens of the text, and
what may be wrong with the text is so behind it. -/
theorem Piece.Reaches.mem_tokens (hreach : Reaches lineStart cs true (passed ++ cs))
    (hc : cs.dropWhile isBlank = c :: tail)
    (hs : Scan.next lineStart (!(cs.takeWhile isBlank).isEmpty) c tail =
      .ok ⟨[.token kind lexeme word spaced], rest⟩) :
    let start := Position.start.past (passed ++ cs.takeWhile isBlank)
    (∀ ts, tokenize (String.ofList (passed ++ cs)) = .ok ts →
      ⟨kind, String.ofList lexeme, ⟨start, start.past word⟩, spaced⟩ ∈ ts) ∧
    ∀ e, tokenize (String.ofList (passed ++ cs)) = .error e →
      (start.past word).offset ≤ e.span.start.offset := by
  intro start
  obtain ⟨front, hfront, hcut⟩ := hreach.exists_cut_eq
  obtain rfl := List.append_cancel_right hfront
  rw [cut_of_scan hc hs, ← behind_append] at hcut
  generalize Piece.cut _ rest = more at hcut
  have htext := (congrArg (Piece.cut true) String.toList_ofList).trans hcut
  have hword : textOf (front ++ [.gap (cs.takeWhile isBlank), .token kind lexeme word spaced]) =
      textOf front ++ cs.takeWhile isBlank ++ word := by
    simp [Piece.text]
  cases more with
  | ok more =>
    rw [tokenize_of_ok htext]
    refine ⟨fun ts hts => ?_, fun e he => absurd he (by simp)⟩
    cases hts
    rw [← List.cons_append, place_append, ← List.cons_append, place_append_token]
    refine List.mem_append_left _ (List.mem_append_right _ ?_)
    exact List.mem_singleton_self _
  | error fault =>
    rw [tokenize_of_error htext]
    refine ⟨fun ts hts => absurd hts (by simp), fun e he => ?_⟩
    cases he
    have hstart : (fault.shift (textOf front ++ cs.takeWhile isBlank ++ word)).toError.span.start =
        (start.past word).past fault.before := by
      refine (Position.past_append _ _ _).trans ?_
      exact congrArg (Position.past · fault.before) (Position.past_append _ _ _)
    rw [hword, hstart, Position.offset_past (start.past word)]
    exact Nat.le_add_right _ _

/-- **Number literals.** Let the lexer come to a digit. Of the characters that may stand in
a number, take as many as follow each other from there. If they are a literal, one token of
its kind is cut from them, and the text goes on behind it; whatever may be wrong with the
text is so behind it. If not, an illegal character is found among them. -/
theorem number_literals (hreach : Piece.Reaches lineStart cs true (passed ++ cs))
    (hmeets : cs.dropWhile isBlank = d :: tail) (hd : d.isDigit = true) :
    let blanks := cs.takeWhile isBlank
    let run := (d :: tail).takeWhile isNumberChar
    let rest := (d :: tail).dropWhile isNumberChar
    let text := String.ofList (passed ++ cs)
    let start := Position.start.past (passed ++ blanks)
    let stop := start.past run
    (∀ s, Scan.next lineStart (!blanks.isEmpty) d tail = .ok s ↔
      ∃ kind, NumberText kind run ∧ s = .plain kind run (!blanks.isEmpty) rest) ∧
    (∀ kind, NumberText kind run →
      (∀ ts, tokenize text = .ok ts →
        ⟨kind, String.ofList run, ⟨start, stop⟩, !blanks.isEmpty⟩ ∈ ts) ∧
      ∀ e, tokenize text = .error e → stop.offset ≤ e.span.start.offset) ∧
    ((∀ kind, ¬ NumberText kind run) → ∃ c ∈ run, ∃ e, tokenize text = .error e ∧
      e.fault = .illegal c ∧
      start.offset ≤ e.span.start.offset ∧ e.span.start.offset < stop.offset) := by
  intro blanks run rest text start stop
  have hnumber : isNumberChar d = true := Scan.isNumberChar_of_isDigit hd
  have hrun : run = d :: tail.takeWhile isNumberChar := List.takeWhile_cons_of_pos hnumber
  have hrest : rest = tail.dropWhile isNumberChar := List.dropWhile_cons_of_pos hnumber
  have hnext := @Scan.next_digit d tail lineStart (!blanks.isEmpty) hd
  have hscan (s : Scan) : Scan.next lineStart (!blanks.isEmpty) d tail = .ok s ↔
      ∃ kind, NumberText kind run ∧ s = .plain kind run (!blanks.isEmpty) rest := by
    rw [hnext, hrun, hrest]
    exact Scan.number_eq_ok_iff hd
  refine ⟨hscan, fun kind hliteral => ?_, fun hliteral => ?_⟩
  · exact hreach.mem_tokens hmeets ((hscan _).2 ⟨kind, hliteral, rfl⟩)
  · cases hs : Scan.next lineStart (!blanks.isEmpty) d tail with
    | ok s =>
      obtain ⟨kind, hkind, -⟩ := (hscan s).1 hs
      exact absurd hkind (hliteral kind)
    | error fault =>
      obtain ⟨c, behind, hfault, hc, hbehind⟩ := Scan.number_eq_error (hnext ▸ hs)
      rw [← hrun] at hbehind
      have hmem : c ∈ run := hbehind ▸ List.mem_append_right _ hc
      have hlength : 0 < behind.length := List.length_pos_of_mem hc
      refine ⟨c, hmem, _, hreach.tokenize_of_fault hmeets hs, hfault, ?_⟩
      have hstart : (fault.shift (passed ++ blanks)).toError.span.start =
        start.past fault.before := Position.past_append _ _ _
      have hlengths : run.length = fault.before.length + behind.length := by
        rw [hbehind, List.length_append]
      have hoffset := Position.offset_past start fault.before
      have hstop : stop.offset = start.offset + run.length := Position.offset_past start run
      rw [hstart]
      omega

/-- `0x1F` is a literal up to the `g` behind it, and a second point is illegal. -/
theorem number_literals_accepted_and_refused :
    (∃ ts, tokenize "n := 0x1Fg" = .ok ts ∧
      ⟨.hexadecimal, "0x1F", ⟨⟨5, 1, 6⟩, ⟨9, 1, 10⟩⟩, true⟩ ∈ ts) ∧
    ∃ e c, tokenize "1.2.3" = .error e ∧ e.fault = .illegal c ∧ e.span.start.offset < 5 := by
  constructor
  · have hreach : Piece.Reaches false " 0x1Fg".toList true ("n :=".toList ++ " 0x1Fg".toList) :=
      .scan rfl rfl (.scan rfl rfl .here)
    have hliteral : NumberText .hexadecimal "0x1F".toList := .hexadecimal ⟨List.cons_ne_nil _ _, rfl⟩
    have hok : (tokenize "n := 0x1Fg").toBool = true := by decide +kernel
    cases hts : tokenize "n := 0x1Fg" with
    | error e => rw [hts] at hok; cases hok
    | ok ts => exact ⟨ts, rfl, ((number_literals hreach rfl rfl).2.1 _ hliteral).1 ts hts⟩
  · have hreach : Piece.Reaches true "1.2.3".toList true ([] ++ "1.2.3".toList) := .here
    obtain ⟨hscan, -, hillegal⟩ := number_literals hreach rfl rfl
    obtain ⟨c, -, e, he, hfault, -, hlt⟩ := hillegal fun kind hliteral =>
      nomatch (hscan _).2 ⟨kind, hliteral, rfl⟩
    exact ⟨e, c, he, hfault, hlt⟩

end

end HotkeyScript
