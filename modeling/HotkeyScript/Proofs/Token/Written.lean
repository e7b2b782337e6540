import HotkeyScript.Number.Literal
import HotkeyScript.Proofs.Number.Digits
import HotkeyScript.Proofs.Token.Comment
import HotkeyScript.Proofs.Token.Form
import HotkeyScript.Proofs.Token.Lines
/-!
# Tokens — texts that are written token by token

A text is written as marks: each is what one token is cut from, with the blanks in
front of it. Where a scan takes just the mark off the front of what is written
behind it (`Wording.ReadBefore`), the tokens of the text are those of its marks
(`Mark.tokenize_of_scanned`).

What has to stand behind a name, a decimal or a quoted text for a scan to end with
it is said by the class that the next character is not of (`Text.NotNext`).
-/

namespace HotkeyScript

open Text

/-! ## What comes next -/

/-- No character of a class comes next. -/
def Text.NotNext (p : Char → Bool) (rest : List Char) : Prop := ∀ c ∈ rest.head?, p c = false

namespace Text.NotNext

variable {p : Char → Bool} {w rest : List Char}

theorem nil (p : Char → Bool) : NotNext p [] := fun _ hc => nomatch hc

theorem cons {c : Char} (h : p c = false) (rest : List Char) : NotNext p (c :: rest) := by
  intro d hd
  cases hd
  exact h

/-- The front of a class ends where none of it comes next. -/
theorem takeWhile_append (h : NotNext p rest) (hw : w.all p = true) :
    (w ++ rest).takeWhile p = w := by
  rw [List.takeWhile_append_of_pos (List.all_eq_true.1 hw)]
  cases rest with
  | nil => exact List.append_nil w
  | cons c rest =>
    rw [List.takeWhile_cons, h c rfl]
    exact List.append_nil w

theorem dropWhile_append (h : NotNext p rest) (hw : w.all p = true) :
    (w ++ rest).dropWhile p = rest := by
  rw [List.dropWhile_append_of_pos (List.all_eq_true.1 hw)]
  cases rest with
  | nil => rfl
  | cons c rest => rw [List.dropWhile_cons, h c rfl]; rfl

/-- Behind the front of a class none of it comes next. -/
theorem dropWhile (p : Char → Bool) (cs : List Char) : NotNext p (cs.dropWhile p) := by
  intro c hc
  have hnot := List.head?_dropWhile_not p cs
  rw [Option.mem_def.1 hc] at hnot
  simpa using hnot

end Text.NotNext

/-! ## Marks -/

/-- What a token is cut from, wherever it stands. -/
structure Wording where
  kind : TokenKind
  lexeme : List Char
  text : List Char

/-- A wording with the blanks in front of it. -/
structure Mark extends Wording where
  blanks : List Char

/-- A wording whose lexeme is its text. -/
def Wording.plain (kind : TokenKind) (text : List Char) : Wording := ⟨kind, text, text⟩

/-- In front of a text, a scan takes just the wording. -/
def Wording.ReadBefore (s : Wording) (rest : List Char) : Prop :=
  ∃ c t, s.text = c :: t ∧ isBlank c = false ∧ s.kind ≠ .lineEnd ∧
    ∀ lineStart spaced, Scan.next lineStart spaced c (t ++ rest) =
      .ok ⟨[.token s.kind s.lexeme s.text spaced], rest⟩

namespace Mark

/-- A mark as it is written. -/
def written (m : Mark) : List Char := m.blanks ++ m.text

/-- Marks as they are written one behind the other. -/
def textOf (ms : List Mark) : List Char := ms.flatMap written

@[simp] theorem textOf_nil : textOf [] = [] := rfl

@[simp] theorem textOf_cons (m : Mark) (ms : List Mark) :
    textOf (m :: ms) = m.written ++ textOf ms := rfl

@[simp] theorem textOf_append (ms ns : List Mark) : textOf (ms ++ ns) = textOf ms ++ textOf ns :=
  List.flatMap_append

/-- The pieces that a mark is cut into. -/
def pieces (m : Mark) : List Piece :=
  [.gap m.blanks, .token m.kind m.lexeme m.text (!m.blanks.isEmpty)]

/-- The token of a mark that is written from a position on. -/
def token (p : Position) (m : Mark) : Token :=
  ⟨m.kind, String.ofList m.lexeme, ⟨p.past m.blanks, p.past m.written⟩, !m.blanks.isEmpty⟩

/-- The tokens of marks that are written one behind the other from a position on. -/
def tokens (p : Position) : List Mark → List Token
  | [] => []
  | m :: ms => m.token p :: tokens (p.past m.written) ms

/-- Each of some marks is scanned in front of those behind it and of a rest. -/
def Scanned (rest : List Char) : List Mark → Prop
  | [] => True
  | m :: ms => m.blanks.all isBlank = true ∧ m.ReadBefore (textOf ms ++ rest) ∧ Scanned rest ms

/-- The tokens of marks are of the kinds of the marks. -/
theorem map_kind_tokens (p : Position) (ms : List Mark) :
    (tokens p ms).map Token.kind = ms.map fun m => m.kind := by
  induction ms generalizing p with
  | nil => rfl
  | cons m ms ih => rw [tokens, List.map_cons, List.map_cons, ih]; rfl

/-- A kind that no mark is of is that of no token. -/
theorem kind_ne_of_mem_tokens {p : Position} {ms : List Mark} {kind : TokenKind}
    (h : ∀ m ∈ ms, m.kind ≠ kind) : ∀ t ∈ tokens p ms, t.kind ≠ kind := by
  intro t ht htkind
  have hmem : t.kind ∈ ms.map fun m => m.kind := map_kind_tokens p ms ▸ List.mem_map_of_mem ht
  obtain ⟨m, hm, hmkind⟩ := List.mem_map.1 hmem
  exact h m hm (hmkind.trans htkind)

theorem scanned_append {rest : List Char} {ms ns : List Mark} :
    Scanned rest (ms ++ ns) ↔ Scanned (textOf ns ++ rest) ms ∧ Scanned rest ns := by
  induction ms with
  | nil => exact (and_iff_right trivial).symm
  | cons m ms ih =>
    rw [List.cons_append, Scanned, Scanned, ih, textOf_append, List.append_assoc]
    exact ⟨fun ⟨h, h', h'', hn⟩ => ⟨⟨h, h', h''⟩, hn⟩, fun ⟨⟨h, h', h''⟩, hn⟩ => ⟨h, h', h'', hn⟩⟩

/-- The pieces of marks are placed as their tokens. -/
theorem place_pieces (p : Position) (ms : List Mark) (ps : List Piece) :
    Piece.place p (ms.flatMap pieces ++ ps) =
      tokens p ms ++ Piece.place (p.past (textOf ms)) ps := by
  induction ms generalizing p with
  | nil => rfl
  | cons m ms ih =>
    rw [List.flatMap_cons, List.append_assoc, textOf_cons, Position.past_append]
    simp only [pieces, List.cons_append, List.nil_append, Piece.place, tokens, token, written,
      Position.past_append, ih]

/-- **Marks are cut one by one**, and behind them the rest is cut. -/
theorem cut_of_scanned {rest : List Char} {ms : List Mark} (h : Scanned rest ms)
    (lineStart : Bool) : ∃ restStart, Piece.cut lineStart (textOf ms ++ rest) =
      Piece.behind (ms.flatMap pieces) (Piece.cut restStart rest) := by
  induction ms generalizing lineStart with
  | nil => exact ⟨lineStart, (Piece.behind_nil _).symm⟩
  | cons m ms ih =>
    obtain ⟨hblanks, ⟨c, t, htext, hc, hkind, hnext⟩, hms⟩ := h
    obtain ⟨restStart, hrest⟩ := ih hms false
    refine ⟨restStart, ?_⟩
    obtain ⟨ht, hd⟩ := Piece.takeWhile_blanks (List.all_eq_true.1 hblanks) hc
      (t ++ (textOf ms ++ rest))
    have hstart : Scan.startsLine ⟨[.token m.kind m.lexeme m.text (!m.blanks.isEmpty)],
        textOf ms ++ rest⟩ lineStart = false := by
      simpa [Scan.startsLine] using hkind
    have hcut := Piece.cut_of_scan hd (ht.symm ▸ hnext lineStart (!m.blanks.isEmpty))
    rw [ht, hstart, hrest, ← Piece.behind_append] at hcut
    rw [textOf_cons, written, htext, List.append_assoc, List.append_assoc, List.cons_append, hcut]
    rfl

/-- The start of a file. -/
def fileStart : Token := ⟨.fileStart, "", ⟨.start, .start⟩, false⟩

/-- The end of a file that ends without blanks. -/
def fileEnd (p : Position) : Token := ⟨.fileEnd, "", ⟨p, p⟩, false⟩

/-- **The tokens of a text that is written as marks are those of the marks.** -/
theorem tokenize_of_scanned {ms : List Mark} (h : Scanned [] ms) :
    tokenize (String.ofList (textOf ms)) =
      .ok (fileStart :: tokens .start ms ++ [fileEnd (Position.start.past (textOf ms))]) := by
  obtain ⟨restStart, hcut⟩ := cut_of_scanned h true
  have hend : Piece.cut restStart [] = .ok [.gap [], .token .fileEnd [] [] false] := by
    rw [Piece.cut]
    rfl
  rw [List.append_nil, hend] at hcut
  have htext : Piece.cut true (String.ofList (textOf ms)).toList =
      .ok (ms.flatMap pieces ++ [.gap [], .token .fileEnd [] [] false]) := by
    rw [String.toList_ofList, hcut]
    rfl
  rw [tokenize_of_ok htext, Piece.place, place_pieces]
  rfl

/-- What is wrong behind marks is wrong in the whole text. -/
theorem tokenize_of_fault {rest : List Char} {ms : List Mark} (h : Scanned rest ms)
    {fault : LexicalFault} (hrest : ∀ lineStart, ∃ cut, Piece.cut lineStart rest = .error cut ∧
      cut.fault = fault) :
    ∃ e, tokenize (String.ofList (textOf ms ++ rest)) = .error e ∧ e.fault = fault := by
  obtain ⟨restStart, hcut⟩ := cut_of_scanned h true
  obtain ⟨cut, hfault, rfl⟩ := hrest restStart
  have htext : Piece.cut true (String.ofList (textOf ms ++ rest)).toList =
      .error (cut.shift (Piece.textOf (ms.flatMap pieces))) := by
    rw [String.toList_ofList, hcut, hfault]
    rfl
  exact ⟨_, tokenize_of_error htext, rfl⟩

end Mark

/-! ## Scans by their first character -/

namespace Scan

variable {c : Char} {cs : List Char}

/-- A character that a class has, and another has not. -/
theorem ne_of_class {p : Char → Bool} {d : Char} (hd : p d = false) (hc : p c = true) : c ≠ d := by
  rintro rfl
  rw [hd] at hc
  cases hc

/-- No character of names is a token of its own. -/
theorem punctuation?_of_isNameChar (hc : isNameChar c = true) : punctuation? c = none := by
  unfold punctuation?
  split <;> first | rfl | exact absurd hc (by decide)

theorem isNameChar_of_isDigit (hc : c.isDigit = true) : isNameChar c = true := by
  simp [isNameChar, Char.isAlphanum, hc]

theorem isNumberChar_of_isDigit (hc : c.isDigit = true) : isNumberChar c = true := by
  simp [isNumberChar, hc]

theorem isNameChar_of_isNameStart (hc : isNameStart c = true) : isNameChar c = true := by
  simp only [isNameStart, Bool.or_eq_true] at hc
  rcases hc with hc | hc <;> simp [isNameChar, Char.isAlphanum, hc]

theorem isBlank_of_isNameChar (hc : isNameChar c = true) : isBlank c = false := by
  cases hb : isBlank c with
  | false => rfl
  | true =>
    simp only [isBlank, Bool.or_eq_true, beq_iff_eq] at hb
    rcases hb with (rfl | rfl) | rfl <;> cases hc

/-- A digit starts a number. -/
theorem next_digit (lineStart spaced : Bool) (hc : c.isDigit = true) :
    next lineStart spaced c cs = number spaced c cs := by
  have hne {d : Char} (hd : d.isDigit = false) : c ≠ d := ne_of_class hd hc
  rw [next, punctuation?_of_isNameChar (isNameChar_of_isDigit hc)]
  dsimp only
  rw [if_neg (hne rfl), if_neg (hne rfl), if_neg (hne rfl), if_neg (hne rfl), if_neg (hne rfl),
    if_neg (hne rfl), if_pos hc]

/-- No name starts with a digit. -/
theorem isDigit_of_isNameStart (hc : isNameStart c = true) : c.isDigit = false := by
  cases hd : c.isDigit with
  | false => rfl
  | true =>
    have hdigit : 48 ≤ c.toNat ∧ c.toNat ≤ 57 := Char.isDigit_iff_toNat.1 hd
    simp only [isNameStart, isNameSymbol, Bool.or_eq_true, beq_iff_eq] at hc
    obtain hletter | ((rfl | rfl) | rfl) | rfl := hc
    · obtain hupper | hlower := Bool.or_eq_true_iff.1 hletter
      · have hrange : 65 ≤ c.toNat ∧ c.toNat ≤ 90 := of_decide_eq_true hupper
        omega
      · have hfrom : 97 ≤ c.toNat := of_decide_eq_true (Bool.and_eq_true_iff.1 hlower).1
        omega
    all_goals cases hd

/-- What names start with starts a word. -/
theorem next_nameStart (lineStart spaced : Bool) (hc : isNameStart c = true) :
    next lineStart spaced c cs = .ok (word spaced c cs) := by
  have hne {d : Char} (hd : isNameStart d = false) : c ≠ d := ne_of_class hd hc
  have hdigit : ¬ c.isDigit = true := by simp [isDigit_of_isNameStart hc]
  rw [next, punctuation?_of_isNameChar (isNameChar_of_isNameStart hc)]
  dsimp only
  rw [if_neg (hne rfl), if_neg (hne rfl), if_neg (hne rfl), if_neg (hne rfl), if_neg (hne rfl),
    if_neg (hne rfl), if_neg hdigit, if_pos hc]

/-! ## Numbers and strings -/

/-- The shape of a number literal behind further digits. -/
def Shape.past (shape : Shape) (ds : List Char) : Shape :=
  if shape = .zero ∧ ds.isEmpty = false then .integer else shape

/-- Digits go on with any literal. -/
theorem digits_append_digits {ds : List Char} (hds : ds.all Char.isDigit = true) (shape : Shape)
    (rest : List Char) : digits shape (ds ++ rest) =
      ((digits (shape.past ds) rest).map fun r => (r.1, ds ++ r.2.1, r.2.2)).mapError
        fun e => (ds ++ e.1, e.2) := by
  induction ds generalizing shape with
  | nil =>
    have hshape : shape.past [] = shape := if_neg fun h => nomatch h.2
    rw [hshape, List.nil_append]
    cases digits shape rest <;> rfl
  | cons c ds ih =>
    simp only [List.all_cons, Bool.and_eq_true] at hds
    have hnumber : isNumberChar c = true := isNumberChar_of_isDigit hds.1
    have hnext : shape.next? c (ds ++ rest).head? =
        some (if shape = .zero then .integer else shape) := by
      rw [Shape.next?, if_pos hds.1]
    have hshape : Shape.past (if shape = .zero then .integer else shape) ds =
        shape.past (c :: ds) := by
      unfold Shape.past
      cases shape <;> simp
    rw [List.cons_append, digits, if_pos hnumber, hnext]
    dsimp only
    rw [ih hds.2, hshape]
    cases digits (shape.past (c :: ds)) rest <;> rfl

/-- The shape of a literal behind the digits that it starts with. -/
theorem digits_leading (c : Char) {ds : List Char} (hds : ds.all Char.isDigit = true)
    (rest : List Char) : ∃ shape, (shape = .zero ∨ shape = .integer) ∧
      digits (if c = '0' then .zero else .integer) (ds ++ rest) =
        ((digits shape rest).map fun r => (r.1, ds ++ r.2.1, r.2.2)).mapError
          fun e => (ds ++ e.1, e.2) := by
  refine ⟨_, ?_, digits_append_digits hds _ rest⟩
  generalize hshape : (if c = '0' then Shape.zero else .integer) = shape
  have hshape : shape = .zero ∨ shape = .integer := by
    split at hshape
    · exact .inl hshape.symm
    · exact .inr hshape.symm
  unfold Shape.past
  split
  · exact .inr rfl
  · exact hshape

/-- A point with digits behind it goes on with an integer. -/
theorem digits_point_digits {shape : Shape} (hshape : shape = .zero ∨ shape = .integer)
    {ds : List Char} (hne : ds ≠ []) (hds : ds.all Char.isDigit = true) (rest : List Char) :
    digits shape ('.' :: (ds ++ rest)) =
      ((digits .fraction rest).map fun r => (r.1, '.' :: (ds ++ r.2.1), r.2.2)).mapError
        fun e => ('.' :: (ds ++ e.1), e.2) := by
  have hnumber : isNumberChar '.' = true := rfl
  have hnext : shape.next? '.' (ds ++ rest).head? = some .fraction := by
    obtain ⟨d, ds, rfl⟩ := List.exists_cons_of_ne_nil hne
    rw [Shape.next?, if_neg (by decide), if_pos rfl, if_pos]
    exact ⟨hshape, (Bool.and_eq_true_iff.1 hds).1⟩
  have hpast : Shape.past .fraction ds = .fraction := by
    rw [Shape.past, if_neg]
    rintro ⟨hzero, -⟩
    cases hzero
  rw [digits, if_pos hnumber, hnext]
  dsimp only
  rw [digits_append_digits hds, hpast]
  cases digits .fraction rest <;> rfl

/-- A number literal ends where nothing of a number comes next. -/
theorem digits_of_notNext {rest : List Char} (h : NotNext isNumberChar rest) (shape : Shape) :
    digits shape rest = .ok (shape, [], rest) := by
  cases rest with
  | nil => rfl
  | cons c rest => rw [digits, h c rfl]; rfl

/-- The inside of a quoted text as it is written, with each quote doubled. -/
def doubled (cs : List Char) : List Char := cs.flatMap fun c => if c = '"' then ['"', '"'] else [c]

/-- A quoted text ends at a quote that is not doubled, and doubled quotes stand for
one. -/
theorem string?_doubled {cs rest : List Char} (hcs : '\n' ∉ cs)
    (hrest : NotNext (· == '"') rest) :
    string? (doubled cs ++ '"' :: rest) = some (cs, doubled cs ++ ['"'], rest) := by
  induction cs with
  | nil =>
    cases rest with
    | nil => rfl
    | cons c rest => exact string?_quote (beq_eq_false_iff_ne.1 (hrest c rfl)) rest
  | cons c cs ih =>
    simp only [List.mem_cons, not_or] at hcs
    have hdoubled : doubled (c :: cs) = (if c = '"' then ['"', '"'] else [c]) ++ doubled cs := rfl
    rw [hdoubled]
    by_cases hc : c = '"'
    · rw [if_pos hc, List.append_assoc, hc]
      change string? ('"' :: '"' :: (doubled cs ++ '"' :: rest)) = _
      rw [string?, ih hcs.2]
      rfl
    · rw [if_neg hc, List.append_assoc]
      change string? (c :: (doubled cs ++ '"' :: rest)) = _
      rw [string?_char hc (Ne.symm hcs.1), ih hcs.2]
      rfl

end Scan

/-! ## Wordings -/

namespace Wording

variable {c : Char} {w rest : List Char} {kind : TokenKind}

/-- A token of one character is read in front of everything. -/
theorem readBefore_punctuation (h : Scan.punctuation? c = some kind) (hkind : kind ≠ .lineEnd)
    (rest : List Char) : (plain kind [c]).ReadBefore rest := by
  refine ⟨c, [], rfl, ?_, hkind, fun lineStart spaced => ?_⟩
  · cases hb : isBlank c with
    | false => rfl
    | true =>
      simp only [isBlank, Bool.or_eq_true, beq_iff_eq] at hb
      rcases hb with (rfl | rfl) | rfl <;> cases h
  · rw [Scan.next, h]
    rfl

/-- A word is read in front of what does not go on with it. -/
theorem readBefore_word (hc : isNameStart c = true) (hw : w.all isNameChar = true)
    (hkind : (TokenKind.ofWord? (String.ofList (c :: w))).getD .identifier = kind)
    (hcommand : kind ≠ .command) (hrest : NotNext isNameChar rest) :
    (plain kind (c :: w)).ReadBefore rest := by
  refine ⟨c, w, rfl, Scan.isBlank_of_isNameChar (Scan.isNameChar_of_isNameStart hc),
    hkind ▸ (Scan.inner_ofWord? _).2.2, fun lineStart spaced => ?_⟩
  rw [Scan.next_nameStart lineStart spaced hc, Scan.word]
  dsimp only
  rw [hrest.takeWhile_append hw, hrest.dropWhile_append hw, hkind, if_neg hcommand]
  rfl

/-- A star that closes no comment is a token of its own. -/
theorem readBefore_times (hrest : NotNext (· == '/') rest) :
    (plain .times ['*']).ReadBefore rest := by
  refine ⟨'*', [], rfl, rfl, nofun, fun lineStart spaced => ?_⟩
  change Except.ok (Scan.star spaced rest) = _
  unfold Scan.star
  split
  next cs => cases hrest '/' rfl
  next => rfl

/-- A slash that opens no comment is a token of its own. -/
theorem readBefore_divide (hrest : NotNext (· == '*') rest) :
    (plain .divide ['/']).ReadBefore rest := by
  refine ⟨'/', [], rfl, rfl, nofun, fun lineStart spaced => ?_⟩
  change Scan.slash lineStart spaced rest = _
  unfold Scan.slash
  split
  next cs => cases hrest '*' rfl
  next => rfl

/-- A quoted text is read in front of what is no quote. -/
theorem readBefore_quoted {cs : List Char} (hcs : '\n' ∉ cs) (hrest : NotNext (· == '"') rest) :
    ReadBefore ⟨.quoted, unescape cs, '"' :: (Scan.doubled cs ++ ['"'])⟩ rest := by
  refine ⟨'"', Scan.doubled cs ++ ['"'], rfl, rfl, nofun, fun lineStart spaced => ?_⟩
  have hstring : Scan.string? (Scan.doubled cs ++ (['"'] ++ rest)) =
      some (cs, Scan.doubled cs ++ ['"'], rest) := Scan.string?_doubled hcs hrest
  change Scan.quote spaced _ = _
  rw [List.append_assoc, Scan.quote, hstring]

end Wording

/-! ## Names and decimals -/

/-- The text of a name: it starts as names do, goes on as they do, and is no word
with a meaning of its own. -/
structure NameText where
  first : Char
  others : List Char
  starts : isNameStart first = true
  goesOn : others.all isNameChar = true
  free : TokenKind.ofWord? (String.ofList (first :: others)) = none

/-- The characters of a name. -/
def NameText.text (n : NameText) : List Char := n.first :: n.others

/-- How a name is spelled. -/
def NameText.wording (n : NameText) : Wording := .plain .identifier n.text

theorem NameText.readBefore (n : NameText) {rest : List Char} (h : NotNext isNameChar rest) :
    n.wording.ReadBefore rest :=
  Wording.readBefore_word n.starts n.goesOn (by rw [n.free]; rfl) nofun h

/-- The text of a decimal integer that fits into a word. -/
structure DecimalText where
  first : Char
  others : List Char
  isDigit : first.isDigit = true
  areDigits : others.all Char.isDigit = true
  fits : (Nat.ofDigitChars 10 (first :: others) 0 : Int) ≤ Int64.maxValue.toInt

namespace DecimalText

variable (d : DecimalText)

/-- The digits of a decimal integer. -/
def text : List Char := d.first :: d.others

/-- The integer that the digits denote. -/
def value : Int64 := Int64.ofInt (Nat.ofDigitChars 10 d.text 0)

/-- How a decimal integer is spelled. -/
def wording : Wording := .plain .decimal d.text

/-- The shape of a literal that starts with the decimal. -/
theorem digits_others (rest : List Char) : ∃ shape, (shape = .zero ∨ shape = .integer) ∧
    Scan.digits (if d.first = '0' then .zero else .integer) (d.others ++ rest) =
      ((Scan.digits shape rest).map fun r => (r.1, d.others ++ r.2.1, r.2.2)).mapError
        fun e => (d.others ++ e.1, e.2) :=
  Scan.digits_leading d.first d.areDigits rest

theorem readBefore {rest : List Char} (h : NotNext isNumberChar rest) :
    d.wording.ReadBefore rest := by
  refine ⟨d.first, d.others, rfl, Scan.isBlank_of_isNameChar (Scan.isNameChar_of_isDigit d.isDigit),
    nofun, fun lineStart spaced => ?_⟩
  obtain ⟨shape, hshape, hdigits⟩ := d.digits_others rest
  rw [Scan.digits_of_notNext h] at hdigits
  change _ = Except.ok (shape, d.others ++ [], rest) at hdigits
  rw [Scan.next_digit lineStart spaced d.isDigit, Scan.number, hdigits, List.append_nil]
  rcases hshape with rfl | rfl <;> rfl

/-- A decimal that fits is read as the integer that its digits denote. -/
theorem read?_eq : Number.read? .decimal d.text = some (.decimal d.value) := by
  have hall : d.text.all Char.isDigit = true := by
    simp [text, d.isDigit, d.areDigits]
  have hnatural : Decimal.natural? 10 d.text = some (Nat.ofDigitChars 10 d.text 0) :=
    Decimal.accumulate_eq_some_iff.2 ⟨List.all_eq_true.1 hall, rfl⟩
  have hinteger : Decimal.integer? 10 d.text = some (Nat.ofDigitChars 10 d.text 0 : Int) := by
    have hsign {c : Char} (hc : c.isDigit = false) : d.first ≠ c := Scan.ne_of_class hc d.isDigit
    rw [Decimal.integer?, hnatural]
    · rfl
    · rintro cs hcs
      exact hsign rfl (List.cons.inj hcs).1
    · rintro cs hcs
      exact hsign rfl (List.cons.inj hcs).1
  have hword : word? (Nat.ofDigitChars 10 d.text 0 : Int) = some d.value :=
    if_pos ⟨by have hmin : Int64.minValue.toInt ≤ 0 := by decide
               omega, d.fits⟩
  rw [Number.read?, hinteger, Option.bind_some, hword]
  rfl

end DecimalText

end HotkeyScript
