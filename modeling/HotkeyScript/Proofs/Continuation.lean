import HotkeyScript.Proofs.Text.Lines
import HotkeyScript.Proofs.Token.Comment
import HotkeyScript.Proofs.Token.Lines
import HotkeyScript.Session.Entry
/-!
# Entries that go on

Whether an entry needs another line is decided without the lexer, line by line:
quotes turn each other on and off, and a `;` starts a comment at the start of a
line or behind a gap. The lexer takes a `;` for the start of a comment wherever a
token may begin. The two count the same braces on the texts whose comments are all
set apart by a gap or a line break (`Entry.needsMore_iff_more_open`), and not on
others (`Entry.needsMore_attachedComment`).

The proof goes along the cut of a text. What the count has come to in front of a
scan is a pair, whether it is inside quotes and which character it saw last; behind
a scan it is outside quotes again, and what it counted on the way are the braces
among the tokens of the scan (`Entry.counts_next`).
-/

namespace HotkeyScript

open Text

namespace Entry

/-! ## The count over a whole text -/

/-- The balance of the lines of a text. -/
def linesBalance (cs : List Char) : Int :=
  (lines cs).foldr (fun line balance => braceBalance false ' ' line + balance) 0

/-- An entry goes on while more braces are open than closed. -/
theorem needsMore_eq (text : String) :
    needsMore text = decide (0 < linesBalance text.toList) := by
  have hfold (ls : List (List Char)) (n : Int) :
      ls.foldl (fun balance line => balance + braceBalance false ' ' line) n =
        n + ls.foldr (fun line balance => braceBalance false ' ' line + balance) 0 := by
    induction ls generalizing n with
    | nil => exact (Int.add_zero n).symm
    | cons l ls ih => rw [List.foldl_cons, ih, List.foldr_cons, Int.add_assoc]
  rw [needsMore, hfold, Int.zero_add, linesBalance]

/-- The balance of the rest of a line and of the lines behind it. -/
def countFrom (quoted : Bool) (before : Char) (cs : List Char) : Int :=
  braceBalance quoted before (thisLine cs) + linesBalance (fromLineEnd cs).tail

/-- A carriage return at the end of a line counts for nothing. -/
theorem braceBalance_return (quoted : Bool) (before : Char) (cs : List Char) :
    braceBalance quoted before (cs ++ ['\r']) = braceBalance quoted before cs := by
  induction cs generalizing quoted before with
  | nil => cases quoted <;> rfl
  | cons c cs ih => simp only [List.cons_append, braceBalance, ih]

/-- Lines are counted one by one, which is to count the text from its start: a carriage
return in front of a line feed is no matter. -/
theorem linesBalance_eq (cs : List Char) : linesBalance cs = countFrom false ' ' cs := by
  by_cases hcs : cs = []
  · subst hcs
    rfl
  · obtain ⟨l, hl, hline⟩ := exists_lines_eq hcs
    have hb : braceBalance false ' ' (thisLine cs) = braceBalance false ' ' l := by
      obtain h | h := hline
      · rw [h]
      · rw [h, braceBalance_return]
    rw [countFrom, linesBalance, hl, List.foldr_cons, hb, linesBalance]

/-! ## The count over some text -/

/-- The character in front of what follows a text, where a line starts as if behind
a space. -/
def charBefore (before : Char) (cs : List Char) : Char :=
  cs.foldl (fun _ c => if c = '\n' then ' ' else c) before

theorem charBefore_append (before : Char) (cs ds : List Char) :
    charBefore before (cs ++ ds) = charBefore (charBefore before cs) ds := List.foldl_append

/-- A character that counts for nothing wherever it stands outside quotes. -/
def Quiet (c : Char) : Prop := c ≠ '"' ∧ c ≠ ';' ∧ c ≠ '\x7b' ∧ c ≠ '\x7d' ∧ c ≠ '\n'

section

variable {c before : Char} {quoted : Bool} {cs : List Char}

/-- A class of characters is quiet if none of the five that count is in it. -/
theorem quiet_of {p : Char → Bool} (hp : ['"', ';', '\x7b', '\x7d', '\n'].any p = false)
    (hc : p c = true) : Quiet c := by
  rw [List.any_eq_false] at hp
  refine ⟨?_, ?_, ?_, ?_, ?_⟩ <;> rintro rfl <;> exact hp _ (by decide) hc

/-- A line feed ends quotes and comments. -/
theorem countFrom_break (before : Char) (quoted : Bool) (cs : List Char) :
    countFrom quoted before ('\n' :: cs) = countFrom false ' ' cs := by
  rw [← linesBalance_eq]
  exact Int.zero_add _

/-- At the end of a line it is no matter which character came last. -/
theorem countFrom_atLineEnd (h : Scan.AtLineEnd cs) (before before' : Char) :
    countFrom false before cs = countFrom false before' cs := by
  obtain rfl | ⟨r, rfl⟩ := h
  · rfl
  · rw [countFrom_break, countFrom_break]

theorem countFrom_cons (hc : c ≠ '\n') : countFrom quoted before (c :: cs) =
    braceBalance quoted before (c :: thisLine cs) + linesBalance (fromLineEnd cs).tail := by
  obtain ⟨hline, hend⟩ := line_cons hc cs
  rw [countFrom, hline, hend]

theorem countFrom_quiet (hc : Quiet c) (before : Char) (cs : List Char) :
    countFrom false before (c :: cs) = countFrom false c cs := by
  obtain ⟨hq, hs, ho, hcl, hn⟩ := hc
  rw [countFrom_cons hn, braceBalance, if_neg hq, if_neg Bool.false_ne_true,
    if_neg fun h => hs h.1, if_neg ho, if_neg hcl, countFrom]

/-- Quiet characters are only remembered as the last that was seen. -/
theorem countFrom_quiet_append {w : List Char} (hw : ∀ c ∈ w, Quiet c) (before : Char)
    (cs : List Char) :
    countFrom false before (w ++ cs) = countFrom false (charBefore before w) cs := by
  induction w generalizing before with
  | nil => rfl
  | cons c w ih =>
    obtain ⟨hc, hw⟩ := List.forall_mem_cons.1 hw
    have hb : charBefore before (c :: w) = charBefore c w :=
      congrArg (charBefore · w) (if_neg hc.2.2.2.2)
    rw [List.cons_append, countFrom_quiet hc, ih hw, hb]

theorem countFrom_open (before : Char) (cs : List Char) :
    countFrom false before ('\x7b' :: cs) = countFrom false '\x7b' cs + 1 := by
  rw [countFrom_cons (by decide), countFrom, Int.add_right_comm]
  rfl

theorem countFrom_close (before : Char) (cs : List Char) :
    countFrom false before ('\x7d' :: cs) = countFrom false '\x7d' cs - 1 := by
  rw [countFrom_cons (by decide), countFrom, Int.sub_eq_add_neg, Int.add_right_comm]
  rfl

/-- A comment that is set apart counts for nothing. -/
theorem countFrom_comment (h : isGap before = true) (cs : List Char) :
    countFrom false before (';' :: cs) = countFrom false ' ' (fromLineEnd cs) := by
  have hend : thisLine (fromLineEnd cs) = [] ∧ fromLineEnd (fromLineEnd cs) = fromLineEnd cs := by
    obtain hr | ⟨r, hr⟩ := Scan.atLineEnd_fromLineEnd cs <;> rw [hr] <;> exact ⟨rfl, rfl⟩
  have hcomment : braceBalance false before (';' :: thisLine cs) = 0 := by
    rw [braceBalance, if_neg (by decide), if_neg Bool.false_ne_true, if_pos ⟨rfl, h⟩]
  rw [countFrom_cons (by decide), hcomment, countFrom, hend.1, hend.2]
  rfl

/-- A quote turns quoting on or off. -/
theorem countFrom_quote (before : Char) (quoted : Bool) (cs : List Char) :
    countFrom quoted before ('"' :: cs) = countFrom (!quoted) '"' cs := by
  rw [countFrom_cons (by decide), braceBalance, if_pos rfl, countFrom]

/-- A string counts for nothing, its doubled quotes included, and what follows it is
outside quotes. -/
theorem countFrom_string {value text rest : List Char}
    (h : Scan.string? cs = some (value, text, rest)) (before : Char) :
    countFrom true before cs = countFrom false '"' rest ∧ charBefore before text = '"' := by
  fun_induction Scan.string? cs generalizing before value text rest with
  | case1 cs ih =>
    obtain ⟨⟨v, t, r⟩, hr, he⟩ := Option.map_eq_some_iff.1 h
    cases he
    obtain ⟨hcount, hbefore⟩ := ih hr '"'
    rw [countFrom_quote, countFrom_quote]
    exact ⟨hcount, hbefore⟩
  | case2 cs hq =>
    cases h
    rw [countFrom_quote]
    exact ⟨rfl, rfl⟩
  | case3 => cases h
  | case4 c cs hq hq' hn ih =>
    obtain ⟨⟨v, t, r⟩, hr, he⟩ := Option.map_eq_some_iff.1 h
    cases he
    obtain ⟨hcount, hbefore⟩ := ih hr c
    have hb : charBefore before (c :: t) = charBefore c t :=
      congrArg (charBefore · t) (if_neg hn)
    rw [countFrom_cons hn, braceBalance, if_neg fun he => hq' he, if_pos rfl, ← countFrom, hb]
    exact ⟨hcount, hbefore⟩
  | case5 => cases h

end

end Entry

/-! ## The count over a scan -/

/-- What a token of this kind adds to the braces that are open. -/
def TokenKind.brace : TokenKind → Int
  | leftBrace => 1
  | rightBrace => -1
  | _ => 0

/-- A kind of token that neither a command nor raw text nor a block comment has. -/
def TokenKind.Plain (kind : TokenKind) : Prop :=
  kind ≠ .command ∧ kind ≠ .raw ∧ kind ≠ .openComment ∧ kind ≠ .closeComment

instance (kind : TokenKind) : Decidable kind.Plain := inferInstanceAs (Decidable (_ ∧ _))

namespace Piece

/-- What a piece adds to the braces that are open. -/
def brace : Piece → Int
  | gap _ => 0
  | token kind _ _ _ => kind.brace

/-- What some pieces add to the braces that are open. -/
def braces : List Piece → Int
  | [] => 0
  | p :: ps => p.brace + braces ps

theorem braces_append (ps qs : List Piece) : braces (ps ++ qs) = braces ps + braces qs := by
  induction ps with
  | nil => exact (Int.zero_add _).symm
  | cons p ps ih => rw [List.cons_append, braces, ih, braces, Int.add_assoc]

/-- A piece as it may be in a text without commands, raw text and block comments. -/
def Plain : Piece → Prop
  | gap _ => True
  | token kind _ _ _ => kind.Plain

end Piece

namespace Entry

open Piece Scan

variable {lineStart spaced : Bool} {c before : Char} {cs : List Char} {s : Scan}

/-- **A scan counts its braces**: behind it the count is outside quotes and has
added the braces among its tokens. -/
def Counts (before c : Char) (cs : List Char) (s : Scan) : Prop :=
  countFrom false before (c :: cs) =
    braces s.pieces + countFrom false (charBefore before (textOf s.pieces)) s.rest

/-- A token of quiet characters counts for nothing. -/
theorem counts_quiet {kind : TokenKind} {w rest : List Char} (hcs : w ++ rest = cs)
    (hkind : kind.brace = 0) (hw : ∀ d ∈ c :: w, Quiet d) :
    Counts before c cs (plain kind (c :: w) spaced rest) := by
  have hb : braces (plain kind (c :: w) spaced rest).pieces = 0 := by
    simp only [plain, braces, brace, hkind, Int.add_zero]
  have ht : textOf (plain kind (c :: w) spaced rest).pieces = c :: w := by
    simp only [plain, textOf_cons, textOf_nil, Piece.text, List.append_nil]
  rw [Counts, hb, ht, Int.zero_add, ← hcs, ← List.cons_append, countFrom_quiet_append hw]
  rfl

/-- Among the marks of one character are the braces themselves and the line feed. -/
theorem counts_punctuation {kind : TokenKind} (h : punctuation? c = some kind) :
    Counts before c cs (plain kind [c] spaced cs) := by
  unfold punctuation? at h
  split at h
  case h_1 => cases h; exact (countFrom_break before false cs).trans (Int.zero_add _).symm
  case h_6 => cases h; exact (countFrom_open before cs).trans (Int.add_comm _ _)
  case h_7 => cases h; exact (countFrom_close before cs).trans (Int.add_comm _ _)
  case h_14 => cases h
  all_goals
    cases h
    exact counts_quiet rfl rfl (by simp [Quiet])

/-- The comment is passed over, and behind it the line ends. -/
theorem counts_comment (h : isGap before = true) : Counts before ';' cs (comment cs) := by
  rw [Counts, countFrom_comment h]
  exact (countFrom_atLineEnd (atLineEnd_fromLineEnd cs) _ _).trans (Int.zero_add _).symm

/-- A star that closes a comment is no plain token, so it is an operator here. -/
theorem counts_star (hplain : ∀ p ∈ (Scan.star spaced cs).pieces, p.Plain) :
    Counts before '*' cs (Scan.star spaced cs) := by
  unfold Scan.star at hplain ⊢
  split at hplain
  · exact absurd rfl (hplain _ (List.mem_singleton_self _)).2.2.2
  · exact counts_quiet rfl rfl (by simp [Quiet])

/-- Nor is one that opens a comment. -/
theorem counts_slash (h : slash lineStart spaced cs = .ok s) (hplain : ∀ p ∈ s.pieces, p.Plain) :
    Counts before '/' cs s := by
  unfold slash at h
  split at h
  · split at h
    · split at h <;> cases h
      exact absurd rfl (hplain _ List.mem_cons_self).2.2.1
    · cases h
      exact absurd rfl (hplain _ List.mem_cons_self).2.2.1
  · cases h
    exact counts_quiet rfl rfl (by simp [Quiet])

theorem counts_colon (h : colon spaced cs = .ok s) : Counts before ':' cs s := by
  unfold colon at h
  split at h <;> cases h
  · exact counts_quiet rfl rfl (by simp [Quiet])
  · exact counts_quiet rfl rfl (by simp [Quiet])

/-- What stands in quotes is one token to the lexer and nothing to the count. -/
theorem counts_string (h : quote spaced cs = .ok s) : Counts before '"' cs s := by
  unfold quote at h
  split at h <;> cases h
  next value text rest hs =>
    obtain ⟨hcount, hbefore⟩ := countFrom_string hs '"'
    rw [Counts, countFrom_quote]
    simp only [textOf_cons, textOf_nil, Piece.text, List.append_nil]
    change _ = 0 + countFrom false (charBefore '"' text) rest
    rw [hbefore, Int.zero_add]
    exact hcount

theorem isNumberChar_of_digits {shape final : Shape} {text rest : List Char}
    (h : digits shape cs = .ok (final, text, rest)) : ∀ c ∈ text, isNumberChar c = true := by
  rw [(digits_run h).1]
  exact List.all_eq_true.1 List.all_takeWhile

/-- No character of a number counts. -/
theorem counts_number (hc : c.isDigit = true) (h : number spaced c cs = .ok s) :
    Counts before c cs s := by
  unfold number at h
  split at h
  · cases h
  next shape text rest hd =>
    split at h <;> cases h
    refine counts_quiet (digits_append hd) (by cases shape <;> rfl)
      (List.forall_mem_cons.2 ⟨?_, fun d hm => ?_⟩)
    · exact quiet_of (p := Char.isDigit) (by decide) hc
    · exact quiet_of (p := isNumberChar) (by decide) (isNumberChar_of_digits hd d hm)

theorem brace_ofWord? (w : String) : ((TokenKind.ofWord? w).getD .identifier).brace = 0 := by
  unfold TokenKind.ofWord?
  split <;> rfl

/-- Nor any of a word; a command, whose raw text would, is not plain. -/
theorem counts_word (hc : isNameStart c = true)
    (hplain : ∀ p ∈ (word spaced c cs).pieces, p.Plain) :
    Counts before c cs (word spaced c cs) := by
  unfold word at hplain ⊢
  dsimp only at hplain ⊢
  split at hplain
  next hk => exact absurd hk (hplain _ List.mem_cons_self).1
  next hk =>
    have hquiet : ∀ d ∈ c :: cs.takeWhile isNameChar, Quiet d :=
      List.forall_mem_cons.2 ⟨quiet_of (by decide) hc, fun d hd =>
        quiet_of (by decide) (List.all_eq_true.1 List.all_takeWhile d hd)⟩
    rw [if_neg hk]
    exact counts_quiet List.takeWhile_append_dropWhile (brace_ofWord? _) hquiet

/-- **Each scan of plain tokens counts its braces**, if a comment that it passes is
set apart. -/
theorem counts_next (h : next lineStart spaced c cs = .ok s) (hplain : ∀ p ∈ s.pieces, p.Plain)
    (hcomment : c = ';' → isGap before = true) : Counts before c cs s := by
  unfold next at h
  split at h
  next kind hk => cases h; exact counts_punctuation hk
  next hpunctuation =>
    split at h
    next hc => cases h; subst hc; exact counts_comment (hcomment rfl)
    next hsemicolon =>
    split at h
    next hc => cases h; subst hc; exact counts_star hplain
    split at h
    next hc => subst hc; exact counts_slash h hplain
    split at h
    next hc => subst hc; exact counts_colon h
    split at h
    next hc =>
      cases h
      exact absurd rfl (hplain _ (List.mem_cons_of_mem _ List.mem_cons_self)).2.1
    split at h
    next hc => subst hc; exact counts_string h
    next hquote =>
    split at h
    next hc => exact counts_number hc h
    split at h
    next hc => cases h; exact counts_word hc hplain
    next =>
      cases h
      refine counts_quiet rfl rfl fun d hd => ?_
      rw [List.mem_singleton.1 hd]
      refine ⟨hquote, hsemicolon, ?_, ?_, ?_⟩ <;> rintro rfl <;> cases hpunctuation

/-! ## The count over a cut -/

/-- **Every comment is set apart.** In front of each `;` that starts a comment a
line starts, or there is a space or a tab. `before` is the character in front of
the text. -/
def SetApart (before : Char) (lineStart : Bool) (cs : List Char) : Prop :=
  ∀ (restStart : Bool) (passed opener inside rest : List Char),
    cs = passed ++ (opener ++ (inside ++ rest)) →
    Reaches restStart (opener ++ (inside ++ rest)) lineStart cs →
    Comment restStart .line opener inside rest →
    isGap (charBefore before (passed ++ opener.dropLast)) = true

/-- It is enough that each `;` of a text is set apart. -/
theorem setApart_of_getElem? (h : ∀ i, cs[i]? = some ';' →
    isGap (charBefore before (cs.take i)) = true) : SetApart before lineStart cs := by
  rintro restStart passed opener inside rest rfl - hcomment
  obtain ⟨front, rfl⟩ := hcomment.exists_opener_eq
  have hcs : passed ++ (front ++ [CommentKind.line.mark] ++ (inside ++ rest)) =
      passed ++ front ++ ';' :: (inside ++ rest) := by
    simp only [CommentKind.mark, List.append_assoc, List.cons_append, List.nil_append]
  have hgap := h (passed ++ front).length
  rw [hcs, List.getElem?_append_right (Nat.le_refl _), Nat.sub_self, List.take_left] at hgap
  rw [List.dropLast_concat]
  exact hgap rfl

/-- A comment that the next scan passes is set apart. -/
theorem SetApart.comment (h : SetApart before lineStart cs) {tail : List Char}
    (hc : cs.dropWhile isBlank = ';' :: tail) :
    isGap (charBefore before (cs.takeWhile isBlank)) = true := by
  have hcs : cs = [] ++ (cs.takeWhile isBlank ++ [';'] ++ (thisLine tail ++ fromLineEnd tail)) := by
    rw [thisLine_append_fromLineEnd, List.append_assoc, List.nil_append]
    change cs = cs.takeWhile isBlank ++ ';' :: tail
    rw [← hc, List.takeWhile_append_dropWhile]
  have hcomment : Comment lineStart .line (cs.takeWhile isBlank ++ [';']) (thisLine tail)
      (fromLineEnd tail) := .ofToken tail (isBlank_of_mem_takeWhile cs)
  have hreaches : Reaches lineStart
      (cs.takeWhile isBlank ++ [';'] ++ (thisLine tail ++ fromLineEnd tail)) lineStart cs :=
    hcs ▸ .here
  have hapart := h lineStart [] _ _ _ hcs hreaches hcomment
  rwa [List.nil_append, List.dropLast_concat] at hapart

/-- And those in the rest are. -/
theorem SetApart.rest (h : SetApart before lineStart cs) {tail : List Char}
    (hc : cs.dropWhile isBlank = c :: tail)
    (hs : next lineStart (!(cs.takeWhile isBlank).isEmpty) c tail = .ok s) :
    SetApart (charBefore (charBefore before (cs.takeWhile isBlank)) (textOf s.pieces))
      (s.startsLine lineStart) s.rest := by
  intro restStart passed opener inside rest hrest hreaches hcomment
  have hcs : cs = (cs.takeWhile isBlank ++ textOf s.pieces ++ passed) ++
      (opener ++ (inside ++ rest)) := by
    rw [List.append_assoc, ← hrest, List.append_assoc, (covers_next hs).textOf_append_rest, ← hc,
      List.takeWhile_append_dropWhile]
  have hapart := h restStart _ opener inside rest hcs (.scan hc hs hreaches) hcomment
  simp only [charBefore_append] at hapart ⊢
  exact hapart

/-- **A text of plain tokens whose comments are set apart counts the braces among
its tokens.** -/
theorem countFrom_cut {ps : List Piece} (h : cut lineStart cs = .ok ps)
    (hplain : ∀ p ∈ ps, p.Plain) (hapart : SetApart before lineStart cs) :
    countFrom false before cs = braces ps := by
  have hblanks (cs : List Char) : ∀ b ∈ cs.takeWhile isBlank, Quiet b :=
    fun b hb => quiet_of (by decide) (isBlank_of_mem_takeWhile cs b hb)
  fun_induction cut lineStart cs generalizing ps before with
  | case1 lineStart cs blanks =>
    rename_i hcs
    cases h
    have hsplit : blanks ++ cs.dropWhile isBlank = cs := List.takeWhile_append_dropWhile
    rw [← hsplit, countFrom_quiet_append (hblanks cs), hcs]
    rfl
  | case2 => cases h
  | case3 => cases h
  | case4 lineStart cs blanks c tail hcs scan hs more hmore =>
    rename_i ih
    cases h
    obtain ⟨-, hplain⟩ := List.forall_mem_cons.1 hplain
    obtain ⟨hscan, hrest⟩ := List.forall_mem_append.1 hplain
    have hsplit : blanks ++ cs.dropWhile isBlank = cs := List.takeWhile_append_dropWhile
    have hcounts := counts_next hs hscan fun hc => hapart.comment (hc ▸ hcs)
    have hih := ih hmore hrest (hapart.rest hcs hs)
    have hbraces : braces (.gap blanks :: scan.pieces ++ more) =
        braces scan.pieces + braces more := by
      rw [← braces_append]
      exact Int.zero_add _
    rw [← hsplit, countFrom_quiet_append (hblanks cs), hcs, hbraces, ← hih]
    exact hcounts

end Entry

namespace Piece

theorem plain_of_place {p : Position} {ps : List Piece}
    (h : ∀ t ∈ place p ps, t.kind.Plain) : ∀ q ∈ ps, q.Plain := by
  induction ps generalizing p with
  | nil => exact fun q hq => nomatch hq
  | cons q ps ih =>
    cases q with
    | gap text => exact List.forall_mem_cons.2 ⟨.intro, ih h⟩
    | token =>
      obtain ⟨ht, hts⟩ := List.forall_mem_cons.1 h
      exact List.forall_mem_cons.2 ⟨ht, ih hts⟩

/-- The braces of some pieces are those of their tokens. -/
theorem braces_eq (p : Position) (ps : List Piece) :
    braces ps = ((place p ps).map Token.kind).count .leftBrace -
      ((place p ps).map Token.kind).count .rightBrace := by
  have hbrace (kind : TokenKind) : kind.brace =
      (if kind == .leftBrace then 1 else 0) - (if kind == .rightBrace then 1 else 0) := by
    cases kind <;> rfl
  induction ps generalizing p with
  | nil => rfl
  | cons q ps ih =>
    cases q with
    | gap text => exact (Int.zero_add _).trans (ih _)
    | token kind lexeme text spaced =>
      have hcons : braces (.token kind lexeme text spaced :: ps) = kind.brace + braces ps := rfl
      rw [hcons, ih (p.past text), hbrace, place, List.map_cons, List.count_cons, List.count_cons]
      generalize (kind == .leftBrace) = l, (kind == .rightBrace) = r
      cases l <;> cases r <;> simp <;> omega

end Piece

namespace Entry

/-- **When an entry goes on.** Let a text have tokens, none of them of a command,
of raw text or of a block comment, and let its comments be set apart. It needs
another line just if more braces are opened than closed among its tokens. -/
theorem needsMore_iff_more_open {text : String} {ts : List Token} (ht : tokenize text = .ok ts)
    (hplain : ∀ t ∈ ts, t.kind.Plain) (hapart : SetApart ' ' true text.toList) :
    needsMore text = true ↔
      (ts.map Token.kind).count .rightBrace < (ts.map Token.kind).count .leftBrace := by
  obtain ⟨ps, hps, rfl⟩ := exists_cut_of_tokenize ht
  have hplain := Piece.plain_of_place hplain
  have hcount := countFrom_cut hps (List.forall_mem_cons.1 hplain).2 hapart
  have hbraces : Piece.braces ps = Piece.braces (.token .fileStart [] [] false :: ps) :=
    (Int.zero_add _).symm
  rw [needsMore_eq, linesBalance_eq, hcount, hbraces, Piece.braces_eq .start, decide_eq_true_iff]
  omega

/-- A comment and a string with closing braces in them, in a function that is
opened. -/
theorem needsMore_iff_more_open_commentAndString :
    let text := "f() \x7b ; \x7d\ns := \"\x7d\""
    ∃ ts, tokenize text = .ok ts ∧ (∀ t ∈ ts, t.kind.Plain) ∧ SetApart ' ' true text.toList ∧
      (ts.map Token.kind).count .rightBrace < (ts.map Token.kind).count .leftBrace ∧
      needsMore text = true := by
  intro text
  have hapart : SetApart ' ' true text.toList := by
    refine setApart_of_getElem? fun i hi => ?_
    have hall : ∀ i < text.toList.length, text.toList[i]? = some ';' →
        isGap (charBefore ' ' (text.toList.take i)) = true := by decide +kernel
    exact hall i (List.getElem?_eq_some_iff.1 hi).1 hi
  have htokens : (tokenize text).toOption.any fun ts => (ts.all fun t => t.kind.Plain) &&
      (ts.map Token.kind).count .rightBrace < (ts.map Token.kind).count .leftBrace := by
    decide +kernel
  cases ht : tokenize text with
  | error e => rw [ht] at htokens; cases htokens
  | ok ts =>
    rw [ht] at htokens
    obtain ⟨hplain, hmore⟩ := Bool.and_eq_true_iff.1 htokens
    have hplain : ∀ t ∈ ts, t.kind.Plain := by simpa using hplain
    have hmore := of_decide_eq_true hmore
    exact ⟨ts, rfl, hplain, hapart, hmore, (needsMore_iff_more_open ht hplain hapart).2 hmore⟩

/-- A `;` right behind a name starts a comment, but the braces in it count. -/
theorem needsMore_attachedComment :
    (tokenize "a;\x7b").toOption.map (List.map Token.kind) =
        some [.fileStart, .identifier, .fileEnd] ∧
      needsMore "a;\x7b" = true := by
  decide +kernel

end Entry

end HotkeyScript
