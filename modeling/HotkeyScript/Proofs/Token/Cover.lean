import HotkeyScript.Proofs.Token.Form
import HotkeyScript.Proofs.Token.Lines
import Mathlib.Data.List.Chain
/-!
# Tokens — a token list covers its text

The tokens of a text stand in it one behind the other, each at the place that its
span says, from the start of the file to its end (`tokenize_covers`). Between two
of them nothing was lost but blanks, a comment behind its `;`, and the inside of
a block comment, whose opener and closer stand alone on their lines with no line
between them that would close it before (`BlockComment`).

Places come from walking the pieces' texts, so they are right by
`Position.in_past`. What may be lost between two tokens is decided by what one
scan may give, which `Scan.Form` says once for all scans.
-/

namespace HotkeyScript

namespace Text

/-! ## Parts of a text -/

/-- The part of a text between two offsets. -/
def between (cs : List Char) (i j : Nat) : List Char := (cs.take j).drop i

/-- What stands in front of an offset on its line. -/
def lineBefore (cs : List Char) (i : Nat) : List Char := lastLine (cs.take i)

theorem between_append (pre mid post : List Char) :
    between (pre ++ mid ++ post) pre.length (pre.length + mid.length) = mid := by
  rw [between, ← List.length_append, List.take_left, List.drop_left]

end Text

open Text

/-! ## Places in a text -/

/-- **A position in a text.** Its line and its column are those of the character
that its offset counts to. -/
structure Position.In (p : Position) (cs : List Char) : Prop where
  offset_le : p.offset ≤ cs.length
  line_eq : p.line = 1 + (cs.take p.offset).count '\n'
  column_eq : p.column = 1 + (lineBefore cs p.offset).length

/-- A span in a text. -/
structure Span.In (s : Span) (cs : List Char) : Prop where
  start : s.start.In cs
  stop : s.stop.In cs
  le : s.start.offset ≤ s.stop.offset

/-- A column counts what was walked since the last line break. -/
theorem Position.column_past (p : Position) (cs : List Char) :
    (p.past cs).column =
      if '\n' ∈ cs then 1 + (lastLine cs).length else p.column + cs.length := by
  induction cs generalizing p with
  | nil => rfl
  | cons c cs ih =>
    rw [past_cons, ih]
    by_cases hcs : '\n' ∈ cs
    · have hc : '\n' ∈ c :: cs := List.mem_cons_of_mem c hcs
      rw [if_pos hcs, if_pos hc, lastLine_cons_of_mem hc]
    · by_cases hc : c = '\n'
      · subst hc
        have hm : '\n' ∈ '\n' :: cs := List.mem_cons_self
        rw [if_neg hcs, if_pos hm, lastLine_cons_of_mem hm, lastLine_of_notMem hcs]
        rfl
      · have hm : '\n' ∉ c :: cs := by
          rw [List.mem_cons, not_or]
          exact ⟨fun he => hc he.symm, hcs⟩
        rw [if_neg hcs, if_neg hm, after, if_neg hc, List.length_cons]
        change p.column + 1 + cs.length = p.column + (cs.length + 1)
        omega

/-- **Walking the front of a text leads to a position in it.** -/
theorem Position.in_past (pre post : List Char) : (start.past pre).In (pre ++ post) := by
  have ho : (start.past pre).offset = pre.length := by
    rw [offset_past]
    exact Nat.zero_add _
  refine ⟨?_, ?_, ?_⟩
  · rw [ho, List.length_append]
    exact Nat.le_add_right _ _
  · rw [ho, List.take_left]
    exact line_past start pre
  · rw [ho, lineBefore, List.take_left, column_past]
    split
    · rfl
    next h => rw [lastLine_of_notMem h]; rfl

@[simp] theorem Position.offset_past_start (pre : List Char) :
    (start.past pre).offset = pre.length := by
  rw [offset_past]
  exact Nat.zero_add _

/-! ## What may stand between two tokens -/

/-- A stretch that no token stands for, in front of a token: blanks, and perhaps
a comment from its `;` to the end of the line. -/
inductive Text.Skipped : List Char → TokenKind → Prop where
  | blanks {bs : List Char} {next : TokenKind} : (∀ c ∈ bs, isBlank c = true) → Skipped bs next
  | comment {bs words : List Char} {next : TokenKind} : (∀ c ∈ bs, isBlank c = true) →
      '\n' ∉ words → next.isLineEnd = true → Skipped (bs ++ ';' :: words) next

/-- **A block comment.** Its opener and its closer stand alone on their lines, the
closer on a later one, and no line between them would have closed it. -/
structure BlockComment (cs : List Char) (opener closer : Token) : Prop where
  opener_kind : opener.kind = .openComment
  closer_kind : closer.kind = .closeComment
  opener_first : ∀ c ∈ lineBefore cs opener.span.start.offset, isBlank c = true
  opener_last : Scan.restIsWhite (cs.drop opener.span.stop.offset) = true
  closer_first : ∀ c ∈ lineBefore cs closer.span.start.offset, isBlank c = true
  closer_last : Scan.restIsWhite (cs.drop closer.span.stop.offset) = true
  later : '\n' ∈ between cs opener.span.stop.offset closer.span.start.offset
  nearest : ∀ a line b,
    between cs opener.span.stop.offset closer.span.start.offset = a ++ '\n' :: line ++ '\n' :: b →
      '\n' ∉ line → Scan.closesHere (line.dropWhile isBlank) = false

/-- What stands between two tokens next to each other was skipped, or is the
inside of a block comment. -/
inductive Token.Apart (cs : List Char) (t u : Token) : Prop where
  | skipped : Skipped (between cs t.span.stop.offset u.span.start.offset) u.kind → Apart cs t u
  | inside : BlockComment cs t u → Apart cs t u

/-- **A token list covers a text.** -/
structure Token.Covers (ts : List Token) (cs : List Char) : Prop where
  /-- The start of the file comes first, its end comes last, and neither between. -/
  ends : ∃ sof mid eof, ts = sof :: (mid ++ [eof]) ∧
    sof.kind = .fileStart ∧ sof.span.start.offset = 0 ∧ sof.span.stop.offset = 0 ∧
    eof.kind = .fileEnd ∧ eof.span.start.offset = cs.length ∧
    ∀ t ∈ mid, t.kind ≠ .fileStart ∧ t.kind ≠ .fileEnd
  places : ∀ t ∈ ts, t.span.In cs
  order : ts.Pairwise fun t u => t.span.stop.offset ≤ u.span.start.offset
  lexemes : ∀ t ∈ ts, t.kind ≠ .quoted → t.kind ≠ .raw →
    t.lexeme.toList = between cs t.span.start.offset t.span.stop.offset
  gaps : ts.IsChain (Token.Apart cs)

namespace Text.Skipped

variable {bs gap : List Char} {next : TokenKind}

theorem nil : Skipped [] next := .blanks fun _ h => nomatch h

/-- Blanks in front are skipped too. -/
theorem append (hb : ∀ c ∈ bs, isBlank c = true) (h : Skipped gap next) :
    Skipped (bs ++ gap) next := by
  have hall {cs : List Char} (hc : ∀ c ∈ cs, isBlank c = true) :
      ∀ c ∈ bs ++ cs, isBlank c = true := fun c hm => (List.mem_append.1 hm).elim (hb c) (hc c)
  cases h with
  | blanks hc => exact .blanks (hall hc)
  | comment hc hw hn =>
    rw [← List.append_assoc]
    exact .comment (hall hc) hw hn

end Text.Skipped

namespace Piece

open Scan

/-! ## Pieces behind a text -/

/-- **Pieces laid out behind a text.** What stands in front of their first token
was skipped, and what stands between any two was skipped or is the inside of a
block comment. -/
structure Laid (pre : List Char) (ps : List Piece) : Prop where
  lead : ∀ u ∈ (place (Position.start.past pre) ps).head?, ∃ gap post,
    textOf ps = gap ++ post ∧ u.span.start.offset = pre.length + gap.length ∧ Skipped gap u.kind
  chain : (place (Position.start.past pre) ps).IsChain (Token.Apart (pre ++ textOf ps))

theorem place_gap (pre text : List Char) (ps : List Piece) :
    place (Position.start.past pre) (.gap text :: ps) =
      place (Position.start.past (pre ++ text)) ps := by
  rw [place, Position.past_append]

theorem place_token (pre : List Char) (kind : TokenKind) (lexeme text : List Char)
    (spaced : Bool) (ps : List Piece) :
    place (Position.start.past pre) (.token kind lexeme text spaced :: ps) =
      ⟨kind, String.ofList lexeme,
        ⟨Position.start.past pre, Position.start.past (pre ++ text)⟩, spaced⟩ ::
        place (Position.start.past (pre ++ text)) ps := by
  rw [place, Position.past_append]

namespace Laid

variable {pre : List Char} {ps : List Piece}

theorem nil (pre : List Char) : Laid pre [] := ⟨nofun, .nil⟩

/-- Behind a token what is skipped stands between it and the next. -/
theorem token {text : List Char} (h : Laid (pre ++ text) ps) (kind : TokenKind)
    (lexeme : List Char) (spaced : Bool) : Laid pre (.token kind lexeme text spaced :: ps) := by
  refine ⟨?_, ?_⟩
  · rw [place_token]
    rintro u ⟨⟩
    refine ⟨[], text ++ textOf ps, rfl, ?_, .nil⟩
    rw [Position.offset_past_start]
    rfl
  · rw [place_token, textOf_cons, Piece.text, ← List.append_assoc, List.isChain_cons]
    refine ⟨fun u hu => ?_, h.chain⟩
    obtain ⟨gap, post, htext, hoffset, hgap⟩ := h.lead u hu
    refine .skipped ?_
    rw [hoffset, htext, Position.offset_past_start, ← List.append_assoc, between_append]
    exact hgap

theorem tokens {qs : List Piece} (hp : ∀ p ∈ ps, p.Faithful) (h : Laid (pre ++ textOf ps) qs) :
    Laid pre (ps ++ qs) := by
  induction ps generalizing pre with
  | nil => rwa [textOf_nil, List.append_nil] at h
  | cons p ps ih =>
    obtain ⟨hp, hps⟩ := List.forall_mem_cons.1 hp
    rw [textOf_cons, ← List.append_assoc] at h
    cases hp with
    | token spaced => exact (ih hps h).token _ _ spaced

/-- Blanks are skipped together with what is skipped behind them. -/
theorem blanks {bs : List Char} (h : Laid (pre ++ bs) ps) (hb : ∀ c ∈ bs, isBlank c = true) :
    Laid pre (.gap bs :: ps) := by
  refine ⟨?_, ?_⟩
  · rw [place_gap]
    intro u hu
    obtain ⟨gap, post, htext, hoffset, hgap⟩ := h.lead u hu
    refine ⟨bs ++ gap, post, ?_, ?_, hgap.append hb⟩
    · rw [textOf_cons, Piece.text, htext, List.append_assoc]
    · rw [hoffset, List.length_append, List.length_append, Nat.add_assoc]
  · rw [place_gap, textOf_cons, Piece.text, ← List.append_assoc]
    exact h.chain

/-- A comment is skipped, and its line ends behind it. -/
theorem comment {words : List Char} (h : Laid (pre ++ ';' :: words) ps) (hw : '\n' ∉ words)
    (hnext : ∀ p, ∀ u ∈ (place p ps).head?, u.span.start = p ∧ u.kind.isLineEnd = true) :
    Laid pre (.gap (';' :: words) :: ps) := by
  refine ⟨?_, ?_⟩
  · rw [place_gap]
    intro u hu
    obtain ⟨hstart, hkind⟩ := hnext _ u hu
    have hskip : Skipped ([] ++ ';' :: words) u.kind :=
      .comment (fun _ hm => nomatch hm) hw hkind
    refine ⟨';' :: words, textOf ps, rfl, ?_, hskip⟩
    rw [hstart, Position.offset_past_start, List.length_append]
  · rw [place_gap, textOf_cons, Piece.text, ← List.append_assoc]
    exact h.chain

/-- A block comment stands between its opener and its closer. -/
theorem block {cs inside : List Char} {spaced : Bool}
    (h : Laid (pre ++ ['/', '*'] ++ inside ++ ['*', '/']) ps)
    (hfirst : ∀ c ∈ lastLine pre, isBlank c = true) (hwhite : Scan.restIsWhite cs = true)
    (hin : Scan.interior? false cs = some (inside, textOf ps)) :
    Laid pre (.token .openComment ['/', '*'] ['/', '*'] spaced :: .gap inside ::
      .token .closeComment ['*', '/'] ['*', '/'] spaced :: ps) := by
  obtain ⟨hclose, hlast, hbreak⟩ := Scan.interior?_closer hin
  have hlater : '\n' ∈ inside := hbreak.resolve_right nofun
  have hcs : inside ++ '*' :: '/' :: textOf ps = cs := Scan.interior?_append hin
  have hcloser := h.token .closeComment ['*', '/'] spaced
  have htext : pre ++ textOf (.token .openComment ['/', '*'] ['/', '*'] spaced :: .gap inside ::
      .token .closeComment ['*', '/'] ['*', '/'] spaced :: ps) =
      pre ++ ['/', '*'] ++ inside ++ ['*', '/'] ++ textOf ps := by
    simp [Piece.text]
  refine ⟨?_, ?_⟩
  · rw [place_token]
    rintro u ⟨⟩
    refine ⟨[], _, rfl, ?_, .nil⟩
    rw [Position.offset_past_start]
    rfl
  · have hchain := hcloser.chain
    rw [textOf_cons, Piece.text, ← List.append_assoc] at hchain
    rw [htext, place_token, place_gap, List.isChain_cons]
    refine ⟨fun u hu => .inside ?_, hchain⟩
    rw [place_token] at hu
    cases hu
    have hopener : (Position.start.past (pre ++ ['/', '*'])).offset = (pre ++ ['/', '*']).length :=
      Position.offset_past_start _
    have hstart : (Position.start.past (pre ++ ['/', '*'] ++ inside)).offset =
        (pre ++ ['/', '*'] ++ inside).length := Position.offset_past_start _
    have hstop : (Position.start.past (pre ++ ['/', '*'] ++ inside ++ ['*', '/'])).offset =
        (pre ++ ['/', '*'] ++ inside ++ ['*', '/']).length := Position.offset_past_start _
    have hbetween : between (pre ++ ['/', '*'] ++ inside ++ ['*', '/'] ++ textOf ps)
        (pre ++ ['/', '*']).length (pre ++ ['/', '*'] ++ inside).length = inside := by
      have hlength : (pre ++ ['/', '*'] ++ inside).length =
          (pre ++ ['/', '*']).length + inside.length := List.length_append
      rw [List.append_assoc _ ['*', '/'], hlength]
      exact between_append _ _ _
    refine ⟨rfl, rfl, ?_, ?_, ?_, ?_, ?_, ?_⟩
    · -- the opener is first on its line
      rw [lineBefore, Position.offset_past_start]
      simpa only [List.append_assoc, List.take_left] using hfirst
    · rw [hopener, List.append_assoc, List.append_assoc, List.drop_left]
      rw [← hcs] at hwhite
      simpa using hwhite
    · -- a line began inside, so only what it has in front of the closer counts
      rw [lineBefore, hstart, List.append_assoc _ ['*', '/'], List.take_left,
        lastLine_append_of_mem hlater]
      exact hlast
    · rw [hstop, List.drop_left]
      exact hclose
    · rw [hopener, hstart, hbetween]
      exact hlater
    · rw [hopener, hstart, hbetween]
      exact (Scan.interior?_nearest hin).2

end Laid

/-- Where a line ends, the next token says so. -/
theorem place_of_lineEnd {lineStart : Bool} {cs : List Char} {ps : List Piece}
    (h : cut lineStart (fromLineEnd cs) = .ok ps) (p : Position) :
    ∀ u ∈ (place p ps).head?, u.span.start = p ∧ u.kind.isLineEnd = true := by
  obtain hr | ⟨rest, hr⟩ := fromLineEnd_cases cs
  · rw [hr, cut] at h
    cases h
    rintro u ⟨⟩
    exact ⟨rfl, rfl⟩
  · have hs : next lineStart false '\n' rest = .ok (plain .lineEnd ['\n'] false rest) := rfl
    have hl : startsLine (plain .lineEnd ['\n'] false rest) lineStart = true := rfl
    have hrest : (plain .lineEnd ['\n'] false rest).rest = rest := rfl
    rw [hr, cut_of_scan (c := '\n') rfl hs, hl, hrest] at h
    cases hmore : cut true rest with
    | error e => rw [hmore] at h; cases h
    | ok more =>
      rw [hmore] at h
      cases h
      rintro u ⟨⟩
      exact ⟨rfl, rfl⟩

/-- **A text's pieces are laid out in it**, behind a text where the next token
stands first on its line, if the cut takes it to do so. -/
theorem laid_cut {lineStart : Bool} {cs pre : List Char} {ps : List Piece}
    (h : cut lineStart cs = .ok ps) (hfresh : lineStart = true → Fresh pre cs) : Laid pre ps := by
  fun_induction cut lineStart cs generalizing pre ps with
  | case1 =>
    cases h
    exact .blanks (.token (.nil _) _ _ _) (isBlank_of_mem_takeWhile _)
  | case2 => cases h
  | case3 => cases h
  | case4 lineStart cs blanks c tail hcs scan hs more hmore =>
    rename_i ih
    cases h
    have hb : ∀ b ∈ blanks, isBlank b = true := isBlank_of_mem_takeWhile _
    have hform := form_next hs
    have htext : blanks ++ c :: tail = cs := by
      rw [← hcs]
      exact List.takeWhile_append_dropWhile
    have hmid : Laid (pre ++ blanks ++ textOf scan.pieces) more :=
      ih hmore fun hl => hform.fresh hl _
    refine .blanks ?_ hb
    cases hform with
    | comment =>
      have hline : textOf (Scan.comment tail).pieces = ';' :: thisLine tail := by
        simp [Scan.comment, Piece.text]
      rw [hline] at hmid
      exact hmid.comment (fun hm => by simpa using List.all_eq_true.1 List.all_takeWhile _ hm)
        (place_of_lineEnd hmore)
    | @block spaced cs inside rest hl hw hi =>
      have hrest : textOf more = rest := textOf_cut hmore
      have hstart : Fresh pre (blanks ++ '/' :: '*' :: cs) := htext ▸ hfresh hl
      rw [← hrest] at hi
      refine Laid.block ?_ (hstart.blank (by decide) hb) hw hi
      simpa [Piece.text] using hmid
    | command hbs hp =>
      refine .token (.blanks (.tokens hp ?_) hbs) _ _ _
      simpa [Piece.text] using hmid
    | tokens hne hp => exact .tokens hp hmid

/-- The end of the file comes last, and each token in front of it is faithful. -/
theorem faithful_cut {lineStart : Bool} {cs : List Char} {ps : List Piece}
    (h : cut lineStart cs = .ok ps) :
    ∃ front blanks spaced, ps = front ++ [.gap blanks, .token .fileEnd [] [] spaced] ∧
      ∀ kind lexeme text spaced, .token kind lexeme text spaced ∈ front →
        (Piece.token kind lexeme text spaced).Faithful := by
  fun_induction cut lineStart cs generalizing ps with
  | case1 =>
    cases h
    exact ⟨[], _, _, rfl, fun _ _ _ _ hm => absurd hm List.not_mem_nil⟩
  | case2 => cases h
  | case3 => cases h
  | case4 lineStart cs blanks c tail hcs scan hs more hmore =>
    rename_i ih
    cases h
    obtain ⟨front, bs, spaced, rfl, hfront⟩ := ih hmore
    refine ⟨.gap blanks :: scan.pieces ++ front, bs, spaced, by simp,
      fun kind lexeme text sp hm => ?_⟩
    simp only [List.cons_append, List.mem_cons, reduceCtorEq, List.mem_append, false_or] at hm
    exact hm.elim (form_next hs).faithful (hfront kind lexeme text sp)

/-! ## Places in a row -/

/-- Each token stands where its piece does. -/
theorem exists_of_mem_place {p : Position} {ps : List Piece} {t : Token} (h : t ∈ place p ps) :
    ∃ front kind lexeme text spaced back, ps = front ++ .token kind lexeme text spaced :: back ∧
      t = ⟨kind, String.ofList lexeme,
        ⟨p.past (textOf front), p.past (textOf front ++ text)⟩, spaced⟩ := by
  induction ps generalizing p with
  | nil => nomatch h
  | cons q ps ih =>
    cases q with
    | gap text =>
      obtain ⟨front, kind, lexeme, text', spaced, back, rfl, rfl⟩ := ih h
      refine ⟨.gap text :: front, kind, lexeme, text', spaced, back, rfl, ?_⟩
      rw [textOf_cons, Piece.text, List.append_assoc, ← Position.past_append,
        ← Position.past_append]
    | token kind lexeme text spaced =>
      obtain rfl | h := List.mem_cons.1 h
      · exact ⟨[], kind, lexeme, text, spaced, ps, rfl, rfl⟩
      obtain ⟨front, kind', lexeme', text', spaced', back, rfl, rfl⟩ := ih h
      refine ⟨.token kind lexeme text spaced :: front, kind', lexeme', text', spaced', back,
        rfl, ?_⟩
      rw [textOf_cons, Piece.text, List.append_assoc, ← Position.past_append,
        ← Position.past_append]

/-- Tokens stand one behind the other. -/
theorem pairwise_place (p : Position) (ps : List Piece) :
    (place p ps).Pairwise fun t u => t.span.stop.offset ≤ u.span.start.offset := by
  induction ps generalizing p with
  | nil => exact .nil
  | cons q ps ih =>
    cases q with
    | gap text => exact ih _
    | token kind lexeme text spaced =>
      refine .cons (fun u hu => ?_) (ih _)
      obtain ⟨front, _, _, _, _, _, -, rfl⟩ := exists_of_mem_place hu
      change (p.past text).offset ≤ ((p.past text).past (textOf front)).offset
      rw [Position.offset_past (p.past text)]
      exact Nat.le_add_right _ _

/-- A token in a text whose lexeme is its piece's text has what stands in its span. -/
theorem in_of_mem_place {ps : List Piece} {t : Token} (h : t ∈ place .start ps) :
    t.span.In (textOf ps) ∧ ∃ lexeme text, .token t.kind lexeme text t.spaced ∈ ps ∧
      t.lexeme = String.ofList lexeme ∧
      between (textOf ps) t.span.start.offset t.span.stop.offset = text := by
  obtain ⟨front, kind, lexeme, text, spaced, back, rfl, rfl⟩ := exists_of_mem_place h
  have htext : textOf (front ++ .token kind lexeme text spaced :: back) =
      textOf front ++ text ++ textOf back := by simp [Piece.text]
  rw [htext]
  refine ⟨⟨?_, Position.in_past _ _, ?_⟩, lexeme, text, by simp, rfl, ?_⟩
  · rw [List.append_assoc]
    exact Position.in_past _ _
  · simp only [Position.offset_past_start, List.length_append]
    omega
  · simp only [Position.offset_past_start, List.length_append]
    exact between_append _ _ _

end Piece

/-! ## The whole text -/

variable {text : String} {ts : List Token}

/-- The start of the file comes first, its end comes last, and neither between. -/
theorem exists_ends_of_tokenize (h : tokenize text = .ok ts) :
    ∃ sof mid eof, ts = sof :: (mid ++ [eof]) ∧
      sof.kind = .fileStart ∧ sof.span.start.offset = 0 ∧ sof.span.stop.offset = 0 ∧
      eof.kind = .fileEnd ∧ eof.span.start.offset = text.toList.length ∧
      ∀ t ∈ mid, t.kind ≠ .fileStart ∧ t.kind ≠ .fileEnd := by
  obtain ⟨ps, hcut, rfl⟩ := exists_cut_of_tokenize h
  have htext : Piece.textOf ps = text.toList := Piece.textOf_cut hcut
  obtain ⟨front, blanks, spaced, rfl, hfront⟩ := Piece.faithful_cut hcut
  let sof : Token := ⟨.fileStart, String.ofList [], ⟨.start, .start⟩, false⟩
  let mark := Position.start.past (Piece.textOf front ++ blanks)
  let eof : Token := ⟨.fileEnd, String.ofList [], ⟨mark, mark⟩, spaced⟩
  have hmark : mark.offset = text.toList.length := by
    rw [Position.offset_past_start, ← htext]
    simp [Piece.text]
  have hplace : Piece.place .start (front ++ [.gap blanks, .token .fileEnd [] [] spaced]) =
      Piece.place .start front ++ [eof] := Piece.place_append_token _ _ _ _ _ _ _
  refine ⟨sof, Piece.place .start front, eof, congrArg (sof :: ·) hplace, rfl, rfl, rfl, rfl,
    hmark, fun t ht => ?_⟩
  obtain ⟨-, lexeme, text, hm, -⟩ := Piece.in_of_mem_place ht
  cases hfront _ _ _ _ hm with
  | token _ hs he => exact ⟨hs, he⟩

theorem in_of_tokenize (h : tokenize text = .ok ts) : ∀ t ∈ ts, t.span.In text.toList := by
  obtain ⟨ps, hcut, rfl⟩ := exists_cut_of_tokenize h
  intro t ht
  rw [← Piece.textOf_cut hcut]
  exact (Piece.in_of_mem_place ht).1

theorem pairwise_of_tokenize (h : tokenize text = .ok ts) :
    ts.Pairwise fun t u => t.span.stop.offset ≤ u.span.start.offset := by
  obtain ⟨ps, -, rfl⟩ := exists_cut_of_tokenize h
  exact Piece.pairwise_place _ _

/-- A lexeme is what stands at its token's span, unless it was quoted or raw. -/
theorem lexeme_of_tokenize (h : tokenize text = .ok ts) : ∀ t ∈ ts, t.kind ≠ .quoted →
    t.kind ≠ .raw → t.lexeme.toList =
      between text.toList t.span.start.offset t.span.stop.offset := by
  obtain ⟨ps, hcut, rfl⟩ := exists_cut_of_tokenize h
  intro t ht hq hr
  have htext : Piece.textOf ps = text.toList := Piece.textOf_cut hcut
  obtain ⟨front, blanks, spaced, rfl, hfront⟩ := Piece.faithful_cut hcut
  obtain ⟨-, lexeme, stretch, hm, hlexeme, hbetween⟩ := Piece.in_of_mem_place ht
  have hsame : lexeme = stretch := by
    simp only [List.mem_cons, List.mem_append, List.not_mem_nil, Piece.token.injEq, reduceCtorEq,
      false_or, or_false] at hm
    obtain ⟨-, rfl, rfl, -⟩ | h | ⟨-, rfl, rfl, -⟩ := hm
    · rfl
    · cases hfront _ _ _ _ h with
      | token _ _ _ _ hplain => exact hplain hq hr
    · rfl
  change between (Piece.textOf (front ++ [.gap blanks, .token .fileEnd [] [] spaced])) _ _ = _
    at hbetween
  rw [htext] at hbetween
  rw [hlexeme, hbetween, hsame, String.toList_ofList]

/-- Between two tokens next to each other something was skipped, or stands the
inside of a block comment. -/
theorem isChain_of_tokenize (h : tokenize text = .ok ts) :
    ts.IsChain (Token.Apart text.toList) := by
  obtain ⟨ps, hcut, rfl⟩ := exists_cut_of_tokenize h
  have hlaid : Piece.Laid [] (.token .fileStart [] [] false :: ps) :=
    .token (Piece.laid_cut hcut fun _ => .inl fun c hm => absurd hm List.not_mem_nil) _ _ _
  rw [← Piece.textOf_cut hcut]
  exact hlaid.chain

/-- **The tokens of a text cover it.** The start of the file comes first and its
end comes last; each token stands in the text behind those in front of it, and its
lexeme is what stands there, unless it was quoted or raw; and between two tokens
stand only blanks, a comment, or the inside of a block comment. -/
theorem tokenize_covers (h : tokenize text = .ok ts) : Token.Covers ts text.toList where
  ends := exists_ends_of_tokenize h
  places := in_of_tokenize h
  order := pairwise_of_tokenize h
  lexemes := lexeme_of_tokenize h
  gaps := isChain_of_tokenize h

/-- A block comment, an assignment with a comment, and a message box with raw
arguments. -/
theorem tokenize_covers_blockCommentThenBox :
    let text := "/*\n no */ here\n */\r\nx := 0x1F ; sixteen\nMsgBox, a, b`n ; box"
    ∃ ts, tokenize text = .ok ts ∧ ts.length = 14 ∧ Token.Covers ts text.toList := by
  intro text
  have hlength : (tokenize text).toOption.map List.length = some 14 := by decide +kernel
  cases ht : tokenize text with
  | error e => rw [ht] at hlength; cases hlength
  | ok ts =>
    rw [ht] at hlength
    exact ⟨ts, rfl, Option.some.inj hlength, tokenize_covers ht⟩

end HotkeyScript
