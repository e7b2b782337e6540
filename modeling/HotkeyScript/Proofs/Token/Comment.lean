import HotkeyScript.Proofs.Token.Ahead
import HotkeyScript.Proofs.Token.Form
/-!
# Tokens — comments are opaque

A comment is recognised in three places: behind a `;` where a token may begin,
behind a `;` that ends the arguments of a command, and on the lines between the
opener and the closer of a block comment (`Comment`). Each scan that passes over
one ends where the comment does, whatever stands in it, and gives tokens that do
not show it. So with another text in its place the same tokens are seen, or the
same fault is found (`Comment.seenIn_cut`).

In a block comment the other text must be whole lines none of which closes it; the
closer is then found behind them (`Scan.interior?_lines`).
-/

namespace HotkeyScript

open Text

/-! ## What is seen of a piece -/

/-- A token wherever it stands: its kind, its lexeme, and whether a blank came in
front of it. -/
def Token.seen (t : Token) : TokenKind × String × Bool := (t.kind, t.lexeme, t.spaced)

namespace Piece

/-- The token that a piece makes, wherever it stands. -/
def seen? : Piece → Option (TokenKind × String × Bool)
  | gap _ => none
  | token kind lexeme _ spaced => some (kind, String.ofList lexeme, spaced)

theorem map_seen_place (p : Position) (ps : List Piece) :
    (place p ps).map Token.seen = ps.filterMap seen? := by
  induction ps generalizing p with
  | nil => rfl
  | cons q ps ih =>
    cases q with
    | gap text => exact ih _
    | token => exact congrArg (_ :: ·) (ih _)

/-- The tokens of a cut wherever they stand, or its fault. -/
def seenIn (r : Except Cut (List Piece)) :
    Except LexicalFault (List (TokenKind × String × Bool)) :=
  (r.map (List.filterMap seen?)).mapError Cut.fault

theorem seenIn_behind (front : List Piece) (r : Except Cut (List Piece)) :
    seenIn (behind front r) = (seenIn r).map (front.filterMap seen? ++ ·) := by
  cases r with
  | ok ps => exact congrArg Except.ok List.filterMap_append
  | error e => rfl

end Piece

/-- Whether a line starts behind a scan is seen of its tokens. -/
theorem Scan.startsLine_congr {s t : Scan}
    (h : t.pieces.filterMap Piece.seen? = s.pieces.filterMap Piece.seen?) (before : Bool) :
    t.startsLine before = s.startsLine before := by
  have hseen (s : Scan) : s.startsLine before =
      (s.pieces.filterMap Piece.seen?).foldl (fun _ t => t.1 == .lineEnd) before := by
    rw [startsLine, List.foldl_filterMap]
    congr
    funext b p
    cases p <;> rfl
  rw [hseen s, hseen t, h]

namespace Piece

open Scan

variable {lineStart : Bool} {blanks cs tail tail' : List Char} {c : Char} {s s' : Scan}

theorem takeWhile_blanks (hb : ∀ b ∈ blanks, isBlank b = true) (hc : isBlank c = false)
    (tail : List Char) : (blanks ++ c :: tail).takeWhile isBlank = blanks ∧
      (blanks ++ c :: tail).dropWhile isBlank = c :: tail := by
  rw [List.takeWhile_append_of_pos hb, List.dropWhile_append_of_pos hb, List.takeWhile_cons, hc,
    List.dropWhile_cons, hc]
  exact ⟨List.append_nil blanks, rfl⟩

/-- Scans that show the same and leave the same are followed by the same. -/
theorem seenIn_cut_congr (hb : ∀ b ∈ blanks, isBlank b = true) (hc : isBlank c = false)
    (hs : next lineStart (!blanks.isEmpty) c tail = .ok s)
    (hs' : next lineStart (!blanks.isEmpty) c tail' = .ok s')
    (hseen : s'.pieces.filterMap seen? = s.pieces.filterMap seen?) (hrest : s'.rest = s.rest) :
    seenIn (cut lineStart (blanks ++ c :: tail')) =
      seenIn (cut lineStart (blanks ++ c :: tail)) := by
  obtain ⟨ht, hd⟩ := takeWhile_blanks hb hc tail
  obtain ⟨ht', hd'⟩ := takeWhile_blanks hb hc tail'
  rw [cut_of_scan hd (ht.symm ▸ hs), cut_of_scan hd' (ht'.symm ▸ hs'), seenIn_behind, seenIn_behind,
    ht, ht', hrest, startsLine_congr hseen, List.filterMap_cons, List.filterMap_cons, hseen]

end Piece

/-! ## Comments -/

/-- Lines with their breaks. -/
def wholeLines (ls : List (List Char)) : List Char := ls.flatMap (· ++ ['\n'])

/-- What a comment may be bounded by. -/
inductive CommentKind where
  /-- the `;` in front of it and the end of its line -/
  | line
  /-- the line of the opener and the line of the closer -/
  | block
deriving DecidableEq

/-- **What may stand in a comment**: no line break behind a `;`, and no closing
line in a block comment. -/
def CommentKind.Admits : CommentKind → List Char → Prop
  | line, cs => '\n' ∉ cs
  | block, cs => ∃ ls, cs = wholeLines ls ∧
      ∀ l ∈ ls, '\n' ∉ l ∧ Scan.closesHere (l.dropWhile isBlank) = false

open Scan in
/-- **A comment that the lexer recognises**, on its way through a script with the
next token first on its line or not: what it takes in front of the comment in the
same scan, the text of the comment, and what stands behind. -/
inductive Comment : (lineStart : Bool) → CommentKind → (opener inside rest : List Char) → Prop where
  /-- behind a `;` where a token may begin -/
  | ofToken {lineStart : Bool} {blanks : List Char} (cs : List Char) :
      (∀ b ∈ blanks, isBlank b = true) →
      Comment lineStart .line (blanks ++ [';']) (thisLine cs) (fromLineEnd cs)
  /-- behind a `;` that ends the arguments of a command -/
  | ofArguments {lineStart : Bool} {blanks name front line inside rest : List Char}
      {args : List (List Char)} :
      (∀ b ∈ blanks, isBlank b = true) → TokenKind.ofWord? (String.ofList name) = some .command →
      (front ++ ';' :: (inside ++ rest)).takeWhile isNameChar = [] →
      (front ++ ';' :: (inside ++ rest)).dropWhile isBlank = line → readsExpression line = false →
      arguments true (withoutComma line) = (args, ';' :: inside, rest) →
      Comment lineStart .line (blanks ++ name ++ front ++ [';']) inside rest
  /-- on the lines between the `/*` and the `*/` of a block comment -/
  | ofBlock {blanks white inside indent rest : List Char} :
      (∀ b ∈ blanks, isBlank b = true) → restIsWhite white = true → '\n' ∉ white →
      lastLine inside = [] → '\n' ∉ indent →
      interior? false (white ++ '\n' :: (inside ++ (indent ++ '*' :: '/' :: rest))) =
        some (white ++ '\n' :: (inside ++ indent), rest) →
      Comment true .block (blanks ++ ['/', '*'] ++ white ++ ['\n']) inside
        (indent ++ '*' :: '/' :: rest)

/-- The character that the text of a comment begins behind. -/
def CommentKind.mark : CommentKind → Char
  | line => ';'
  | block => '\n'

/-- What the lexer takes in front of a comment ends with its mark. -/
theorem Comment.exists_opener_eq {lineStart : Bool} {kind : CommentKind}
    {opener inside rest : List Char} (h : Comment lineStart kind opener inside rest) :
    ∃ front, opener = front ++ [kind.mark] := by
  cases h with
  | ofToken | ofArguments | ofBlock => exact ⟨_, rfl⟩

namespace Scan

/-! ## Behind a `;` -/

/-- A rest that begins where a line ends. -/
def AtLineEnd (rest : List Char) : Prop := rest = [] ∨ ∃ r, rest = '\n' :: r

theorem atLineEnd_fromLineEnd (cs : List Char) : AtLineEnd (fromLineEnd cs) := fromLineEnd_cases cs

/-- A line up to its end. -/
theorem line_append {cs rest : List Char} (hcs : '\n' ∉ cs) (hrest : AtLineEnd rest) :
    thisLine (cs ++ rest) = cs ∧ fromLineEnd (cs ++ rest) = rest := by
  have hne : ∀ c ∈ cs, (c != '\n') = true := fun c hc => bne_iff_ne.2 fun he => hcs (he ▸ hc)
  unfold thisLine fromLineEnd
  rw [List.takeWhile_append_of_pos hne, List.dropWhile_append_of_pos hne]
  obtain rfl | ⟨r, rfl⟩ := hrest
  · exact ⟨List.append_nil cs, rfl⟩
  · exact ⟨List.append_nil cs, rfl⟩

theorem notMem_thisLine (cs : List Char) : '\n' ∉ thisLine cs := by
  intro h
  have hc := List.all_eq_true.1 (List.all_takeWhile (p := (· != '\n')) (l := cs)) '\n' h
  simp at hc

theorem comment_append {cs rest : List Char} (hcs : '\n' ∉ cs) (hrest : AtLineEnd rest) :
    comment (cs ++ rest) = ⟨[.gap (';' :: cs)], rest⟩ := by
  obtain ⟨hline, hend⟩ := line_append hcs hrest
  rw [comment, hline, hend]

/-- What ends the arguments of a command ends them with any text in it. -/
theorem arguments_comment {front inside rest other : List Char} {args : List (List Char)}
    {afterGap : Bool}
    (h : arguments afterGap (front ++ ';' :: (inside ++ rest)) = (args, ';' :: inside, rest))
    (ho : '\n' ∉ other) :
    arguments afterGap (front ++ ';' :: (other ++ rest)) = (args, ';' :: other, rest) := by
  induction front generalizing afterGap args with
  | nil =>
    rw [List.nil_append, arguments, if_neg (by decide)] at h ⊢
    split at h
    next hc =>
      rw [if_pos hc]
      simp only [Prod.mk.injEq, List.cons.injEq, true_and] at h
      obtain ⟨rfl, -, hrest⟩ := h
      obtain ⟨hline, hend⟩ := line_append ho (hrest ▸ atLineEnd_fromLineEnd _)
      rw [hline, hend]
    next hc =>
      -- the `;` would belong to the argument, and the comment would be longer than what follows
      have hle := length_arguments_le (isGap ';') (inside ++ rest)
      rw [if_neg (by decide)] at h
      simp only [Prod.mk.injEq] at h
      rw [h.2.1, h.2.2, List.length_append, List.length_cons] at hle
      omega
  | cons a front ih =>
    rw [List.cons_append, arguments] at h ⊢
    split at h
    next => simp at h
    next hn =>
      rw [if_neg hn]
      split at h
      next hc =>
        -- the comment would begin here already
        simp only [Prod.mk.injEq, List.cons.injEq] at h
        have hl := congrArg List.length (thisLine_append_fromLineEnd
          (front ++ ';' :: (inside ++ rest)))
        rw [h.2.1.2, h.2.2] at hl
        simp only [List.length_append, List.length_cons] at hl
        omega
      next hc =>
        rw [if_neg hc]
        split at h
        next hcomma =>
          generalize hx : arguments false (front ++ ';' :: (inside ++ rest)) = x at h
          obtain ⟨as, comment, r⟩ := x
          cases h
          rw [if_pos hcomma, ih hx]
        next hcomma =>
          generalize hx : arguments (isGap a) (front ++ ';' :: (inside ++ rest)) = x at h
          obtain ⟨as, comment, r⟩ := x
          cases h
          rw [if_neg hcomma, ih hx]

/-- The arguments of a command are seen without the comment behind them. -/
theorem seen_argumentPieces (spaced : Bool) (tail tail' : List Char) (args : List (List Char)) :
    (argumentPieces spaced tail' args).filterMap Piece.seen? =
      (argumentPieces spaced tail args).filterMap Piece.seen? := by
  fun_induction argumentPieces spaced tail args with
  | case1 => rfl
  | case2 => rfl
  | case3 arg args hne ih =>
    rw [argumentPieces]
    · simp only [List.filterMap_cons, Piece.seen?, ih]
    · exact hne

theorem takeWhile_append_semicolon {p : Char → Bool} (hp : p ';' = false) {cs rest : List Char}
    (h : (cs ++ ';' :: rest).takeWhile p = []) (rest' : List Char) :
    (cs ++ ';' :: rest').takeWhile p = [] := by
  cases cs with
  | nil => rw [List.nil_append, List.takeWhile_cons, hp]; rfl
  | cons c cs =>
    rw [List.cons_append, List.takeWhile_cons] at h ⊢
    split at h
    next => cases h
    next hc => rw [if_neg hc]

/-- There is one command. -/
theorem eq_of_ofWord?_command {name : List Char}
    (h : TokenKind.ofWord? (String.ofList name) = some .command) :
    name = ['M', 's', 'g', 'B', 'o', 'x'] := by
  unfold TokenKind.ofWord? at h
  split at h <;> cases h
  next hname => simpa using congrArg String.toList hname

/-- A command in front of a text that does not continue its name. -/
theorem next_command (lineStart spaced : Bool) {cs : List Char}
    (h : cs.takeWhile isNameChar = []) :
    next lineStart spaced 'M' (['s', 'g', 'B', 'o', 'x'] ++ cs) =
      .ok ⟨.token .command ['M', 's', 'g', 'B', 'o', 'x'] ['M', 's', 'g', 'B', 'o', 'x'] spaced ::
        (afterCommand spaced cs).pieces, (afterCommand spaced cs).rest⟩ := by
  have hname : ∀ c ∈ ['s', 'g', 'B', 'o', 'x'], isNameChar c = true :=
    List.all_eq_true.1 (by decide)
  have hrest : cs.dropWhile isNameChar = cs := by
    have hsplit := List.takeWhile_append_dropWhile (p := isNameChar) (l := cs)
    rwa [h] at hsplit
  change Except.ok (word spaced 'M' _) = _
  rw [word, List.takeWhile_append_of_pos hname, List.dropWhile_append_of_pos hname, h, hrest,
    List.append_nil]
  rfl

theorem afterCommand_comment (spaced : Bool) {cs line rest comment : List Char}
    {args : List (List Char)} (hline : cs.dropWhile isBlank = line)
    (hr : readsExpression line = false)
    (ha : arguments true (withoutComma line) = (args, comment, rest)) :
    afterCommand spaced cs = ⟨.gap (cs.takeWhile isBlank) :: leadingComma spaced line ++
      argumentPieces spaced comment args, rest⟩ := by
  unfold afterCommand
  dsimp only
  rw [hline, hr, ha]
  rfl

/-! ## In a block comment -/

theorem closesHere_of_isBlank {c : Char} (hc : isBlank c = true) (cs : List Char) :
    closesHere (c :: cs) = false := by
  refine Bool.eq_false_iff.2 fun h => ?_
  obtain ⟨ds, hd⟩ := exists_of_closesHere h
  rw [(List.cons.inj hd).1] at hc
  cases hc

/-- A line that closes nothing is passed over. -/
theorem interior?_line {fresh : Bool} {l : List Char} (hl : '\n' ∉ l)
    (hc : fresh = true → closesHere (l.dropWhile isBlank) = false) (cs : List Char) :
    interior? fresh (l ++ '\n' :: cs) =
      (interior? true cs).map fun r => (l ++ '\n' :: r.1, r.2) := by
  induction l generalizing fresh with
  | nil =>
    rw [List.nil_append, interior?, if_neg (by simp [closesHere])]
    rfl
  | cons c l ih =>
    rw [List.mem_cons, not_or] at hl
    have hcl : closesHere (c :: l ++ '\n' :: cs) = closesHere (c :: l) :=
      closesHere_append_break cs c l
    have hcn : (c == '\n') = false := beq_eq_false_iff_ne.2 fun he => hl.1 he.symm
    have hopen : (fresh && closesHere (c :: (l ++ '\n' :: cs))) = false := by
      rw [Bool.and_eq_false_imp]
      intro hf
      by_cases hb : isBlank c = true
      · exact closesHere_of_isBlank hb _
      · have hc := hc hf
        rw [List.dropWhile_cons_of_neg hb] at hc
        exact hcl.trans hc
    have hrest (hfb : (fresh && isBlank c) = true) : closesHere (l.dropWhile isBlank) = false := by
      obtain ⟨hf, hb⟩ := Bool.and_eq_true_iff.1 hfb
      have hc := hc hf
      rwa [List.dropWhile_cons_of_pos hb] at hc
    rw [List.cons_append, interior?, hopen, hcn, if_neg Bool.false_ne_true, Bool.false_or,
      ih hl.2 hrest, Option.map_map]
    rfl

theorem wholeLines_cons (l : List Char) (ls : List (List Char)) :
    wholeLines (l :: ls) = l ++ '\n' :: wholeLines ls := by
  rw [wholeLines, List.flatMap_cons, List.append_assoc]
  rfl

/-- **The closer is found behind lines that do not close**, on the first that
does. -/
theorem interior?_lines {ls : List (List Char)} {indent rest : List Char}
    (hls : ∀ l ∈ ls, '\n' ∉ l ∧ closesHere (l.dropWhile isBlank) = false)
    (hi : ∀ b ∈ indent, isBlank b = true) (hr : restIsWhite rest = true) :
    interior? true (wholeLines ls ++ (indent ++ '*' :: '/' :: rest)) =
      some (wholeLines ls ++ indent, rest) := by
  induction ls with
  | nil =>
    induction indent with
    | nil =>
      have hclose : closesHere ('*' :: '/' :: rest) = true := hr
      rw [wholeLines, List.flatMap_nil, List.nil_append, List.nil_append, interior?, hclose]
      rfl
    | cons b indent ih =>
      obtain ⟨hb, hi⟩ := List.forall_mem_cons.1 hi
      have hclose := closesHere_of_isBlank hb (indent ++ '*' :: '/' :: rest)
      have ih := ih hi
      rw [wholeLines, List.flatMap_nil, List.nil_append, List.nil_append] at ih ⊢
      rw [List.cons_append, interior?, hclose, hb, Bool.and_false, if_neg Bool.false_ne_true,
        Bool.and_true, Bool.or_true, ih]
      rfl
  | cons l ls ih =>
    obtain ⟨⟨hl, hc⟩, hls⟩ := List.forall_mem_cons.1 hls
    rw [wholeLines_cons, List.append_assoc, List.cons_append, interior?_line hl fun _ => hc,
      ih hls, List.append_assoc]
    rfl

/-- The indent of the closer is the last line in front of it. -/
theorem lastLine_indent (white : List Char) {inside indent : List Char}
    (hin : lastLine inside = []) (hil : '\n' ∉ indent) :
    lastLine (white ++ '\n' :: (inside ++ indent)) = indent := by
  have hlist : white ++ '\n' :: (inside ++ indent) = white ++ ['\n'] ++ inside ++ indent := by
    simp only [List.append_assoc, List.cons_append, List.nil_append]
  rw [hlist, lastLine_append_of_notMem hil]
  by_cases hm : '\n' ∈ inside
  · rw [lastLine_append_of_mem hm, hin, List.nil_append]
  · rw [lastLine_of_notMem hm] at hin
    rw [hin, List.append_nil, lastLine_append_break, List.nil_append]

/-- A block comment that is opened on a line of its own and closed. -/
theorem next_block (spaced : Bool) {white text inside rest : List Char}
    (hw : restIsWhite white = true)
    (hi : interior? false (white ++ '\n' :: text) = some (inside, rest)) :
    next true spaced '/' ('*' :: (white ++ '\n' :: text)) =
      .ok ⟨[.token .openComment ['/', '*'] ['/', '*'] spaced, .gap inside,
        .token .closeComment ['*', '/'] ['*', '/'] spaced], rest⟩ := by
  have hslash (cs : List Char) : next true spaced '/' cs = slash true spaced cs := rfl
  rw [hslash, slash, restIsWhite_append_break, hw, hi]
  rfl

end Scan

/-! ## Comments are opaque -/

open Piece Scan in
/-- **Comments are opaque to the lexer.** With another text in the place of a
comment, the same tokens are seen from there on, or the same fault is found. -/
theorem Comment.seenIn_cut {lineStart : Bool} {kind : CommentKind}
    {opener inside rest other : List Char} (h : Comment lineStart kind opener inside rest)
    (ho : kind.Admits other) :
    seenIn (cut lineStart (opener ++ (other ++ rest))) =
      seenIn (cut lineStart (opener ++ (inside ++ rest))) := by
  cases h with
  | @ofToken _ blanks cs hb =>
    have hs {text : List Char} (ht : '\n' ∉ text) (spaced : Bool) :
        next lineStart spaced ';' (text ++ fromLineEnd cs) =
          .ok ⟨[.gap (';' :: text)], fromLineEnd cs⟩ :=
      congrArg Except.ok (comment_append ht (atLineEnd_fromLineEnd cs))
    rw [List.append_assoc, List.append_assoc]
    exact seenIn_cut_congr hb rfl (hs (notMem_thisLine cs) _) (hs ho _) rfl rfl
  | @ofArguments _ blanks name front line inside rest args hb hn hname hline hr ha =>
    have hcomma : ';' ≠ ',' := by decide
    obtain rfl := eq_of_ofWord?_command hn
    rw [dropWhile_append_cons rfl] at hline
    subst hline
    have hahead : SameAhead (front.dropWhile isBlank ++ ';' :: (inside ++ rest))
        (front.dropWhile isBlank ++ ';' :: (other ++ rest)) :=
      SameAhead.append (.stop _ _ (.inl rfl)) _
    have hr' := hahead.readsExpression.trans hr
    have ha' : arguments true (withoutComma (front.dropWhile isBlank ++ ';' :: (other ++ rest))) =
        (args, ';' :: other, rest) := by
      rw [withoutComma_append_cons _ hcomma] at ha ⊢
      exact arguments_comment ha ho
    have hs := next_command lineStart (!blanks.isEmpty) hname
    have hs' := next_command lineStart (!blanks.isEmpty) (takeWhile_append_semicolon rfl hname
      (other ++ rest))
    rw [afterCommand_comment _ (dropWhile_append_cons rfl _ _) hr ha] at hs
    rw [afterCommand_comment _ (dropWhile_append_cons rfl _ _) hr' ha'] at hs'
    have hlist (text : List Char) : blanks ++ ['M', 's', 'g', 'B', 'o', 'x'] ++ front ++ [';'] ++
        (text ++ rest) = blanks ++ 'M' :: (['s', 'g', 'B', 'o', 'x'] ++
          (front ++ ';' :: (text ++ rest))) := by
      simp only [List.append_assoc, List.cons_append, List.nil_append]
    rw [hlist, hlist]
    refine seenIn_cut_congr hb rfl hs hs' ?_ rfl
    simp only [List.filterMap_cons, List.filterMap_append, List.cons_append, seen?,
      leadingComma_append_cons _ hcomma, seen_argumentPieces _ (';' :: inside) (';' :: other)]
  | @ofBlock blanks white inside indent rest hb hw hwl hin hil hi =>
    obtain ⟨hrest, hindent, -⟩ := interior?_closer hi
    rw [lastLine_indent white hin hil] at hindent
    obtain ⟨ls, rfl, hls⟩ := ho
    have hi' : interior? false
        (white ++ '\n' :: (wholeLines ls ++ (indent ++ '*' :: '/' :: rest))) =
          some (white ++ '\n' :: (wholeLines ls ++ indent), rest) := by
      rw [interior?_line hwl (fun h : false = true => nomatch h), interior?_lines hls hindent hrest]
      rfl
    have hlist (text : List Char) : blanks ++ ['/', '*'] ++ white ++ ['\n'] ++
        (text ++ (indent ++ '*' :: '/' :: rest)) = blanks ++ '/' :: '*' ::
          (white ++ '\n' :: (text ++ (indent ++ '*' :: '/' :: rest))) := by
      simp only [List.append_assoc, List.cons_append, List.nil_append]
    rw [hlist, hlist]
    exact seenIn_cut_congr hb rfl (next_block _ hw hi) (next_block _ hw hi') rfl rfl

end HotkeyScript
