import HotkeyScript.Proofs.Token.Arguments
/-!
# Tokens — a comment at the end of a line

With a space and a comment behind it, a line is cut into the same tokens as alone,
unless raw text reaches to its end (`Piece.cut_append_comment`). Each scan ends in front
of the space as it ends at the end of the text (`Scan.next_append_space`): only a
comment, the raw text behind a `=` and the arguments of a command go over it. Of the
arguments of a command the last one has white space more (`Scan.lexemes_append_comment`).
-/

namespace HotkeyScript

open Text

/-- Whether a token of this kind is raw text, or has raw text behind it. -/
def TokenKind.isRaw : TokenKind → Bool
  | command | equals | raw => true
  | _ => false

namespace Scan

variable {lineStart spaced : Bool} {c : Char} {cs comment : List Char} {s : Scan}

/-! ## In front of a space -/

/-- A block comment is not closed on its first line. -/
theorem interior?_eq_none {cs : List Char} (h : '\n' ∉ cs) : interior? false cs = none := by
  induction cs with
  | nil => rfl
  | cons c cs ih =>
    obtain ⟨hc, hcs⟩ := List.ne_and_not_mem_of_not_mem_cons h
    rw [interior?, Bool.false_and, Bool.false_and, Bool.or_false, if_neg Bool.false_ne_true,
      beq_eq_false_iff_ne.2 (Ne.symm hc), ih hcs]
    rfl

/-- A line with a comment is not white. -/
theorem restIsWhite_append_comment (h : '\n' ∉ cs) :
    restIsWhite (cs ++ ' ' :: ';' :: comment) = false := by
  have hne : ∀ d ∈ cs ++ [' ', ';'], (d != '\n') = true := by
    intro d hd
    rw [bne_iff_ne]
    rintro rfl
    obtain hd | hd := List.mem_append.1 hd
    · exact h hd
    · exact absurd hd (by decide)
  have hlist : cs ++ ' ' :: ';' :: comment = (cs ++ [' ', ';']) ++ comment := by
    rw [List.append_assoc]
    rfl
  rw [restIsWhite, thisLine, hlist, List.takeWhile_append_of_pos hne, List.all_eq_false]
  refine ⟨';', List.mem_append_left _ (List.mem_append_right _ ?_), by decide⟩
  exact List.mem_cons_of_mem _ List.mem_cons_self

theorem slash_append_comment (hbreak : '\n' ∉ cs) :
    Keeps ' ' (';' :: comment) (slash lineStart spaced cs)
      (slash lineStart spaced (cs ++ ' ' :: ';' :: comment)) := by
  intro s h
  unfold slash at h
  split at h
  next cs =>
    have hcs := List.not_mem_of_not_mem_cons hbreak
    rw [List.cons_append, slash, restIsWhite_append_comment hcs, Bool.and_false,
      if_neg Bool.false_ne_true]
    split at h
    next =>
      rw [interior?_eq_none hcs] at h
      cases h
    next =>
      cases h
      rfl
  next hstar =>
    cases h
    cases cs with
    | nil => rfl
    | cons c cs =>
      unfold slash
      split
      next hcons => cases hcons; exact (hstar _ rfl).elim
      next => rfl

theorem word_append_space
    (hword : TokenKind.ofWord? (String.ofList (c :: cs.takeWhile isNameChar)) ≠ some .command)
    (rest : List Char) :
    word spaced c (cs ++ ' ' :: rest) = (word spaced c cs).before ' ' rest := by
  have hkind : (TokenKind.ofWord? (String.ofList (c :: cs.takeWhile isNameChar))).getD
      .identifier ≠ .command := by
    intro hk
    cases ho : TokenKind.ofWord? (String.ofList (c :: cs.takeWhile isNameChar)) with
    | none => rw [ho] at hk; cases hk
    | some kind => rw [ho] at hk hword; exact hword (congrArg some hk)
  unfold word
  rw [takeWhile_append_cons rfl, dropWhile_append_cons rfl]
  dsimp only
  rw [if_neg hkind, if_neg hkind]
  rfl

/-- None of the tokens among some pieces is a raw text or has one behind it. -/
def NoRaw (ps : List Piece) : Prop := ∀ t ∈ ps.filterMap Piece.seen?, t.1.isRaw = false

/-- **A scan ends in front of a space and a comment as at the end of the text**, if it is
no comment itself and takes no raw text. -/
theorem next_append_space (comment : List Char) (hbreak : '\n' ∉ cs) (hc : c ≠ ';')
    (hs : next lineStart spaced c cs = .ok s) (hraw : NoRaw s.pieces) :
    next lineStart spaced c (cs ++ ' ' :: ';' :: comment) =
      .ok (s.before ' ' (';' :: comment)) := by
  have hno {kind : TokenKind} {lexeme text : List Char} {spaced : Bool} {ps : List Piece}
      {rest : List Char} (hkind : kind.isRaw = true)
      (h : (Except.ok ⟨.token kind lexeme text spaced :: ps, rest⟩ : Except Cut Scan) = .ok s) :
      False := by
    cases h
    exact Bool.false_ne_true ((hraw _ List.mem_cons_self).symm.trans hkind)
  have hseparates : Separates ' ' := .inl rfl
  unfold next at hs ⊢
  cases hk : punctuation? c with
  | some kind =>
    rw [hk] at hs
    cases hs
    rfl
  | none =>
    rw [hk] at hs
    dsimp only at hs ⊢
    rw [if_neg hc] at hs ⊢
    split at hs
    next hstar =>
      cases hs
      rw [if_pos hstar, star_append_separator hseparates]
    next hstar =>
    rw [if_neg hstar]
    split at hs
    next hslash => rw [if_pos hslash]; exact slash_append_comment hbreak s hs
    next hslash =>
    rw [if_neg hslash]
    split at hs
    next hcolon => rw [if_pos hcolon]; exact colon_append_separator hs
    next hcolon =>
    rw [if_neg hcolon]
    split at hs
    next => exact (hno (rfl : TokenKind.equals.isRaw = true) hs).elim
    next hequals =>
    rw [if_neg hequals]
    split at hs
    next hquote => rw [if_pos hquote]; exact quote_append_separator hseparates hs
    next hquote =>
    rw [if_neg hquote]
    split at hs
    next hdigit => rw [if_pos hdigit]; exact number_append_separator hseparates hs
    next hdigit =>
    rw [if_neg hdigit]
    split at hs
    next hname =>
      rw [if_pos hname, word_append_space fun hword => ?_]
      · cases hs
        rfl
      · unfold word at hs
        dsimp only at hs
        rw [hword] at hs
        exact hno (rfl : TokenKind.command.isRaw = true) hs
    next hname =>
      cases hs
      rw [if_neg hname]
      rfl

/-- On the last line a comment is all that is left. -/
theorem next_comment (h : '\n' ∉ cs) :
    next lineStart spaced ';' cs = .ok ⟨[.gap (';' :: cs)], []⟩ := by
  have hcomment : comment (cs ++ []) = ⟨[.gap (';' :: cs)], []⟩ := comment_append h (.inl rfl)
  rw [List.append_nil] at hcomment
  exact congrArg Except.ok hcomment

theorem NoRaw.of_append {ps qs : List Piece} (h : NoRaw (ps ++ qs)) : NoRaw ps ∧ NoRaw qs := by
  unfold NoRaw at h
  rw [List.filterMap_append, List.forall_mem_append] at h
  exact h

end Scan

namespace Scan

/-! ## Raw arguments -/

/-- An expression that is there begins with a `%`. -/
theorem exists_of_readsExpression {line : List Char} (h : readsExpression line = true)
    (hne : line ≠ []) (hbreak : '\n' ∉ line) : ∃ tail, line = '%' :: tail := by
  unfold readsExpression at h
  split at h
  next => exact absurd rfl hne
  next => exact absurd List.mem_cons_self hbreak
  next c cs => exact ⟨c :: cs, rfl⟩
  next => cases h

/-- Whether a line is an expression shows in it, unless it is a `%` alone. -/
theorem readsExpression_append {line : List Char} (hne : line ≠ []) (hpercent : line ≠ ['%'])
    (rest : List Char) : readsExpression (line ++ rest) = readsExpression line := by
  cases line with
  | nil => exact absurd rfl hne
  | cons c line =>
    by_cases hc : c = '%'
    · subst hc
      cases line with
      | nil => exact absurd rfl hpercent
      | cons => rfl
    · unfold readsExpression
      split <;> simp_all

/-- In front of a comment the last argument has a space more, unless a comment is there
already. -/
theorem arguments_append_comment {cs : List Char} (hbreak : '\n' ∉ cs) (comment : List Char)
    (afterGap : Bool) :
    ∃ front last w, (w = [] ∨ w = [' ']) ∧ (arguments afterGap cs).1 = front ++ [last] ∧
      (arguments afterGap (cs ++ ' ' :: ';' :: comment)).1 = front ++ [last ++ w] := by
  induction cs generalizing afterGap with
  | nil => exact ⟨[], [], [' '], .inr rfl, rfl, rfl⟩
  | cons c cs ih =>
    obtain ⟨hc, hcs⟩ := List.ne_and_not_mem_of_not_mem_cons hbreak
    rw [List.cons_append, arguments, arguments, if_neg (Ne.symm hc), if_neg (Ne.symm hc)]
    split
    next => exact ⟨[], [], [], .inl rfl, rfl, rfl⟩
    split
    next =>
      obtain ⟨front, last, w, hw, hargs, hargs'⟩ := ih hcs false
      exact ⟨[] :: front, last, w, hw, congrArg ([] :: ·) hargs, congrArg ([] :: ·) hargs'⟩
    next =>
      obtain ⟨front, last, w, hw, hargs, hargs'⟩ := ih hcs (isGap c)
      dsimp only
      rw [hargs, hargs']
      cases front with
      | nil => exact ⟨[], c :: last, w, hw, rfl, rfl⟩
      | cons arg front => exact ⟨(c :: arg) :: front, last, w, hw, rfl, rfl⟩

/-- **A comment behind raw arguments** puts no more than white space to the last of
them. -/
theorem lexemes_append_comment {cs : List Char} (hbreak : '\n' ∉ cs) (comment : List Char)
    (afterGap : Bool) :
    ∃ front last w, (∀ c ∈ w, isWhite c = true) ∧
      lexemes (arguments afterGap cs).1 = front ++ [last] ∧
      lexemes (arguments afterGap (cs ++ ' ' :: ';' :: comment)).1 = front ++ [last ++ w] := by
  obtain ⟨front, last, w, hw, hargs, hargs'⟩ := arguments_append_comment hbreak comment
    afterGap
  rw [hargs, hargs', lexemes_concat, lexemes_concat]
  obtain rfl | rfl := hw
  · refine ⟨front.map unescape, unescape (dropReturns last), [], fun c hc => ?_, rfl, ?_⟩
    · exact absurd hc List.not_mem_nil
    · rw [List.append_nil, List.append_nil]
  · -- behind the space the returns at the end of the argument are not at its end any more
    obtain ⟨returns, hreturns, hlast⟩ := exists_dropReturns_append last
    have hwhite : ∀ c ∈ returns ++ [' '], isWhite c = true :=
      List.forall_mem_append.2 ⟨hreturns, List.forall_mem_singleton.2 rfl⟩
    have hkeep : dropReturns (last ++ [' ']) = dropReturns last ++ (returns ++ [' ']) := by
      rw [← List.append_assoc, hlast, dropReturns_concat (by decide)]
    refine ⟨front.map unescape, unescape (dropReturns last), returns ++ [' '], hwhite, rfl, ?_⟩
    rw [hkeep, unescape_append_white hwhite]

end Scan

namespace Piece

open Scan

/-! ## Other tokens -/

/-- Where a comment is all that is left, nothing is seen up to the end. -/
theorem cut_comment {lineStart : Bool} {cs tail : List Char}
    (hcs : cs.dropWhile isBlank = ';' :: tail) (htail : '\n' ∉ tail) :
    cut lineStart cs = .ok ([.gap (cs.takeWhile isBlank), .gap (';' :: tail)] ++
      [.gap [], .token .fileEnd [] [] false]) := by
  rw [cut_of_scan hcs (next_comment htail), cut_of_end rfl]
  rfl

/-- **A comment behind a line changes none of its tokens**, unless raw text reaches to
the end of the line. -/
theorem cut_append_comment {lineStart : Bool} {cs comment : List Char} {ps : List Piece}
    (hbreak : '\n' ∉ cs) (hcomment : '\n' ∉ comment) (h : cut lineStart cs = .ok ps) :
    ∃ front blanks spaced, ps = front ++ [.gap blanks, .token .fileEnd [] [] spaced] ∧
      (NoRaw front → ∃ front', cut lineStart (cs ++ ' ' :: ';' :: comment) =
          .ok (front' ++ [.gap [], .token .fileEnd [] [] false]) ∧
        front'.filterMap seen? = front.filterMap seen?) := by
  fun_induction cut lineStart cs generalizing ps with
  | case1 lineStart cs =>
    rename_i hcs
    cases h
    refine ⟨[], cs.takeWhile isBlank, _, rfl, fun _ => ?_⟩
    have hbehind : (cs ++ ' ' :: ';' :: comment).dropWhile isBlank = ';' :: comment := by
      rw [List.dropWhile_append, hcs]
      rfl
    exact ⟨_, cut_comment hbehind hcomment, rfl⟩
  | case2 => cases h
  | case3 => cases h
  | case4 lineStart cs blanks c tail hcs scan hs more hmore =>
    rename_i ih
    cases h
    have htail : '\n' ∉ tail := fun hmem =>
      hbreak ((List.dropWhile_sublist _).subset (hcs ▸ List.mem_cons_of_mem c hmem))
    have hbehind : (cs ++ ' ' :: ';' :: comment).dropWhile isBlank =
        c :: (tail ++ ' ' :: ';' :: comment) := by
      rw [List.dropWhile_append, hcs]
      rfl
    by_cases hc : c = ';'
    · -- the comment goes on with the one that is there
      subst hc
      have hline : '\n' ∉ tail ++ ' ' :: ';' :: comment := by
        simp only [List.mem_append, List.mem_cons, not_or]
        exact ⟨htail, by decide, by decide, hcomment⟩
      obtain rfl := Except.ok.inj (hs.symm.trans (next_comment htail))
      rw [cut_of_end rfl] at hmore
      cases hmore
      exact ⟨[.gap blanks, .gap (';' :: tail)], [], false, rfl,
        fun _ => ⟨_, cut_comment hbehind hline, rfl⟩⟩
    · obtain ⟨text, htext, hrest⟩ := covers_next hs
      obtain ⟨front, blanks', spaced, rfl, hfront⟩ :=
        ih (fun hmem => htail (hrest ▸ List.mem_append_right _ hmem)) hmore
      refine ⟨.gap blanks :: scan.pieces ++ front, blanks', spaced,
        (List.append_assoc _ front _).symm, fun hraw => ?_⟩
      obtain ⟨hscan, hmore'⟩ := NoRaw.of_append (show NoRaw (scan.pieces ++ front) from hraw)
      obtain ⟨front', hcut, hseen⟩ := hfront hmore'
      have hnext := next_append_space comment htail hc hs hscan
      have hblanks : (cs ++ ' ' :: ';' :: comment).takeWhile isBlank = blanks := by
        rw [List.takeWhile_append]
        split
        next hlength =>
          have hcover := congrArg List.length
            (List.takeWhile_append_dropWhile (p := isBlank) (l := cs))
          rw [hcs, List.length_append, List.length_cons] at hcover
          omega
        next => rfl
      rw [← hblanks] at hnext
      refine ⟨.gap blanks :: scan.pieces ++ front', ?_, ?_⟩
      · rw [cut_of_scan hbehind hnext, hblanks]
        change behind _ (cut (scan.startsLine lineStart) (scan.rest ++ ' ' :: ';' :: comment)) = _
        rw [hcut]
        exact congrArg Except.ok (List.append_assoc _ front' _).symm
      · rw [List.filterMap_append, List.filterMap_append, hseen]

end Piece

end HotkeyScript
