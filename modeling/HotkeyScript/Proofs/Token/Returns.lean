import Mathlib.Data.List.Forall2
import HotkeyScript.Proofs.Text.Returns
import HotkeyScript.Proofs.Token.Form
/-!
# Tokens — either kind of line break cuts alike

Where carriage returns stand nowhere but in breaks, a text is cut into the same
pieces as the text without them. A carriage return is a blank between tokens,
white space around a block comment, and dropped at the end of raw text; names,
numbers and strings stop in front of it as they stop in front of the line feed.
So every scan does the same in the one text as in the other (`Scan.next_bare`).
The one thing that a carriage return leaves behind is that a blank is seen in
front of the line feed (`Piece.Like`).
-/

namespace HotkeyScript

open Text

/-! ## What a scan takes, without carriage returns -/

/-- The piece in the text without carriage returns. -/
def Piece.bare : Piece → Piece
  | gap text => gap (withoutReturns text)
  | token kind lexeme text spaced => token kind lexeme (withoutReturns text) spaced

/-- The fault in the text without carriage returns. -/
def Cut.bare (cut : Cut) : Cut :=
  ⟨cut.fault, withoutReturns cut.before, withoutReturns cut.marked⟩

@[simp] theorem Cut.bare_shift (cs : List Char) (cut : Cut) :
    (cut.shift cs).bare = cut.bare.shift (withoutReturns cs) := by
  simp only [bare, shift, withoutReturns_append]

namespace Scan

/-- The scan of the text without carriage returns. -/
def bare (s : Scan) : Scan := ⟨s.pieces.map Piece.bare, withoutReturns s.rest⟩

/-- What comes of that scan. -/
def bareResult : Except Cut Scan → Except Cut Scan
  | .ok s => .ok s.bare
  | .error cut => .error cut.bare

variable {cs : List Char}

/-- A token whose text has no carriage return is the same token in either text. -/
theorem bare_plain {kind : TokenKind} {text : List Char} (h : '\r' ∉ text) (spaced : Bool)
    (rest : List Char) :
    (plain kind text spaced rest).bare = plain kind text spaced (withoutReturns rest) := by
  simp only [bare, plain, List.map_cons, List.map_nil, Piece.bare, withoutReturns_eq_self h]

/-! ## Marks and comments -/

/-- A comment to the end of its line may hold a carriage return, which goes with the
others. -/
theorem comment_bare (cs : List Char) : comment (withoutReturns cs) = (comment cs).bare := by
  simp [comment, bare, Piece.bare]

/-- Whether a `*/` stands here is seen at the character behind the star, and a slash is no
carriage return. -/
theorem star_bare (h : ReturnsAtBreaks cs) (spaced : Bool) :
    star spaced (withoutReturns cs) = (star spaced cs).bare := by
  have hs (ds : List Char) : (plain .times ['*'] spaced ds).bare =
      plain .times ['*'] spaced (withoutReturns ds) := bare_plain (by decide) spaced ds
  cases h with
  | nil => rfl
  | @char c cs hc _ =>
    rw [withoutReturns_cons hc]
    by_cases hd : c = '/'
    · rw [hd]
      exact (bare_plain (by decide) spaced cs).symm
    · rw [star, star, hs, withoutReturns_cons hc] <;> simp_all
  | «break» => rfl

@[simp] theorem restIsWhite_withoutReturns (cs : List Char) :
    restIsWhite (withoutReturns cs) = restIsWhite cs := by
  -- carriage returns are white space, so those that go were no obstacle
  rw [restIsWhite, restIsWhite, thisLine_withoutReturns, withoutReturns, List.all_filter]
  congr 1
  funext c
  by_cases hc : c = '\r'
  · rw [hc]; rfl
  · simp [hc]

/-- A block comment closes in the same places: behind its `*/` only white space may
follow, and a carriage return is white space. -/
theorem closesHere_withoutReturns (h : ReturnsAtBreaks cs) (c : Char) :
    closesHere (c :: withoutReturns cs) = closesHere (c :: cs) := by
  cases h with
  | nil => rfl
  | @char d cs hd _ =>
    rw [withoutReturns_cons hd]
    by_cases hcd : c = '*' ∧ d = '/'
    · rw [hcd.1, hcd.2, closesHere, closesHere, restIsWhite_withoutReturns]
    · rw [closesHere, closesHere] <;> simp_all
  | «break» => rw [closesHere, closesHere] <;> simp_all

/-- The inside of a block comment ends at the same place, and its own breaks lose their
returns. -/
theorem interior?_bare (h : ReturnsAtBreaks cs) (fresh : Bool) :
    interior? fresh (withoutReturns cs) =
      (interior? fresh cs).map fun r => (withoutReturns r.1, withoutReturns r.2) := by
  induction h generalizing fresh with
  | nil => rfl
  | @char c cs hc h ih =>
    rw [withoutReturns_cons hc, interior?, interior?, closesHere_withoutReturns h]
    split
    next hclose =>
      -- the slash of the `*/` is no carriage return
      cases h with
      | nil => rfl
      | char hd _ => rw [withoutReturns_cons hd]; rfl
      | «break» => simp [closesHere] at hclose
    next =>
      rw [ih, Option.map_map, Option.map_map]
      congr 1
      funext r
      exact congrArg (·, _) (withoutReturns_cons hc _).symm
  | @«break» cs _ ih =>
    have hr : isBlank '\r' = true := by decide
    have hclose (ds : List Char) : closesHere ('\r' :: ds) = false := by rw [closesHere]; simp
    have hclose' (ds : List Char) : closesHere ('\n' :: ds) = false := by rw [closesHere]; simp
    rw [withoutReturns_return, withoutReturns_cons (by decide)]
    simp only [interior?, hclose, hclose', Bool.and_false, Bool.false_eq_true, if_false, ih,
      Option.map_map, beq_self_eq_true, Bool.true_or]
    rfl

/-- A block comment opens at the same places, and one that is never closed is marked at
the same opening. -/
theorem slash_bare (h : ReturnsAtBreaks cs) (lineStart spaced : Bool) :
    slash lineStart spaced (withoutReturns cs) = bareResult (slash lineStart spaced cs) := by
  cases h with
  | nil => rfl
  | @char c cs hc h =>
    rw [withoutReturns_cons hc]
    by_cases hs : c = '*'
    · rw [hs, slash, slash, restIsWhite_withoutReturns, interior?_bare h]
      split
      · cases interior? false cs with
        | none => simp [bareResult, Cut.bare]
        | some r => simp [bareResult, bare, Piece.bare]
      · exact congrArg Except.ok (bare_plain (by decide) spaced cs).symm
    · rw [slash, slash, bareResult, bare_plain (by decide), withoutReturns_cons hc] <;> simp_all
  | «break» => rfl

theorem colon_bare (h : ReturnsAtBreaks cs) (spaced : Bool) :
    colon spaced (withoutReturns cs) = bareResult (colon spaced cs) := by
  cases h with
  | nil => rfl
  | @char c cs hc _ =>
    rw [withoutReturns_cons hc]
    by_cases he : c = '='
    · rw [he]
      exact congrArg Except.ok (bare_plain (by decide) spaced cs).symm
    · rw [colon, colon, bareResult, bare_plain (by decide), withoutReturns_cons hc] <;> simp_all
  | «break» => rfl

/-- Raw text ends before the carriage returns at the end of its line, so its lexeme is the
same. -/
theorem equals_bare (h : ReturnsAtBreaks cs) (spaced : Bool) :
    equals spaced (withoutReturns cs) = (equals spaced cs).bare := by
  simp [equals, bare, Piece.bare, dropReturns_withoutReturns, h.dropReturns_thisLine]

/-! ## Strings and numbers -/

/-- A string may not go over a break of either kind. -/
theorem string?_bare (h : ReturnsAtBreaks cs) :
    string? (withoutReturns cs) =
      (string? cs).map fun r => (r.1, withoutReturns r.2.1, withoutReturns r.2.2) := by
  fun_induction string? cs with
  | case1 cs ih =>
    rw [withoutReturns_cons (by decide), withoutReturns_cons (by decide), string?,
      ih h.tail.tail, Option.map_map, Option.map_map]
    congr 1
  | case2 cs hq =>
    rw [withoutReturns_cons (by decide), string?]
    · rfl
    · -- what follows the closing quote is no quote in the other text either
      intro ds hd
      cases h.tail with
      | nil => cases hd
      | char hc _ =>
        rw [withoutReturns_cons hc] at hd
        exact hq _ (by rw [(List.cons.inj hd).1])
      | «break» => cases hd
  | case3 cs _ =>
    rw [withoutReturns_cons (by decide), string?] <;> simp
  | case4 c cs hq hq' hn ih =>
    by_cases hc : c = '\r'
    · subst hc
      cases h with
      | char hc _ => exact absurd rfl hc
      | «break» h => simp [string?]
    · rw [withoutReturns_cons hc, string?, if_neg hn, ih h.tail, Option.map_map, Option.map_map]
      · congr 1
        funext r
        simp [hc]
      · exact fun _ hcq _ => hq' hcq
      · exact hq'
  | case5 => rfl

theorem quote_bare (h : ReturnsAtBreaks cs) (spaced : Bool) :
    quote spaced (withoutReturns cs) = bareResult (quote spaced cs) := by
  rw [quote, quote, string?_bare h]
  cases string? cs with
  | none => simp [bareResult, Cut.bare]
  | some r => simp [bareResult, bare, Piece.bare]

/-- Only whether a digit follows matters to a literal's shape. -/
theorem next?_withoutReturns (h : ReturnsAtBreaks cs) (shape : Shape) (c : Char) :
    shape.next? c (withoutReturns cs).head? = shape.next? c cs.head? := by
  have hd : (withoutReturns cs).head?.any Char.isDigit = cs.head?.any Char.isDigit := by
    cases h with
    | nil => rfl
    | char hc _ => rw [withoutReturns_cons hc]; rfl
    | «break» => rfl
  rw [Shape.next?, Shape.next?, hd]

/-- The shape of a literal is read off its characters, none of which is a carriage return,
and off the one that follows. -/
theorem digits_bare (h : ReturnsAtBreaks cs) (shape : Shape) :
    digits shape (withoutReturns cs) =
      (digits shape cs).map fun r => (r.1, r.2.1, withoutReturns r.2.2) := by
  induction h generalizing shape with
  | nil => rfl
  | @char c cs hc h ih =>
    rw [withoutReturns_cons hc, digits, digits, next?_withoutReturns h]
    split
    · cases shape.next? c cs.head? with
      | none => rfl
      | some shape =>
        simp only [ih]
        cases digits shape cs <;> rfl
    · simp [Except.map, hc]
  | «break» => rfl

/-- No carriage return stands among the characters of a literal. -/
theorem notMem_run (cs : List Char) : '\r' ∉ cs.takeWhile isNumberChar := by
  intro hm
  cases List.all_eq_true.1 List.all_takeWhile _ hm

theorem notMem_digits {shape final : Shape} {text rest : List Char}
    (h : digits shape cs = .ok (final, text, rest)) : '\r' ∉ text :=
  (digits_run h).1 ▸ notMem_run cs

/-- Nor is the character one that a literal cannot go on with. -/
theorem notMem_digits_error {shape : Shape} {before : List Char} {d : Char}
    (h : digits shape cs = .error (before, d)) : '\r' ∉ before ∧ '\r' ≠ d := by
  obtain ⟨more, hmore⟩ := digits_run_error h
  have hm := notMem_run cs
  rw [hmore, List.mem_append, List.mem_cons, not_or, not_or] at hm
  exact ⟨hm.1, hm.2.1⟩

/-- A number, or the character that is marked in it, is the same. -/
theorem number_bare (h : ReturnsAtBreaks cs) (spaced : Bool) {c : Char} (hc : c ≠ '\r') :
    number spaced c (withoutReturns cs) = bareResult (number spaced c cs) := by
  rw [number, number, digits_bare h]
  cases hd : digits (if c = '0' then .zero else .integer) cs with
  | error e =>
    -- neither what was read nor the character that cannot follow is a return
    obtain ⟨hb, he⟩ := notMem_digits_error hd
    simp [Except.map, bareResult, Cut.bare, hc, he.symm, withoutReturns_eq_self hb]
  | ok r =>
    have ht : '\r' ∉ c :: r.2.1 := fun hm =>
      (List.mem_cons.1 hm).elim (Ne.symm hc) (notMem_digits hd)
    simp only [Except.map]
    split
    · simp [bareResult, Cut.bare, hc]
    · exact congrArg Except.ok (bare_plain ht spaced r.2.2).symm

/-! ## Commands and words -/

/-- Raw arguments of which only the last may have a carriage return, and has it
at its end. -/
def ReturnsLast : List (List Char) → Prop
  | [] => True
  | [arg] => dropReturns arg = withoutReturns arg
  | arg :: args => '\r' ∉ arg ∧ ReturnsLast args

/-- An argument that ends at a comma has nothing of the break in it. -/
theorem ReturnsLast.nil_cons {args : List (List Char)} (h : ReturnsLast args) :
    ReturnsLast ([] :: args) := by
  cases args with
  | nil => rfl
  | cons => exact ⟨List.not_mem_nil, h⟩

theorem ReturnsLast.extendFirst {c : Char} (hc : c ≠ '\r') {args : List (List Char)}
    (h : ReturnsLast args) : ReturnsLast (extendFirst c args) := by
  have hcons {arg : List Char} (ha : dropReturns arg = withoutReturns arg) :
      dropReturns (c :: arg) = withoutReturns (c :: arg) := by
    rw [dropReturns_cons hc, withoutReturns_cons hc, ha]
  match args, h with
  | [], _ => exact hcons rfl
  | [arg], h => exact hcons h
  | arg :: arg' :: args, ⟨ha, h⟩ =>
    exact ⟨fun hm => (List.mem_cons.1 hm).elim (Ne.symm hc) ha, h⟩

/-- The arguments of a command stand on one line, so only the last of them comes up to its
break. -/
theorem returnsLast_arguments (h : ReturnsAtBreaks cs) (afterGap : Bool) :
    ReturnsLast (arguments afterGap cs).1 := by
  induction h generalizing afterGap with
  | nil => rfl
  | @char c cs hc h ih =>
    rw [arguments]
    split
    · rfl
    · split
      · rfl
      · split
        · exact (ih false).nil_cons
        · exact (ih _).extendFirst hc
  | «break» => rfl

theorem map_extendFirst {c : Char} (hc : c ≠ '\r') (args : List (List Char)) :
    (extendFirst c args).map withoutReturns = extendFirst c (args.map withoutReturns) := by
  cases args <;> simp [extendFirst, hc]

/-- The arguments, the comment and the rest are the same but for carriage
returns. -/
theorem arguments_bare (h : ReturnsAtBreaks cs) (afterGap : Bool) :
    arguments afterGap (withoutReturns cs) =
      ((arguments afterGap cs).1.map withoutReturns,
        withoutReturns (arguments afterGap cs).2.1,
        withoutReturns (arguments afterGap cs).2.2) := by
  induction h generalizing afterGap with
  | nil => rfl
  | @char c cs hc h ih =>
    rw [withoutReturns_cons hc, arguments, arguments]
    split
    · simp [hc]
    · split
      · simp [hc]
      · split
        · simp [ih]
        · simp [ih, map_extendFirst hc]
  | @«break» cs _ _ =>
    simp [arguments, extendFirst]

/-- Each argument makes the same tokens: in the last, the carriage return at its end is
dropped from the lexeme in either text. -/
theorem argumentPieces_bare (spaced : Bool) (tail : List Char) {args : List (List Char)}
    (h : ReturnsLast args) :
    argumentPieces spaced (withoutReturns tail) (args.map withoutReturns) =
      (argumentPieces spaced tail args).map Piece.bare := by
  induction args with
  | nil => rfl
  | cons arg args ih =>
    cases args with
    | nil =>
      have ha : dropReturns arg = withoutReturns arg := h
      simp [argumentPieces, Piece.bare, dropReturns_withoutReturns, ha]
    | cons arg' args =>
      have hp (tail arg arg' : List Char) (args : List (List Char)) :
          argumentPieces spaced tail (arg :: arg' :: args) =
            .token .raw (unescape arg) arg spaced :: .token .comma [','] [','] spaced ::
              argumentPieces spaced tail (arg' :: args) := rfl
      rw [List.map_cons, List.map_cons, hp, hp, ← List.map_cons, ih h.2,
        withoutReturns_eq_self h.1]
      simp [Piece.bare, withoutReturns_eq_self h.1]

/-- Behind the blanks stands no carriage return, so both lines begin alike. -/
theorem readsExpression_withoutReturns (h : ReturnsAtBreaks cs) (hr : cs.head? ≠ some '\r') :
    readsExpression (withoutReturns cs) = readsExpression cs := by
  cases h with
  | nil => rfl
  | @char c cs hc h =>
    rw [withoutReturns_cons hc]
    by_cases hp : c = '%'
    · rw [hp]
      cases h with
      | nil => rfl
      | char hd _ => rw [withoutReturns_cons hd]; rfl
      | «break» => rfl
    · by_cases hn : c = '\n'
      · rw [hn]; rfl
      · rw [readsExpression, readsExpression] <;> simp_all
  | «break» => exact absurd rfl hr

theorem leadingComma_bare (h : ReturnsAtBreaks cs) (spaced : Bool) :
    leadingComma spaced (withoutReturns cs) = (leadingComma spaced cs).map Piece.bare := by
  cases h with
  | nil => rfl
  | @char c cs hc _ =>
    rw [withoutReturns_cons hc]
    by_cases hd : c = ','
    · rw [hd]; rfl
    · rw [leadingComma, leadingComma] <;> simp_all
  | «break» => rfl

theorem withoutComma_bare (h : ReturnsAtBreaks cs) :
    withoutComma (withoutReturns cs) = withoutReturns (withoutComma cs) := by
  cases h with
  | nil => rfl
  | @char c cs hc _ =>
    rw [withoutReturns_cons hc]
    by_cases hd : c = ','
    · rw [hd]; rfl
    · rw [withoutComma, withoutComma] <;> simp_all
  | «break» => rfl

theorem returnsAtBreaks_withoutComma (h : ReturnsAtBreaks cs) :
    ReturnsAtBreaks (withoutComma cs) := by
  unfold withoutComma
  split
  · exact h.tail
  · exact h

/-- What stands behind a command word is read the same way, as an expression or as raw
arguments. -/
theorem afterCommand_bare (h : ReturnsAtBreaks cs) (spaced : Bool) :
    afterCommand spaced (withoutReturns cs) = (afterCommand spaced cs).bare := by
  have hl := h.dropWhile isBlank
  -- returns are blanks themselves, so none begins what follows the blanks
  have hr : (cs.dropWhile isBlank).head? ≠ some '\r' := by
    intro hr
    have hb := List.head?_dropWhile_not isBlank cs
    rw [hr] at hb
    cases hb
  have hb : isBlank '\r' = true := rfl
  have hc := returnsAtBreaks_withoutComma hl
  rw [afterCommand, afterCommand, takeWhile_withoutReturns hb, dropWhile_withoutReturns hb,
    readsExpression_withoutReturns hl hr]
  split
  · rfl
  · simp only [withoutComma_bare hl, arguments_bare hc, leadingComma_bare hl,
      argumentPieces_bare spaced _ (returnsLast_arguments hc true), bare, List.map_append,
      List.map_cons, List.cons_append, Piece.bare]

/-- A word ends in front of a carriage return as it ends in front of a line feed, and what
follows a command word is cut with it. -/
theorem word_bare (h : ReturnsAtBreaks cs) (spaced : Bool) {c : Char} (hc : c ≠ '\r') :
    word spaced c (withoutReturns cs) = (word spaced c cs).bare := by
  have ht : '\r' ∉ c :: cs.takeWhile isNameChar := fun hm =>
    (List.mem_cons.1 hm).elim (Ne.symm hc) (notMem_takeWhile rfl cs)
  rw [word, word, h.takeWhile_withoutReturns rfl rfl, h.dropWhile_withoutReturns rfl rfl]
  simp only
  split
  · simp only [afterCommand_bare (h.dropWhile isNameChar), bare, List.map_cons, Piece.bare,
      withoutReturns_eq_self ht]
  · exact (bare_plain ht spaced _).symm

/-! ## One scan -/

/-- **A scan does the same without the carriage returns.** -/
theorem next_bare (h : ReturnsAtBreaks cs) (lineStart spaced : Bool) {c : Char} (hc : c ≠ '\r') :
    next lineStart spaced c (withoutReturns cs) = bareResult (next lineStart spaced c cs) := by
  have hp (kind : TokenKind) : plain kind [c] spaced (withoutReturns cs) =
      (plain kind [c] spaced cs).bare :=
    (bare_plain (fun hm => hc (List.mem_singleton.1 hm).symm) spaced cs).symm
  rw [next, next]
  cases punctuation? c with
  | some kind => exact congrArg Except.ok (hp kind)
  | none =>
    simp only
    split
    · exact congrArg Except.ok (comment_bare cs)
    split
    · exact congrArg Except.ok (star_bare h spaced)
    split
    · exact slash_bare h lineStart spaced
    split
    · exact colon_bare h spaced
    split
    · exact congrArg Except.ok (equals_bare h spaced)
    split
    · exact quote_bare h spaced
    split
    · exact number_bare h spaced hc
    split
    · exact congrArg Except.ok (word_bare h spaced hc)
    · exact congrArg Except.ok (hp .unknown)

end Scan

/-! ## The cut -/

/-- A piece, and the one that stands for it in the text without carriage returns:
they differ in nothing but the text they were cut from, and in whether a blank
is seen in front of a line feed. -/
inductive Piece.Like : Piece → Piece → Prop where
  | gap (text : List Char) : Like (.gap text) (.gap (withoutReturns text))
  | token (kind : TokenKind) (lexeme text : List Char) {spaced spaced' : Bool} :
      (kind ≠ .lineEnd → spaced' = spaced) →
      Like (.token kind lexeme text spaced) (.token kind lexeme (withoutReturns text) spaced')

theorem Piece.like_bare (p : Piece) : p.Like p.bare := by
  cases p with
  | gap text => exact .gap text
  | token kind lexeme text spaced => exact .token kind lexeme text fun _ => rfl

theorem Piece.Like.text {p q : Piece} (h : p.Like q) : q.text = withoutReturns p.text := by
  cases h <;> rfl

namespace Scan

/-- A scan, and what stands for it in the text without carriage returns. -/
inductive Like : Except Cut Scan → Except Cut Scan → Prop where
  | ok {s t : Scan} : List.Forall₂ Piece.Like s.pieces t.pieces → t.rest = withoutReturns s.rest →
      Like (.ok s) (.ok t)
  | error (cut : Cut) : Like (.error cut) (.error cut.bare)

theorem like_bareResult (r : Except Cut Scan) : Like r (bareResult r) := by
  cases r with
  | error cut => exact .error cut
  | ok s =>
    refine .ok ?_ rfl
    rw [bare, List.forall₂_map_right_iff]
    exact List.forall₂_same.2 fun p _ => p.like_bare

/-- Kinds and lexemes decide whether a line begins, not the text that pieces are cut from. -/
theorem startsLine_of_like {s t : Scan} (h : List.Forall₂ Piece.Like s.pieces t.pieces)
    (before : Bool) : t.startsLine before = s.startsLine before := by
  unfold startsLine
  generalize s.pieces = ps at h
  generalize t.pieces = qs at h
  induction h generalizing before with
  | nil => rfl
  | cons hp _ ih => cases hp <;> exact ih _

theorem notMem_blanks {blanks : List Char} (h : ∀ b ∈ blanks, isBlank b = true) :
    '\n' ∉ blanks := by
  intro hm
  cases h '\n' hm

/-- **A scan behind blanks** sees them alike in either text, but in front of a
line feed. -/
theorem next_like {blanks rest : List Char} {c : Char} (h : ReturnsAtBreaks (blanks ++ c :: rest))
    (hb : ∀ b ∈ blanks, isBlank b = true) (hc : c ≠ '\r') (lineStart : Bool) :
    Like (next lineStart (!blanks.isEmpty) c rest)
      (next lineStart (!(withoutReturns blanks).isEmpty) c (withoutReturns rest)) := by
  by_cases hn : c = '\n'
  · -- a return may be the only blank in front of a line feed
    subst hn
    exact .ok (.cons (.token .lineEnd ['\n'] ['\n'] fun hk => absurd rfl hk) .nil) rfl
  · have hm : '\r' ∉ blanks :=
      h.notMem_of_append (notMem_blanks hb) fun hd => hn (Option.some.inj hd)
    rw [withoutReturns_eq_self hm,
      next_bare h.of_append.tail lineStart _ hc]
    exact like_bareResult _

end Scan

namespace Piece

/-- A cut, and what stands for it in the text without carriage returns. -/
inductive CutLike : Except Cut (List Piece) → Except Cut (List Piece) → Prop where
  | ok {ps qs : List Piece} : List.Forall₂ Like ps qs → CutLike (.ok ps) (.ok qs)
  | error (cut : Cut) : CutLike (.error cut) (.error cut.bare)

/-- Pieces that are alike are cut from the same text but for its returns. -/
theorem textOf_of_like {ps qs : List Piece} (h : List.Forall₂ Like ps qs) :
    textOf qs = withoutReturns (textOf ps) := by
  induction h with
  | nil => rfl
  | cons hp _ ih => rw [textOf_cons, textOf_cons, withoutReturns_append, hp.text, ih]

/-- Pieces that are alike may stand in front, also of a fault: it is moved on by as much
as they leave of the text. -/
theorem CutLike.behind {ps qs : List Piece} {r r' : Except Cut (List Piece)}
    (hp : List.Forall₂ Like ps qs) (h : CutLike r r') : CutLike (behind ps r) (behind qs r') := by
  cases h with
  | ok h => exact .ok (List.rel_append hp h)
  | error cut =>
    have he := CutLike.error (cut.shift (textOf ps))
    rw [Cut.bare_shift, ← textOf_of_like hp] at he
    exact he

/-- **A text is cut alike with and without the carriage returns of its
breaks.** -/
theorem cut_like {cs : List Char} (h : ReturnsAtBreaks cs) (lineStart : Bool) :
    CutLike (cut lineStart cs) (cut lineStart (withoutReturns cs)) := by
  have hr : isBlank '\r' = true := rfl
  have ht := takeWhile_withoutReturns hr cs
  have hd := dropWhile_withoutReturns hr cs
  have hb : ∀ b ∈ cs.takeWhile isBlank, isBlank b = true :=
    List.all_eq_true.1 List.all_takeWhile
  have hsplit : cs.takeWhile isBlank ++ cs.dropWhile isBlank = cs :=
    List.takeWhile_append_dropWhile
  rw [← hsplit] at h
  match hcs : cs.dropWhile isBlank with
  | [] =>
    rw [hcs] at hd h
    -- no line feed follows these blanks, so no return is among them
    have hm : '\r' ∉ cs.takeWhile isBlank :=
      h.notMem_of_append (Scan.notMem_blanks hb) (Option.some_ne_none '\n').symm
    have hg := Like.gap (cs.takeWhile isBlank)
    rw [withoutReturns_eq_self hm] at hg
    rw [cut_of_end hcs, cut_of_end hd, ht, withoutReturns_eq_self hm]
    exact .ok (.cons hg (.cons (like_bare _) .nil))
  | c :: tail =>
    have hc : c ≠ '\r' := by
      have hn := List.head?_dropWhile_not isBlank cs
      rw [hcs] at hn
      rintro rfl
      cases hn
    rw [hcs] at h
    rw [hcs, withoutReturns_cons hc] at hd
    have hl := Scan.next_like h hb hc lineStart
    rw [← ht] at hl
    generalize hs : Scan.next lineStart (!(cs.takeWhile isBlank).isEmpty) c tail = s at hl
    generalize hs' : Scan.next _ _ _ (withoutReturns tail) = s' at hl
    cases hl with
    | error cut =>
      rw [cut_of_fault hcs hs, cut_of_fault hd hs', ht, ← Cut.bare_shift]
      exact .error _
    | @ok scan scan' hp hrest =>
      have hcovers := Scan.covers_next hs
      have hn : ReturnsAtBreaks scan.rest := by
        obtain ⟨t, -, hrest⟩ := hcovers
        rw [← hrest] at h
        exact h.of_append.tail.of_append
      rw [cut_of_scan hcs hs, cut_of_scan hd hs', ht, hrest, Scan.startsLine_of_like hp]
      exact .behind (.cons (.gap _) hp) (cut_like hn _)
termination_by cs.length
decreasing_by exact Nat.lt_of_le_of_lt hcovers.rest_length_le (length_lt_of_dropWhile hcs)

end Piece

end HotkeyScript
