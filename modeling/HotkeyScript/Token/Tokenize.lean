import HotkeyScript.Token.Piece
/-!
# Tokens — a script's token list

`Piece.cut` cuts a whole script by repeated scans. Each scan covers a
nonempty front of what it is given (`Scan.Covers`), which ends the
recursion and makes the cut lossless (`Piece.textOf_cut`). `Piece.place`
gives each token its span by walking the texts of the pieces, and
`tokenize` joins the two. A token list begins with the start of the file
and ends with its end.
-/

namespace HotkeyScript

open Text

namespace Scan

/-! ## Every scan covers a front -/

/-- The scan took a nonempty front, starting with `c`, off `c :: cs`. -/
def Covers (s : Scan) (c : Char) (cs : List Char) : Prop :=
  ∃ t, Piece.textOf s.pieces = c :: t ∧ t ++ s.rest = cs

theorem Covers.rest_length_le {s : Scan} {c : Char} {cs : List Char} (h : s.Covers c cs) :
    s.rest.length ≤ cs.length := by
  obtain ⟨t, -, rfl⟩ := h
  simp

theorem Covers.textOf_append_rest {s : Scan} {c : Char} {cs : List Char} (h : s.Covers c cs) :
    Piece.textOf s.pieces ++ s.rest = c :: cs := by
  obtain ⟨t, ht, rfl⟩ := h
  simp [ht]

theorem covers_plain {kind : TokenKind} {c : Char} {t rest : List Char} {spaced : Bool} :
    (plain kind (c :: t) spaced rest).Covers c (t ++ rest) := ⟨t, by simp [plain, Piece.text], rfl⟩

/-- A line and what follows it make up the text. -/
theorem thisLine_append_fromLineEnd (cs : List Char) : thisLine cs ++ fromLineEnd cs = cs :=
  List.takeWhile_append_dropWhile

theorem covers_comment (cs : List Char) : (comment cs).Covers ';' cs :=
  ⟨thisLine cs, by simp [comment, Piece.text], thisLine_append_fromLineEnd cs⟩

theorem covers_star (spaced : Bool) (cs : List Char) : (star spaced cs).Covers '*' cs := by
  unfold star
  split
  · exact covers_plain (t := ['/'])
  · exact covers_plain (t := [])

/-- The inside of a block comment, its `*/` and the rest make up the text. -/
theorem interior?_append {fresh : Bool} {cs inside rest : List Char}
    (h : interior? fresh cs = some (inside, rest)) : inside ++ '*' :: '/' :: rest = cs := by
  induction cs generalizing fresh inside with
  | nil => simp [interior?] at h
  | cons c cs ih =>
    unfold interior? at h
    split at h
    next hc =>
      cases h
      simp only [Bool.and_eq_true] at hc
      have hc := hc.2
      unfold closesHere at hc
      split at hc <;> simp_all
    next =>
      obtain ⟨r, hr, he⟩ := Option.map_eq_some_iff.1 h
      cases he
      simp [ih hr]

theorem covers_slash {lineStart spaced : Bool} {cs : List Char} {s : Scan}
    (h : slash lineStart spaced cs = .ok s) : s.Covers '/' cs := by
  unfold slash at h
  split at h
  · split at h
    · split at h
      next hi =>
        cases h
        have hi := interior?_append hi
        exact ⟨_, by simp [Piece.text]; rfl, by simp [← hi]⟩
      next => cases h
    · cases h; exact covers_plain (t := ['*'])
  · cases h; exact covers_plain (t := [])

theorem covers_colon {spaced : Bool} {cs : List Char} {s : Scan}
    (h : colon spaced cs = .ok s) : s.Covers ':' cs := by
  unfold colon at h
  split at h <;> cases h
  · exact covers_plain (t := ['='])
  · exact covers_plain (t := [])

theorem covers_equals (spaced : Bool) (cs : List Char) : (equals spaced cs).Covers '=' cs :=
  ⟨thisLine cs, by simp [equals, Piece.text], thisLine_append_fromLineEnd cs⟩

/-- A string's text and the rest make up what was read. -/
theorem string?_append {cs value text rest : List Char}
    (h : string? cs = some (value, text, rest)) : text ++ rest = cs := by
  fun_induction string? cs generalizing value text rest with
  | case1 cs ih =>
    obtain ⟨⟨v, t, r⟩, hr, he⟩ := Option.map_eq_some_iff.1 h
    cases he; simp [ih hr]
  | case2 => cases h; rfl
  | case3 => cases h
  | case4 c cs _ _ _ ih =>
    obtain ⟨⟨v, t, r⟩, hr, he⟩ := Option.map_eq_some_iff.1 h
    cases he; simp [ih hr]
  | case5 => cases h

theorem covers_quote {spaced : Bool} {cs : List Char} {s : Scan}
    (h : quote spaced cs = .ok s) : s.Covers '"' cs := by
  unfold quote at h
  split at h
  next hs => cases h; exact ⟨_, by simp [Piece.text], string?_append hs⟩
  next => cases h

/-- A literal's text and the rest make up what was read. -/
theorem digits_append {shape final : Shape} {cs text rest : List Char}
    (h : digits shape cs = .ok (final, text, rest)) : text ++ rest = cs := by
  induction cs generalizing shape text with
  | nil => cases h; rfl
  | cons c cs ih =>
    unfold digits at h
    split at h
    · split at h
      · cases h
      · split at h
        next hd => cases h; simp [ih hd]
        next => cases h
    · cases h; rfl

theorem covers_number {spaced : Bool} {c : Char} {cs : List Char} {s : Scan}
    (h : number spaced c cs = .ok s) : s.Covers c cs := by
  unfold number at h
  split at h
  · cases h
  next hd =>
    split at h <;> cases h
    rw [← digits_append hd]
    exact covers_plain

theorem extendFirst_ne_nil (c : Char) (ss : List (List Char)) : extendFirst c ss ≠ [] := by
  cases ss <;> simp [extendFirst]

/-- There is always an argument, if only an empty one. -/
theorem arguments_ne_nil (afterGap : Bool) (cs : List Char) : (arguments afterGap cs).1 ≠ [] := by
  cases cs with
  | nil => simp [arguments]
  | cons c cs =>
    unfold arguments
    split
    · simp
    · split
      · simp
      · split
        · simp
        · exact extendFirst_ne_nil _ _

theorem textOf_argumentPieces_extendFirst {spaced : Bool} {tail : List Char} {c : Char}
    {ss : List (List Char)} (h : ss ≠ []) :
    Piece.textOf (argumentPieces spaced tail (extendFirst c ss)) =
      c :: Piece.textOf (argumentPieces spaced tail ss) := by
  match ss with
  | [] => exact absurd rfl h
  | [s] => simp [extendFirst, argumentPieces, Piece.text]
  | s :: t :: ss => simp [extendFirst, argumentPieces, Piece.text]

/-- Raw arguments, commas, the comment and the rest make up what was read. -/
theorem textOf_argumentPieces (spaced afterGap : Bool) (cs : List Char) :
    Piece.textOf (argumentPieces spaced (arguments afterGap cs).2.1 (arguments afterGap cs).1) ++
      (arguments afterGap cs).2.2 = cs := by
  induction cs generalizing afterGap with
  | nil => simp [arguments, argumentPieces, Piece.text]
  | cons c cs ih =>
    unfold arguments
    split
    · simp [argumentPieces, Piece.text]
    · split
      · simp [argumentPieces, Piece.text, thisLine_append_fromLineEnd]
      · split
        next hc =>
          have := arguments_ne_nil false cs
          match he : (arguments false cs).1 with
          | [] => exact absurd he this
          | s :: ss =>
            have := ih false
            simp_all [argumentPieces, Piece.text]
        next =>
          simp only
          rw [textOf_argumentPieces_extendFirst (arguments_ne_nil _ _)]
          simp [ih]

theorem leadingComma_append (spaced : Bool) (cs : List Char) :
    Piece.textOf (leadingComma spaced cs) ++ withoutComma cs = cs := by
  unfold leadingComma withoutComma
  split <;> simp_all [Piece.text]

theorem afterCommand_append (spaced : Bool) (cs : List Char) :
    Piece.textOf (afterCommand spaced cs).pieces ++ (afterCommand spaced cs).rest = cs := by
  have hsplit : cs.takeWhile isBlank ++ cs.dropWhile isBlank = cs :=
    List.takeWhile_append_dropWhile
  unfold afterCommand
  simp only
  split
  · simp [Piece.text]
  · simp only [List.cons_append, Piece.textOf_cons, Piece.textOf_append, Piece.text,
      List.append_assoc, textOf_argumentPieces, leadingComma_append, hsplit]

theorem covers_word (spaced : Bool) (c : Char) (cs : List Char) : (word spaced c cs).Covers c cs := by
  have hsplit : cs.takeWhile isNameChar ++ cs.dropWhile isNameChar = cs :=
    List.takeWhile_append_dropWhile
  unfold word
  simp only
  split
  · refine ⟨_, by simp [Piece.text]; rfl, ?_⟩
    rw [List.append_assoc, afterCommand_append, hsplit]
  · exact ⟨_, by simp [plain, Piece.text], hsplit⟩

theorem covers_next {lineStart spaced : Bool} {c : Char} {cs : List Char} {s : Scan}
    (h : next lineStart spaced c cs = .ok s) : s.Covers c cs := by
  unfold next at h
  split at h
  · cases h; exact covers_plain (t := [])
  · split at h
    next hc => cases h; exact hc ▸ covers_comment cs
    split at h
    next hc => cases h; exact hc ▸ covers_star spaced cs
    split at h
    next hc => exact hc ▸ covers_slash h
    split at h
    next hc => exact hc ▸ covers_colon h
    split at h
    next hc => cases h; exact hc ▸ covers_equals spaced cs
    split at h
    next hc => exact hc ▸ covers_quote h
    split at h
    next => exact covers_number h
    split at h
    next => cases h; exact covers_word spaced c cs
    next => cases h; exact covers_plain (t := [])

end Scan

/-! ## The cut -/

namespace Piece

open Scan

/-- The pieces of a script. `lineStart` says whether the next token stands
first on its line. -/
def cut (lineStart : Bool) (cs : List Char) : Except Cut (List Piece) :=
  let blanks := cs.takeWhile isBlank
  match _hcs : cs.dropWhile isBlank with
  | [] => .ok [.gap blanks, .token .fileEnd [] [] !blanks.isEmpty]
  | c :: rest =>
    match _hs : next lineStart (!blanks.isEmpty) c rest with
    | .error cut => .error (cut.shift blanks)
    | .ok scan =>
      match cut (scan.startsLine lineStart) scan.rest with
      | .error cut => .error (cut.shift (blanks ++ Piece.textOf scan.pieces))
      | .ok more => .ok (.gap blanks :: scan.pieces ++ more)
termination_by cs.length
decreasing_by
  exact Nat.lt_of_le_of_lt (covers_next _hs).rest_length_le (length_lt_of_dropWhile _hcs)

/-- **The cut is lossless.** The texts of a script's pieces concatenate to
the script. -/
theorem textOf_cut {lineStart : Bool} {cs : List Char} {ps : List Piece}
    (h : cut lineStart cs = .ok ps) : Piece.textOf ps = cs := by
  have hsplit (cs : List Char) : cs.takeWhile isBlank ++ cs.dropWhile isBlank = cs :=
    List.takeWhile_append_dropWhile
  fun_induction cut lineStart cs generalizing ps with
  | case1 lineStart cs =>
    rename_i hcs
    cases h
    have := hsplit cs
    rw [hcs, List.append_nil] at this
    simp only [textOf_cons, textOf_nil, Piece.text, List.append_nil]
    exact this
  | case2 => cases h
  | case3 => cases h
  | case4 lineStart cs blanks c rest hcs scan hs more hmore =>
    rename_i ih
    cases h
    have hcover := (covers_next hs).textOf_append_rest
    simp only [List.cons_append, textOf_cons, Piece.text, textOf_append, ih hmore, hcover, ← hcs]
    exact hsplit cs

end Piece

/-! ## Places -/

/-- Gives each token its span, walking the pieces' texts from `p`. -/
def Piece.place (p : Position) : List Piece → List Token
  | [] => []
  | .gap text :: ps => place (p.past text) ps
  | .token kind lexeme text spaced :: ps =>
    ⟨kind, String.ofList lexeme, ⟨p, p.past text⟩, spaced⟩ :: place (p.past text) ps

/-- A lexical fault and where it is. -/
structure LexicalError where
  fault : LexicalFault
  span : Span
deriving DecidableEq, Inhabited

/-- The fault of a cut in a script that starts at the first position. -/
def Cut.toError (cut : Cut) : LexicalError :=
  let start := Position.start.past cut.before
  ⟨cut.fault, start, start.past cut.marked⟩

/-- The tokens of a script, or the first fault in it. -/
def tokenize (text : String) : Except LexicalError (List Token) :=
  match Piece.cut true text.toList with
  | .error cut => .error cut.toError
  | .ok ps => .ok (Piece.place .start (.token .fileStart [] [] false :: ps))

end HotkeyScript
