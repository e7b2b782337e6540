import HotkeyScript.Token.Tokenize
/-!
# Tokens — no scan looks past a line break

A scan that succeeds at the end of a text succeeds just so where a line break
and more text follow: raw text, arguments and comments stop at the break as they
stop at the end, strings and numbers may not go over it, and a block comment that
is closed stays closed. A space ends marks, strings and numbers too
(`Scan.Separates`). So the pieces of a text stay when a line break and
another text are put behind it, but for the end, in whose place the break
stands; and behind the break the other text is cut as if it stood alone
(`Piece.cut_append_break`).
-/

namespace HotkeyScript

open Text

/-! ## Lines -/

/-- A class without a character reads up to the character as up to the end. -/
theorem takeWhile_append_cons {p : Char → Bool} {m : Char} (hp : p m = false)
    (cs rest : List Char) : (cs ++ m :: rest).takeWhile p = cs.takeWhile p := by
  induction cs with
  | nil => rw [List.nil_append, List.takeWhile_cons, hp]; rfl
  | cons c cs ih => simp only [List.cons_append, List.takeWhile_cons, ih]

theorem dropWhile_append_cons {p : Char → Bool} {m : Char} (hp : p m = false)
    (cs rest : List Char) : (cs ++ m :: rest).dropWhile p = cs.dropWhile p ++ m :: rest := by
  induction cs with
  | nil => rw [List.nil_append, List.dropWhile_cons, hp]; rfl
  | cons c cs ih =>
    simp only [List.cons_append, List.dropWhile_cons, ih]
    split <;> rfl

@[simp] theorem thisLine_append_break (cs rest : List Char) :
    thisLine (cs ++ '\n' :: rest) = thisLine cs :=
  takeWhile_append_cons rfl cs rest

@[simp] theorem fromLineEnd_append_break (cs rest : List Char) :
    fromLineEnd (cs ++ '\n' :: rest) = fromLineEnd cs ++ '\n' :: rest :=
  dropWhile_append_cons rfl cs rest

namespace Scan

/-- A scan in front of a character and more text. -/
def before (s : Scan) (m : Char) (rest : List Char) : Scan := ⟨s.pieces, s.rest ++ m :: rest⟩

/-- A character that goes on with no mark, no string and no number. -/
def Separates (m : Char) : Prop := m = ' ' ∨ m = '\n'

variable {m : Char} (hm : Separates m) (rest : List Char)

/-! ## Marks and comments -/

theorem comment_append_break (cs : List Char) :
    comment (cs ++ '\n' :: rest) = (comment cs).before '\n' rest := by
  simp only [comment, before, thisLine_append_break, fromLineEnd_append_break]

include hm in
theorem star_append_separator (spaced : Bool) (cs : List Char) :
    star spaced (cs ++ m :: rest) = (star spaced cs).before m rest := by
  cases cs with
  | nil => rcases hm with rfl | rfl <;> rfl
  | cons c cs => unfold star; split <;> simp_all [before, plain]

@[simp] theorem restIsWhite_append_break (cs : List Char) :
    restIsWhite (cs ++ '\n' :: rest) = restIsWhite cs := by
  rw [restIsWhite, thisLine_append_break, restIsWhite]

theorem exists_of_closesHere {cs : List Char} (h : closesHere cs = true) :
    ∃ ds, cs = '*' :: '/' :: ds := by
  unfold closesHere at h
  split at h
  next ds => exact ⟨ds, rfl⟩
  next => cases h

/-- A `*/` stands at the end of a text just where it stands in front of a
break. -/
theorem closesHere_append_break (c : Char) (cs : List Char) :
    closesHere (c :: cs ++ '\n' :: rest) = closesHere (c :: cs) := by
  cases cs with
  | nil =>
    have hn : closesHere (c :: '\n' :: rest) = false := by
      refine Bool.eq_false_iff.2 fun h => ?_
      obtain ⟨ds, hd⟩ := exists_of_closesHere h
      simp at hd
    refine hn.trans (Eq.symm (Bool.eq_false_iff.2 fun h => ?_))
    obtain ⟨ds, hd⟩ := exists_of_closesHere h
    cases hd
  | cons d cs =>
    by_cases hcd : c = '*' ∧ d = '/'
    · obtain ⟨rfl, rfl⟩ := hcd
      exact restIsWhite_append_break rest cs
    · have hf (es : List Char) : closesHere (c :: d :: es) = false := by
        refine Bool.eq_false_iff.2 fun h => hcd ?_
        obtain ⟨ds, hd⟩ := exists_of_closesHere h
        simp only [List.cons.injEq] at hd
        exact ⟨hd.1, hd.2.1⟩
      exact (hf _).trans (hf cs).symm

/-- A block comment that is closed is closed there. -/
theorem interior?_append_break {fresh : Bool} {cs inside left : List Char}
    (h : interior? fresh cs = some (inside, left)) :
    interior? fresh (cs ++ '\n' :: rest) = some (inside, left ++ '\n' :: rest) := by
  induction cs generalizing fresh inside with
  | nil => cases h
  | cons c cs ih =>
    have hc : closesHere (c :: (cs ++ '\n' :: rest)) = closesHere (c :: cs) :=
      closesHere_append_break rest c cs
    rw [interior?] at h
    rw [List.cons_append, interior?, hc]
    split at h
    next hclose =>
      cases h
      obtain ⟨ds, hd⟩ := exists_of_closesHere (Bool.and_eq_true_iff.1 hclose).2
      cases hd
      rw [if_pos hclose]
      rfl
    next hclose =>
      obtain ⟨r, hr, he⟩ := Option.map_eq_some_iff.1 h
      cases he
      rw [if_neg hclose, ih hr]
      rfl

variable {rest}

theorem slash_append_break {lineStart spaced : Bool} {cs : List Char} {s : Scan}
    (h : slash lineStart spaced cs = .ok s) :
    slash lineStart spaced (cs ++ '\n' :: rest) = .ok (s.before '\n' rest) := by
  unfold slash at h
  split at h
  next cs =>
    rw [List.cons_append, slash, restIsWhite_append_break]
    split at h
    next hopen =>
      rw [if_pos hopen]
      cases hi : interior? false cs with
      | none => rw [hi] at h; cases h
      | some r =>
        rw [hi] at h
        cases h
        rw [interior?_append_break rest hi]
        rfl
    next hopen =>
      cases h
      rw [if_neg hopen]
      rfl
  next hstar =>
    cases h
    cases cs with
    | nil => rfl
    | cons c cs =>
      unfold slash
      split
      next hcons => cases hcons; exact (hstar _ rfl).elim
      next => rfl

/-- A `:` that something follows is not the last character. -/
theorem colon_append_separator {spaced : Bool} {cs : List Char} {s : Scan}
    (h : colon spaced cs = .ok s) :
    colon spaced (cs ++ m :: rest) = .ok (s.before m rest) := by
  unfold colon at h
  split at h
  next => cases h; rfl
  next => cases h
  next hassign hnil =>
    cases h
    cases cs with
    | nil => exact (hnil rfl).elim
    | cons c cs =>
      unfold colon
      split
      next hcons => cases hcons; exact (hassign _ rfl).elim
      next hcons => cases hcons
      next => rfl

theorem equals_append_break (spaced : Bool) (cs : List Char) :
    equals spaced (cs ++ '\n' :: rest) = (equals spaced cs).before '\n' rest := by
  simp only [equals, before, thisLine_append_break, fromLineEnd_append_break]

/-! ## Strings and numbers -/

theorem string?_quote {c : Char} (h : c ≠ '"') (cs : List Char) :
    string? ('"' :: c :: cs) = some ([], ['"'], c :: cs) := by
  unfold string?
  split
  next hc => cases hc; exact (h rfl).elim
  next hc => cases hc; rfl
  next hq hc => cases hc; exact (hq rfl).elim
  next hc => cases hc

theorem string?_char {c : Char} (h : c ≠ '"') (hn : c ≠ '\n') (cs : List Char) :
    string? (c :: cs) = (string? cs).map fun r => (c :: r.1, c :: r.2.1, r.2.2) := by
  conv => lhs; unfold string?
  split <;> simp_all

include hm in
/-- A string that is closed is closed there. -/
theorem string?_append_separator {cs value text left : List Char}
    (h : string? cs = some (value, text, left)) :
    string? (cs ++ m :: rest) = some (value, text, left ++ m :: rest) := by
  fun_induction string? cs generalizing value text left with
  | case1 cs ih =>
    obtain ⟨⟨v, t, r⟩, hr, he⟩ := Option.map_eq_some_iff.1 h
    cases he
    rw [List.cons_append, List.cons_append, string?, ih hr]
    rfl
  | case2 cs hq =>
    cases h
    cases cs with
    | nil => rcases hm with rfl | rfl <;> rfl
    | cons c cs => exact string?_quote (fun hc => hq cs (by rw [hc])) _
  | case3 => cases h
  | case4 c cs hq hq' hn ih =>
    obtain ⟨⟨v, t, r⟩, hr, he⟩ := Option.map_eq_some_iff.1 h
    cases he
    rw [List.cons_append, string?_char (fun hc => hq' hc) hn, ih hr]
    rfl
  | case5 => cases h

include hm in
theorem quote_append_separator {spaced : Bool} {cs : List Char} {s : Scan}
    (h : quote spaced cs = .ok s) :
    quote spaced (cs ++ m :: rest) = .ok (s.before m rest) := by
  unfold quote at h
  split at h
  next value text left hs =>
    cases h
    rw [quote, string?_append_separator hm hs]
    rfl
  next => cases h

include hm in
/-- What may follow in a number literal is the same before a separator. -/
theorem Shape.next?_append_separator (shape : Shape) (c : Char) (cs : List Char) :
    shape.next? c (cs ++ m :: rest).head? = shape.next? c cs.head? := by
  rcases hm with rfl | rfl <;> cases cs <;> rfl

include hm in
theorem digits_append_separator {shape final : Shape} {cs text left : List Char}
    (h : digits shape cs = .ok (final, text, left)) :
    digits shape (cs ++ m :: rest) = .ok (final, text, left ++ m :: rest) := by
  induction cs generalizing shape text with
  | nil => cases h; rcases hm with rfl | rfl <;> rfl
  | cons c cs ih =>
    unfold digits at h
    rw [List.cons_append, digits, Shape.next?_append_separator hm]
    split at h
    next hc =>
      rw [if_pos hc]
      cases hn : shape.next? c cs.head? with
      | none => rw [hn] at h; cases h
      | some next =>
        rw [hn] at h
        cases hd : digits next cs with
        | error e => simp only [hd] at h; cases h
        | ok r =>
          obtain ⟨f, t, l⟩ := r
          simp only [hd] at h
          cases h
          simp only [ih hd]
    next hc =>
      cases h
      rw [if_neg hc]
      rfl

include hm in
theorem number_append_separator {spaced : Bool} {c : Char} {cs : List Char} {s : Scan}
    (h : number spaced c cs = .ok s) :
    number spaced c (cs ++ m :: rest) = .ok (s.before m rest) := by
  unfold number at h
  split at h
  · cases h
  next hd =>
    rw [number, digits_append_separator hm hd]
    split at h
    next => cases h
    next hx =>
      cases h
      simp only [if_neg hx]
      rfl

/-! ## Commands and words -/

variable (rest)

/-- Arguments end at the break, with the text of the line in them. -/
theorem arguments_append_break (afterGap : Bool) (cs : List Char) :
    arguments afterGap (cs ++ '\n' :: rest) =
      ((arguments afterGap cs).1, (arguments afterGap cs).2.1,
        (arguments afterGap cs).2.2 ++ '\n' :: rest) := by
  induction cs generalizing afterGap with
  | nil => rfl
  | cons c cs ih =>
    rw [List.cons_append, arguments, arguments]
    split
    · rfl
    split
    · rw [thisLine_append_break, fromLineEnd_append_break]
    split
    · rw [ih]
    · rw [ih]

/-- A `%` at the end of a line is no more an expression than one at the end of a
text. -/
theorem readsExpression_append_break (cs : List Char) :
    readsExpression (cs ++ '\n' :: rest) = readsExpression cs := by
  cases cs with
  | nil => rfl
  | cons c cs =>
    by_cases hn : c = '\n'
    · rw [hn]
      rfl
    by_cases hp : c = '%'
    · rw [hp]
      cases cs <;> rfl
    · unfold readsExpression
      split <;> simp_all

theorem leadingComma_append_cons {m : Char} (hm : m ≠ ',') (spaced : Bool) (cs : List Char) :
    leadingComma spaced (cs ++ m :: rest) = leadingComma spaced cs := by
  unfold leadingComma
  cases cs with
  | nil => split <;> simp_all
  | cons c cs => split <;> simp_all

theorem withoutComma_append_cons {m : Char} (hm : m ≠ ',') (cs : List Char) :
    withoutComma (cs ++ m :: rest) = withoutComma cs ++ m :: rest := by
  unfold withoutComma
  cases cs with
  | nil => split <;> simp_all
  | cons c cs => split <;> simp_all

theorem afterCommand_append_break (spaced : Bool) (cs : List Char) :
    afterCommand spaced (cs ++ '\n' :: rest) = (afterCommand spaced cs).before '\n' rest := by
  unfold afterCommand
  rw [takeWhile_append_cons rfl, dropWhile_append_cons rfl]
  dsimp only
  have hcomma : '\n' ≠ ',' := by decide
  rw [readsExpression_append_break, leadingComma_append_cons _ hcomma,
    withoutComma_append_cons _ hcomma, arguments_append_break]
  split <;> rfl

theorem word_append_break (spaced : Bool) (c : Char) (cs : List Char) :
    word spaced c (cs ++ '\n' :: rest) = (word spaced c cs).before '\n' rest := by
  unfold word
  rw [takeWhile_append_cons rfl, dropWhile_append_cons rfl]
  dsimp only
  split
  · rw [afterCommand_append_break]
    rfl
  · rfl

/-! ## One scan, and all of them -/

variable {rest}

/-- One scan does in front of a character what the other does at the end of a text,
if that succeeds. -/
def Keeps (m : Char) (rest : List Char) (x y : Except Cut Scan) : Prop :=
  ∀ s, x = .ok s → y = .ok (s.before m rest)

theorem Keeps.ok {s t : Scan} (h : t = s.before m rest) : Keeps m rest (.ok s) (.ok t) := by
  intro s' hs
  cases hs
  rw [h]

theorem Keeps.ite {p : Prop} [Decidable p] {x x' y y' : Except Cut Scan}
    (h : p → Keeps m rest x y) (h' : ¬ p → Keeps m rest x' y') :
    Keeps m rest (if p then x else x') (if p then y else y') := by
  by_cases hp : p
  · simpa only [if_pos hp] using h hp
  · simpa only [if_neg hp] using h' hp

/-- **A scan that succeeds at the end of a text** succeeds just so in front of a
line break. -/
theorem next_append_break (lineStart spaced : Bool) (c : Char) (cs : List Char) :
    Keeps '\n' rest (next lineStart spaced c cs) (next lineStart spaced c (cs ++ '\n' :: rest)) := by
  unfold next
  cases punctuation? c with
  | some kind => exact .ok rfl
  | none =>
    refine .ite (fun _ => .ok (comment_append_break rest cs)) fun _ => ?_
    refine .ite (fun _ => .ok (star_append_separator (.inr rfl) rest spaced cs)) fun _ => ?_
    refine .ite (fun _ s hs => slash_append_break hs) fun _ => ?_
    refine .ite (fun _ s hs => colon_append_separator hs) fun _ => ?_
    refine .ite (fun _ => .ok (equals_append_break spaced cs)) fun _ => ?_
    refine .ite (fun _ s hs => quote_append_separator (.inr rfl) hs) fun _ => ?_
    refine .ite (fun _ s hs => number_append_separator (.inr rfl) hs) fun _ => ?_
    exact .ite (fun _ => .ok (word_append_break rest spaced c cs)) fun _ => .ok rfl

end Scan

namespace Piece

open Scan

/-! ## Cuts, scan by scan -/

variable {lineStart : Bool} {cs tail : List Char} {c : Char}

/-- What a cut comes to behind some pieces. -/
def behind (front : List Piece) (r : Except Cut (List Piece)) : Except Cut (List Piece) :=
  (r.map (front ++ ·)).mapError (Cut.shift (Piece.textOf front))

theorem behind_append (front front' : List Piece) (r : Except Cut (List Piece)) :
    behind (front ++ front') r = behind front (behind front' r) := by
  cases r with
  | ok ps => exact congrArg Except.ok (List.append_assoc front front' ps)
  | error e =>
    refine congrArg Except.error ?_
    simp only [Cut.shift, textOf_append, List.append_assoc]

/-- Behind a scan that succeeds, the rest is cut. -/
theorem cut_of_scan {scan : Scan} (hc : cs.dropWhile isBlank = c :: tail)
    (hs : next lineStart (!(cs.takeWhile isBlank).isEmpty) c tail = .ok scan) :
    cut lineStart cs = behind (.gap (cs.takeWhile isBlank) :: scan.pieces)
      (cut (scan.startsLine lineStart) scan.rest) := by
  rw [cut]
  split
  next h => rw [hc] at h; cases h
  next c' tail' h =>
    rw [hc] at h
    cases h
    split
    next e he => rw [hs] at he; cases he
    next scan' hscan =>
      rw [hs] at hscan
      cases hscan
      cases cut (scan.startsLine lineStart) scan.rest <;> rfl

/-- In front of the end only blanks are left. -/
theorem cut_of_end (hc : cs.dropWhile isBlank = []) :
    cut lineStart cs = .ok [.gap (cs.takeWhile isBlank),
      .token .fileEnd [] [] !(cs.takeWhile isBlank).isEmpty] := by
  rw [cut]
  split
  next => rfl
  next h => rw [hc] at h; cases h

/-- A scan that fails is what is wrong with the text. -/
theorem cut_of_fault {fault : Cut} (hc : cs.dropWhile isBlank = c :: tail)
    (hs : Scan.next lineStart (!(cs.takeWhile isBlank).isEmpty) c tail = .error fault) :
    cut lineStart cs = .error (fault.shift (cs.takeWhile isBlank)) := by
  rw [cut]
  split
  next h => rw [hc] at h; cases h
  next c' tail' h =>
    rw [hc] at h
    cases h
    split
    next e he => rw [hs] at he; cases he; rfl
    next scan hscan => rw [hs] at hscan; cases hscan

/-- **A line break ends a text as its end does.** Where a text can be cut, it can
be cut in front of a break, which takes the place of the end, and another text is
cut behind the break as at the start of a script. -/
theorem cut_append_break {ps : List Piece} (h : cut lineStart cs = .ok ps) :
    ∃ front blanks spaced, ps = front ++ [.gap blanks, .token .fileEnd [] [] spaced] ∧
      ∀ rest, cut lineStart (cs ++ '\n' :: rest) =
        behind (front ++ [.gap blanks, .token .lineEnd ['\n'] ['\n'] spaced]) (cut true rest) := by
  fun_induction cut lineStart cs generalizing ps with
  | case1 lineStart cs =>
    rename_i hcs
    cases h
    refine ⟨[], cs.takeWhile isBlank, !(cs.takeWhile isBlank).isEmpty, rfl, fun rest => ?_⟩
    have hc : (cs ++ '\n' :: rest).dropWhile isBlank = '\n' :: rest := by
      rw [dropWhile_append_cons rfl, hcs, List.nil_append]
    rw [cut_of_scan hc rfl, takeWhile_append_cons rfl]
    rfl
  | case2 => cases h
  | case3 => cases h
  | case4 lineStart cs blanks c tail hcs scan hs more hmore =>
    rename_i ih
    cases h
    obtain ⟨front, bs, spaced, rfl, hrest⟩ := ih hmore
    refine ⟨.gap blanks :: scan.pieces ++ front, bs, spaced, by simp, fun rest => ?_⟩
    have hc : (cs ++ '\n' :: rest).dropWhile isBlank = c :: (tail ++ '\n' :: rest) := by
      rw [dropWhile_append_cons rfl, hcs, List.cons_append]
    have hb : (cs ++ '\n' :: rest).takeWhile isBlank = blanks := takeWhile_append_cons rfl cs rest
    have hn : next lineStart (!blanks.isEmpty) c (tail ++ '\n' :: rest) = .ok (scan.before '\n' rest) :=
      next_append_break lineStart _ c tail scan hs
    rw [← hb] at hn
    rw [cut_of_scan hc hn, hb, List.append_assoc, behind_append, ← hrest rest]
    rfl

end Piece

end HotkeyScript
