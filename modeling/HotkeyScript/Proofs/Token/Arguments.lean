import HotkeyScript.Proofs.Text.Returns
import HotkeyScript.Proofs.Token.Comment
/-!
# Tokens — raw arguments

What stands behind a command on a line that is no expression is cut at its commas, up to
a comment. Each argument is a token whose lexeme has its escapes resolved, the last one
without the carriage returns at its end (`Scan.lexemes`). Resolving escapes and
cutting at commas do not get into each other's way, for no escape ends with a comma
(`Text.unescape_intercalate`).
-/

namespace HotkeyScript

open Text

/-! ## Escapes and white space -/

namespace Text

/-- A character begins no escape unless it is a backtick in front of what ends one. -/
theorem unescape_cons {c : Char} {cs : List Char}
    (h : c = '\x60' → ∀ d ∈ cs.head?, d ∉ ['n', 't', 'r', '\x60']) :
    unescape (c :: cs) = c :: unescape cs := by
  conv => lhs; unfold unescape
  split
  case h_5 heq => cases heq; rfl
  case h_6 heq => cases heq
  all_goals
    rename_i heq
    cases heq
    exact absurd (h rfl _ rfl) (by decide)

/-- No escape goes over a character that no escape ends with. -/
theorem unescape_append {c : Char} (hc : c ∉ ['n', 't', 'r', '\x60']) (cs ds : List Char) :
    unescape (cs ++ c :: ds) = unescape cs ++ unescape (c :: ds) := by
  fun_induction unescape cs with
  | case1 cs ih | case2 cs ih | case3 cs ih | case4 cs ih =>
    simp only [List.cons_append, unescape, ih]
  | case5 a cs h1 h2 h3 h4 ih =>
    rw [List.cons_append, unescape_cons, ih]
    · rfl
    · rintro rfl d hd hmem
      cases cs with
      | nil =>
        obtain rfl := Option.mem_some.1 hd
        exact hc hmem
      | cons b cs =>
        obtain rfl := Option.mem_some.1 hd
        simp only [List.mem_cons, List.not_mem_nil, or_false] at hmem
        obtain rfl | rfl | rfl | rfl := hmem
        · exact h1 _ rfl rfl
        · exact h2 _ rfl rfl
        · exact h3 _ rfl rfl
        · exact h4 _ rfl rfl
  | case6 => rfl

/-- **Escapes are resolved between commas.** -/
theorem unescape_intercalate (ls : List (List Char)) :
    unescape ([','].intercalate ls) = [','].intercalate (ls.map unescape) := by
  induction ls with
  | nil => rfl
  | cons l ls ih =>
    cases ls with
    | nil => simp only [List.map_cons, List.map_nil, List.intercalate_singleton]
    | cons l' ls =>
      rw [List.map_cons] at ih
      rw [List.intercalate_cons_cons, List.append_assoc, List.singleton_append,
        unescape_append (by decide), unescape_cons (fun h => absurd h (by decide)), ih,
        List.map_cons, List.map_cons, List.intercalate_cons_cons, List.append_assoc,
        List.singleton_append]

/-- White space behind a text is none of its escapes. -/
theorem unescape_append_white {w : List Char} (hw : ∀ c ∈ w, isWhite c = true) (cs : List Char) :
    unescape (cs ++ w) = unescape cs ++ w := by
  have hnot {c : Char} (hc : isWhite c = true) : c ∉ ['n', 't', 'r', '\x60'] := by
    intro hmem
    simp only [List.mem_cons, List.not_mem_nil, or_false] at hmem
    rcases hmem with rfl | rfl | rfl | rfl <;> exact absurd hc (by decide)
  cases w with
  | nil => rw [List.append_nil, List.append_nil]
  | cons c w =>
    have hw' : unescape (c :: w) = c :: w :=
      unescape_eq_self fun hmem => absurd (hw _ hmem) (by decide)
    rw [unescape_append (hnot (hw c List.mem_cons_self)), hw']

/-- White space behind a text is trimmed off. -/
theorem trim_append {w : List Char} (hw : ∀ c ∈ w, isWhite c = true) (cs : List Char) :
    trim (cs ++ w) = trim cs := by
  unfold trim
  rw [List.dropWhile_append]
  split
  next hempty =>
    rw [List.isEmpty_iff.1 hempty, ← List.append_nil w, List.dropWhile_append_of_pos hw]
    rfl
  next =>
    rw [trimEnd, List.reverse_append,
      List.dropWhile_append_of_pos fun c hc => hw c (List.mem_reverse.1 hc), trimEnd]

theorem dropReturns_concat {c : Char} (hc : c ≠ '\r') (cs : List Char) :
    dropReturns (cs ++ [c]) = cs ++ [c] := by
  have hreturn : ¬ (c == '\r') = true := mt beq_iff_eq.1 hc
  rw [dropReturns, List.reverse_append, List.reverse_singleton, List.singleton_append,
    List.dropWhile_cons, if_neg hreturn, List.reverse_cons, List.reverse_reverse]

/-- What `dropReturns` drops. -/
theorem exists_dropReturns_append (cs : List Char) :
    ∃ w, (∀ c ∈ w, isWhite c = true) ∧ dropReturns cs ++ w = cs := by
  refine ⟨(cs.reverse.takeWhile (· == '\r')).reverse, fun c hc => ?_, ?_⟩
  · have hr := List.all_eq_true.1 List.all_takeWhile c (List.mem_reverse.1 hc)
    rw [beq_iff_eq.1 hr]
    decide
  · rw [dropReturns, ← List.reverse_append, List.takeWhile_append_dropWhile, List.reverse_reverse]

end Text

namespace Scan

/-! ## Cutting at commas -/

/-- Up to a line break that is not there. -/
theorem fromLineEnd_eq_nil {cs : List Char} (h : '\n' ∉ cs) : fromLineEnd cs = [] := by
  have hend := line_append h (.inl rfl)
  rw [List.append_nil] at hend
  exact hend.2

/-- The arguments of a command reach to the end of its line. -/
theorem rest_arguments {cs : List Char} (h : '\n' ∉ cs) (afterGap : Bool) :
    (arguments afterGap cs).2.2 = [] := by
  induction cs generalizing afterGap with
  | nil => rfl
  | cons c cs ih =>
    obtain ⟨hc, hcs⟩ := List.ne_and_not_mem_of_not_mem_cons h
    rw [arguments, if_neg (Ne.symm hc)]
    split
    · exact fromLineEnd_eq_nil hcs
    split
    · exact ih hcs _
    · exact ih hcs _

/-- A `;` that begins no comment: no space or tab is in front of it. -/
def Attached (cs : List Char) : Prop := ∀ c, [c, ';'] <:+: cs → isGap c = false

theorem Attached.tail {c : Char} {cs : List Char} (h : Attached (c :: cs)) : Attached cs :=
  fun d hd => h d (List.infix_cons hd)

theorem Attached.head? {c : Char} {cs : List Char} (h : Attached (c :: cs))
    (hc : isGap c = true) : cs.head? ≠ some ';' := by
  intro hhead
  cases cs with
  | nil => cases hhead
  | cons d cs =>
    obtain rfl := Option.some.inj hhead
    have hgap := h c ⟨[], cs, rfl⟩
    rw [hc] at hgap
    cases hgap

/-- **Without comments, a line is cut at all its commas** and at nothing else. -/
theorem arguments_eq_splitOn {cs : List Char} {afterGap : Bool} (hbreak : '\n' ∉ cs)
    (hattached : Attached cs) (hhead : afterGap = true → cs.head? ≠ some ';') :
    arguments afterGap cs = (cs.splitOn ',', [], []) := by
  induction cs generalizing afterGap with
  | nil => rfl
  | cons c cs ih =>
    obtain ⟨hc, hcs⟩ := List.ne_and_not_mem_of_not_mem_cons hbreak
    have hcomment : ¬ (c = ';' ∧ afterGap = true) := fun h => hhead h.2 (congrArg some h.1)
    rw [arguments, if_neg (Ne.symm hc), if_neg hcomment, List.splitOn,
      List.splitOnP_cons_eq_if_modifyHead]
    by_cases hcomma : c = ','
    · rw [if_pos hcomma, if_pos (beq_iff_eq.2 hcomma),
        ih hcs hattached.tail fun h => absurd h Bool.false_ne_true]
      rfl
    · rw [if_neg hcomma, if_neg (mt beq_iff_eq.1 hcomma), ih hcs hattached.tail hattached.head?]
      dsimp only
      rw [List.splitOn]
      generalize List.splitOnP _ cs = args, List.splitOnP_ne_nil (· == ',') cs = hne
      cases args with
      | nil => exact absurd rfl hne
      | cons => rfl

theorem notMem_splitOn {c d : Char} {cs : List Char} (h : c ∉ cs) :
    ∀ arg ∈ cs.splitOn d, c ∉ arg := by
  induction cs with
  | nil => exact List.forall_mem_singleton.2 List.not_mem_nil
  | cons a cs ih =>
    obtain ⟨ha, hcs⟩ := List.ne_and_not_mem_of_not_mem_cons h
    have ih := ih hcs
    rw [List.splitOn, List.splitOnP_cons_eq_if_modifyHead]
    rw [List.splitOn] at ih
    split
    · exact List.forall_mem_cons.2 ⟨List.not_mem_nil, ih⟩
    · generalize List.splitOnP _ cs = args at ih
      cases args with
      | nil => exact ih
      | cons arg args =>
        obtain ⟨harg, hargs⟩ := List.forall_mem_cons.1 ih
        exact List.forall_mem_cons.2 ⟨List.not_mem_cons_of_ne_of_not_mem ha harg, hargs⟩

/-! ## Their tokens -/

/-- The lexemes of raw arguments. -/
def lexemes : List (List Char) → List (List Char)
  | [] => []
  | [arg] => [unescape (dropReturns arg)]
  | arg :: args => unescape arg :: lexemes args

theorem lexemes_concat (front : List (List Char)) (last : List Char) :
    lexemes (front ++ [last]) = front.map unescape ++ [unescape (dropReturns last)] := by
  induction front with
  | nil => rfl
  | cons arg front ih =>
    rw [List.cons_append, lexemes, ih]
    · rfl
    · exact List.append_ne_nil_of_right_ne_nil front (List.cons_ne_nil last [])

/-- Without carriage returns none are dropped. -/
theorem lexemes_eq_map {args : List (List Char)} (h : ∀ arg ∈ args, '\r' ∉ arg) :
    lexemes args = args.map unescape := by
  fun_induction lexemes args with
  | case1 => rfl
  | case2 arg =>
    have hkeep := withoutReturns_eq_self (h arg List.mem_cons_self)
    rw [← hkeep, dropReturns_withoutReturns]
    rfl
  | case3 arg args hne ih =>
    rw [ih fun a ha => h a (List.mem_cons_of_mem _ ha)]
    rfl

end Scan

/-! ## The line of a command -/

/-- The characters of the one command's name. -/
def commandName : List Char := "MsgBox".toList

/-- **The pieces of a command and its raw arguments**, on the one line of a text. -/
theorem Piece.cut_command {cs line : List Char} (hname : cs.takeWhile isNameChar = [])
    (hbreak : '\n' ∉ cs) (hline : cs.dropWhile isBlank = line)
    (hraw : Scan.readsExpression line = false) :
    cut true (commandName ++ cs) = .ok
      (.gap [] :: .token .command commandName commandName false :: .gap (cs.takeWhile isBlank) ::
        (Scan.leadingComma false line ++ Scan.argumentPieces false
          (Scan.arguments true (Scan.withoutComma line)).2.1
          (Scan.arguments true (Scan.withoutComma line)).1) ++
        [.gap [], .token .fileEnd [] [] false]) := by
  have hrest : (Scan.arguments true (Scan.withoutComma line)).2.2 = [] := by
    refine Scan.rest_arguments (fun hmem => hbreak ?_) true
    have hline' : '\n' ∈ line := by
      rw [← Scan.leadingComma_append false line]
      exact List.mem_append_right _ hmem
    exact (List.dropWhile_sublist _).subset (hline ▸ hline')
  have hafter : Scan.afterCommand false cs = ⟨_, _⟩ :=
    Scan.afterCommand_comment false hline hraw rfl
  have hnext := Scan.next_command true false hname
  rw [hafter, hrest] at hnext
  rw [cut_of_scan (c := 'M') rfl hnext, cut_of_end rfl]
  simp only [behind, Except.map, List.cons_append, List.append_assoc]
  rfl

/-- A command, blanks, and the `%` of an expression. -/
def Piece.upToPercent (blanks : List Char) : List Piece :=
  [.gap [], .token .command commandName commandName false, .gap blanks, .gap [],
    .token .percent ['%'] ['%'] false]

/-- **The pieces of a command and the `%` of an expression**, which is cut as other
tokens are. -/
theorem Piece.cut_command_percent {cs tail : List Char} (hname : cs.takeWhile isNameChar = [])
    (hline : cs.dropWhile isBlank = '%' :: tail)
    (hexpr : Scan.readsExpression ('%' :: tail) = true) :
    cut true (commandName ++ cs) =
      behind (upToPercent (cs.takeWhile isBlank)) (cut false tail) := by
  have hafter : Scan.afterCommand false cs = ⟨[.gap (cs.takeWhile isBlank)], '%' :: tail⟩ := by
    unfold Scan.afterCommand
    dsimp only
    rw [hline, if_pos hexpr]
  have hnext := Scan.next_command true false hname
  rw [hafter] at hnext
  rw [cut_of_scan (c := 'M') rfl hnext, cut_of_scan (c := '%') rfl rfl, ← behind_append]
  rfl

end HotkeyScript
