import HotkeyScript.Proofs.Comments
import HotkeyScript.Proofs.Program.BoxLine
import HotkeyScript.Proofs.Token.Trailing
/-!
# Comments behind a message box

A comment behind a line that is a message box takes nothing from the box and adds nothing
to it (`Source.box?_append_comment`). Where the line has an expression, the lexer sees the
same tokens and the parser the same script. Where it has raw arguments, the comment ends
the last of them, and the blank in front of it is trimmed with the others.

The blank is seen in one place: a `%` that nothing follows is a text of one character, and
a `%` before a blank hands the line to the expressions. Such a line has an expression that
is missing, and is refused.
-/

namespace HotkeyScript

open Text

/-! ## Tokens of a box with an expression -/

/-- Whether a phrase is an expression, or a row of expressions or entries. -/
def Phrase.isFormula : Phrase → Bool
  | expr _ | exprs _ | entry _ | entries _ => true
  | _ => false

/-- A number is no raw text. -/
theorem Token.isRaw_of_number? {t : Token} {literal : NumberLiteral}
    (h : t.number? = .ok literal) : t.kind.isRaw = false := by
  rw [number?] at h
  cases hform : t.kind.form? with
  | none =>
    rw [hform] at h
    cases h
  | some form =>
    generalize t.kind = kind at hform
    cases kind with
    | command | equals | raw => cases hform
    | _ => rfl

theorem UnaryOp.isRaw_of_ofKind? {kind : TokenKind} {op : UnaryOp} (h : ofKind? kind = some op) :
    kind.isRaw = false := by
  cases kind with
  | command | equals | raw => cases h
  | _ => rfl

theorem BinaryOp.isRaw_of_ofKind? {kind : TokenKind} {op : BinaryOp} (h : ofKind? kind = some op) :
    kind.isRaw = false := by
  cases kind with
  | command | equals | raw => cases h
  | _ => rfl

namespace Phrase.Spelled

/-- **No raw text stands in an expression.** -/
theorem isRaw_eq_false {phrase : Phrase} {ts : List Token} (h : Spelled phrase ts)
    (hphrase : phrase.isFormula = true) : ∀ t ∈ ts, t.kind.isRaw = false := by
  induction h with
  | number h => exact List.forall_mem_singleton.2 (Token.isRaw_of_number? h)
  | place _ hdot h ih =>
    have hnumber := Token.isRaw_of_number? h
    simp_all +decide [Phrase.isFormula, or_imp]
  | unary h _ ih =>
    have hop := UnaryOp.isRaw_of_ofKind? h
    simp_all [Phrase.isFormula]
  | binary _ h _ ih ih' =>
    have hop := BinaryOp.isRaw_of_ofKind? h
    simp_all [Phrase.isFormula, or_imp]
  | _ => simp_all +decide [Phrase.isFormula, or_imp]

/-- A row of no statements is one of line ends and comments. -/
theorem kind_of_nil {ts : List Token} (h : Spelled (.stmts []) ts) :
    ∀ t ∈ ts, t.kind = .lineEnd ∨ t.kind = .openComment ∨ t.kind = .closeComment := by
  generalize hphrase : Phrase.stmts [] = phrase at h
  induction h with
  | noStmts => exact fun _ hmem => absurd hmem List.not_mem_nil
  | lineEnd hk _ ih => exact List.forall_mem_cons.2 ⟨.inl hk, ih hphrase⟩
  | comment hk hk' _ ih =>
    exact List.forall_mem_cons.2 ⟨.inr (.inl hk), List.forall_mem_cons.2
      ⟨.inr (.inr hk'), ih hphrase⟩⟩
  | _ => cases hphrase

/-- What a box is spelled with, when nothing is skipped in front of it. -/
theorem exists_of_box {box : BoxArguments} {s : Span} {word : Token} {ts : List Token}
    (h : Spelled (.stmts [.box box s]) (word :: ts)) (hend : word.kind ≠ .lineEnd)
    (hcomment : word.kind ≠ .openComment) :
    ∃ front back, ts = front ++ back ∧ word.kind = .command ∧ Spelled (.stmts []) back ∧
      ((∃ percent mid text, front = percent :: mid ∧ Spelled (.expr text) mid) ∨
        ∃ args, BoxArguments.Line args front) := by
  generalize hts : word :: ts = us at h
  cases h with
  | lineEnd hk => cases hts; exact absurd hk hend
  | comment hk => cases hts; exact absurd hk hcomment
  | moreStmts hs hback =>
    cases hs with
    | boxExpr hword hpercent htext =>
      obtain ⟨rfl, rfl⟩ := List.cons.inj hts
      exact ⟨_, _, rfl, hword, hback, .inl ⟨_, _, _, rfl, htext⟩⟩
    | boxLine hword hline =>
      obtain ⟨rfl, rfl⟩ := List.cons.inj hts
      exact ⟨_, _, rfl, hword, hback, .inr ⟨_, hline⟩⟩

/-- Where a box begins with a `%`, no raw text stands behind its word. -/
theorem isRaw_of_box {box : BoxArguments} {s : Span} {word : Token} {ts : List Token}
    (h : Spelled (.stmts [.box box s]) (word :: ts)) (hend : word.kind ≠ .lineEnd)
    (hcomment : word.kind ≠ .openComment) (hpercent : nextKind ts = .percent) :
    ∀ t ∈ ts, t.kind.isRaw = false := by
  obtain ⟨front, back, rfl, -, hback, hfront⟩ := h.exists_of_box hend hcomment
  have hnone : ∀ t ∈ back, t.kind.isRaw = false := fun t ht => by
    rcases hback.kind_of_nil t ht with hk | hk | hk <;> rw [hk] <;> rfl
  obtain ⟨percent, mid, text, rfl, hmid⟩ | ⟨args, hline⟩ := hfront
  · have hpercent : percent.kind = .percent := hpercent
    refine List.forall_mem_append.2 ⟨List.forall_mem_cons.2 ⟨?_, hmid.isRaw_eq_false rfl⟩, hnone⟩
    rw [hpercent]
    rfl
  · cases front with
    | nil => exact hnone
    | cons t front =>
      have hk : t.kind = .percent := hpercent
      rcases hline.kinds t List.mem_cons_self with hk' | hk' <;> rw [hk] at hk' <;> cases hk'

end Phrase.Spelled

/-- What a script is read from is what it is spelled with. -/
theorem Rule.spelled_of_gives {ts : List Token} {ss : List Stmt} (h : Gives (script ts) ss []) :
    Phrase.Spelled (.stmts ss) ts := by
  obtain ⟨hlt, h⟩ := h
  obtain ⟨used, hused, hrest⟩ := reads_script _ _ h
  rwa [← hrest, List.append_nil]

/-- No word ends a line or opens a comment. -/
theorem TokenKind.ofWord?_ne (w : String) :
    (ofWord? w).getD .identifier ≠ .lineEnd ∧ (ofWord? w).getD .identifier ≠ .openComment := by
  unfold ofWord?
  split <;> exact ⟨by decide, by decide⟩

section

variable {source source' : Source} {cs comment : List Char} {box : BoxArguments} {s : Span}

/-- A line that is a box begins with the command, not with a longer name. -/
theorem Source.takeWhile_of_box (htext : source.text.toList = commandName ++ cs)
    (h : source.program = .ok ⟨[.box box s]⟩) : cs.takeWhile isNameChar = [] := by
  by_contra hname
  have hword : ∀ c ∈ ['s', 'g', 'B', 'o', 'x'], isNameChar c = true :=
    List.all_eq_true.1 (by decide)
  let name := 'M' :: (['s', 'g', 'B', 'o', 'x'] ++ cs.takeWhile isNameChar)
  have hkind : (TokenKind.ofWord? (String.ofList name)).getD .identifier ≠ .command := by
    intro hk
    cases ho : TokenKind.ofWord? (String.ofList name) with
    | none => rw [ho] at hk; cases hk
    | some kind =>
      rw [ho] at hk
      obtain rfl : kind = .command := hk
      have hlength := congrArg List.length (Scan.eq_of_ofWord?_command ho)
      have hpos := List.length_pos_iff.2 hname
      simp only [name, List.length_cons, List.length_append, List.length_nil] at hlength
      omega
  have hnext : Scan.next true false 'M' (['s', 'g', 'B', 'o', 'x'] ++ cs) = .ok (Scan.plain
      ((TokenKind.ofWord? (String.ofList name)).getD .identifier) name false
        (cs.dropWhile isNameChar)) := by
    change Except.ok (Scan.word false 'M' _) = _
    rw [Scan.word, List.takeWhile_append_of_pos hword, List.dropWhile_append_of_pos hword]
    exact congrArg Except.ok (if_neg hkind)
  have hcut : Piece.cut true (commandName ++ cs) = _ := Piece.cut_of_scan rfl hnext
  rw [← htext] at hcut
  obtain ⟨ps, hps, hgives⟩ := exists_cut_of_program hcut h
  obtain ⟨front, blanks, spaced, rfl, -⟩ := Piece.cut_append_break hps
  have hspelled := Rule.spelled_of_gives (hgives front blanks spaced rfl)
  obtain ⟨hend, hopen⟩ := TokenKind.ofWord?_ne (String.ofList name)
  obtain ⟨-, -, -, hcommand, -⟩ := Phrase.Spelled.exists_of_box hspelled hend hopen
  exact hkind hcommand

/-- **A line of the command, and the line with a comment behind it.** -/
structure Source.Commented (source source' : Source) (cs comment : List Char) : Prop where
  noName : cs.takeWhile isNameChar = []
  unbroken : '\n' ∉ cs
  comment_unbroken : '\n' ∉ comment
  text_eq : source.text.toList = commandName ++ cs
  commented_eq : source'.text.toList = commandName ++ (cs ++ ' ' :: ';' :: comment)

namespace Source.Commented

/-- The comment makes no longer name of the command. -/
theorem commented_noName (h : Commented source source' cs comment) :
    (cs ++ ' ' :: ';' :: comment).takeWhile isNameChar = [] := by
  rw [takeWhile_append_cons rfl, h.noName]

theorem commented_unbroken (h : Commented source source' cs comment) :
    '\n' ∉ cs ++ ' ' :: ';' :: comment := by
  simp only [List.mem_append, List.mem_cons, not_or]
  exact ⟨h.unbroken, by decide, by decide, h.comment_unbroken⟩

/-- Behind the blanks the comment stands as it does behind the whole line. -/
theorem commented_dropWhile {line : List Char} (hline : cs.dropWhile isBlank = line)
    (hne : line ≠ []) (comment : List Char) :
    (cs ++ ' ' :: ';' :: comment).dropWhile isBlank = line ++ ' ' :: ';' :: comment := by
  rw [List.dropWhile_append, hline, if_neg (mt List.isEmpty_iff.1 hne)]

theorem unbroken_dropWhile (h : Commented source source' cs comment) {line : List Char}
    (hline : cs.dropWhile isBlank = line) : '\n' ∉ line := fun hmem =>
  h.unbroken ((List.dropWhile_sublist _).subset (hline ▸ hmem))

end Source.Commented

/-! ## A box with an expression -/

/-- Where a box begins with a `%`, no raw text is cut behind its word. -/
theorem Rule.noRaw_of_gives {blanks : List Char} {front : List Piece}
    (h : Gives (script (Piece.place .start (Piece.upToPercent blanks ++ front)))
      [.box box s] []) : Scan.NoRaw front := by
  have hnone := (spelled_of_gives h).isRaw_of_box (by decide) (by decide) rfl
  intro seen hmem
  rw [← Piece.map_seen_place, List.mem_map] at hmem
  obtain ⟨t, ht, rfl⟩ := hmem
  exact hnone t (List.mem_cons_of_mem _ ht)

/-- A script that is seen the same between its ends is a box like the other. -/
theorem Rule.exists_gives_of_seen {ts us : List Token}
    (hseen : us.map Token.seen = ts.map Token.seen) (h : Gives (script ts) [.box box s] []) :
    ∃ box' s', Gives (script us) [.box box' s'] [] ∧ box.Like .anywhere box' := by
  obtain ⟨hlt, h⟩ := h
  have hlike := agree_script ts us (tokensLike_anywhere hseen)
  rw [h] at hlike
  generalize hus : script us = r at hlike
  cases hlike with
  | @ok _ q hq =>
    obtain ⟨value, rest, hlt'⟩ := q
    obtain ⟨hvalue, hrest⟩ := hq
    cases hrest
    cases hvalue with
    | cons hstmt hnil =>
      cases hnil
      cases hstmt with
      | box hbox => exact ⟨_, _, ⟨hlt', rfl⟩, hbox⟩

/-- The line with the comment has the same tokens. -/
theorem Source.Commented.exists_box_of_expression (hcommented : Commented source source' cs comment)
    {tail : List Char} (hline : cs.dropWhile isBlank = '%' :: tail)
    (hexpr : Scan.readsExpression ('%' :: tail) = true)
    (h : source.program = .ok ⟨[.box box s]⟩) :
    ∃ box' s', source'.program = .ok ⟨[.box box' s']⟩ ∧ box.Like .anywhere box' := by
  have hcut := Piece.cut_command_percent hcommented.noName hline hexpr
  rw [← hcommented.text_eq] at hcut
  have htail : '\n' ∉ tail :=
    List.not_mem_of_not_mem_cons (hcommented.unbroken_dropWhile hline)
  obtain ⟨ps, hps, hgives⟩ := exists_cut_of_program hcut h
  obtain ⟨front, blanks, spaced, rfl, hbehind⟩ :=
    Piece.cut_append_comment htail hcommented.comment_unbroken hps
  have hgives := hgives front blanks spaced rfl
  obtain ⟨front', hcut', hseen⟩ := hbehind (Rule.noRaw_of_gives hgives)
  have hexpr' : Scan.readsExpression ('%' :: (tail ++ ' ' :: ';' :: comment)) = true := by
    have hne : '%' :: tail ≠ ['%'] := fun heq => by
      rw [heq] at hexpr
      cases hexpr
    rw [← List.cons_append, Scan.readsExpression_append (List.cons_ne_nil _ _) hne, hexpr]
  have hline' : (cs ++ ' ' :: ';' :: comment).dropWhile isBlank =
      '%' :: (tail ++ ' ' :: ';' :: comment) :=
    commented_dropWhile hline (List.cons_ne_nil _ _) comment
  have hcommand := Piece.cut_command_percent hcommented.commented_noName hline' hexpr'
  rw [← hcommented.commented_eq, hcut'] at hcommand
  have hcommand := hcommand.trans (congrArg Except.ok (List.append_assoc _ front' _).symm)
  generalize (cs ++ ' ' :: ';' :: comment).takeWhile isBlank = blanks' at hcommand
  have hseen' : (Piece.place .start (Piece.upToPercent blanks' ++ front')).map Token.seen =
      (Piece.place .start (Piece.upToPercent (cs.takeWhile isBlank) ++ front)).map Token.seen := by
    rw [Piece.map_seen_place, Piece.map_seen_place, List.filterMap_append, List.filterMap_append,
      hseen]
    rfl
  obtain ⟨box', s', hgives', hlike⟩ := Rule.exists_gives_of_seen hseen' hgives
  exact ⟨box', s', (program_iff_gives hcommand).2 hgives', hlike⟩

/-! ## A box with raw arguments -/

/-- Arguments the last of which has white space more are alike. -/
theorem BoxArguments.argumentsLike {front : List (List Char)} {last w : List Char}
    (hw : ∀ c ∈ w, isWhite c = true) {ts us : List Token}
    (hts : ts.map (fun t => t.lexeme.toList) = front ++ [last])
    (hus : us.map (fun t => t.lexeme.toList) = front ++ [last ++ w]) :
    List.Forall₂ (ArgumentLike .anywhere fun _ _ => True) ts us := by
  induction front generalizing ts us with
  | nil =>
    obtain ⟨t, ts, rfl, ht, hts⟩ := List.map_eq_cons_iff.1 hts
    obtain ⟨u, us, rfl, hu, hus⟩ := List.map_eq_cons_iff.1 hus
    obtain rfl := List.map_eq_nil_iff.1 hts
    obtain rfl := List.map_eq_nil_iff.1 hus
    refine .cons ⟨?_, .intro, fun _ => .intro⟩ .nil
    rw [content, content, ht, hu, trim_append hw]
  | cons lexeme front ih =>
    obtain ⟨t, ts, rfl, ht, hts⟩ := List.map_eq_cons_iff.1 hts
    obtain ⟨u, us, rfl, hu, hus⟩ := List.map_eq_cons_iff.1 hus
    refine .cons ⟨?_, .intro, fun _ => .intro⟩ (ih hts hus)
    rw [content, content, ht, hu]

/-- White space behind the last of some texts is behind all of them. -/
theorem intercalate_concat (front : List (List Char)) (last w : List Char) :
    [','].intercalate (front ++ [last ++ w]) = [','].intercalate (front ++ [last]) ++ w := by
  induction front with
  | nil => rw [List.nil_append, List.nil_append, List.intercalate_singleton,
      List.intercalate_singleton]
  | cons l front ih =>
    cases front with
    | nil => simp
    | cons l' front =>
      rw [List.cons_append, List.cons_append, List.cons_append, List.cons_append,
        List.intercalate_cons_cons, List.intercalate_cons_cons, List.append_assoc _ _ w]
      exact congrArg _ ih

/-- The last argument has white space more, which is trimmed. -/
theorem Source.Commented.exists_box_of_arguments (hcommented : Commented source source' cs comment)
    {line : List Char} (hline : cs.dropWhile isBlank = line) (hne : line ≠ [])
    (hpercent : line ≠ ['%']) (hraw : Scan.readsExpression line = false)
    (h : source.program = .ok ⟨[.box box s]⟩) :
    ∃ box' s', source'.program = .ok ⟨[.box box' s']⟩ ∧ box.Like .anywhere box' := by
  have hraw' : Scan.readsExpression (line ++ ' ' :: ';' :: comment) = false := by
    rw [Scan.readsExpression_append hne hpercent, hraw]
  obtain ⟨word, ts, hts, hprogram⟩ :=
    program_of_arguments hcommented.noName hcommented.unbroken hline hraw
  obtain ⟨word', us, hus, hprogram'⟩ := program_of_arguments hcommented.commented_noName
    hcommented.commented_unbroken (commented_dropWhile hline hne comment) hraw'
  have hseparates : ' ' ≠ ',' := by decide
  have hwithout : '\n' ∉ Scan.withoutComma line := by
    have hbreak := hcommented.unbroken_dropWhile hline
    rw [← Scan.leadingComma_append false line] at hbreak
    exact fun hmem => hbreak (List.mem_append_right _ hmem)
  obtain ⟨front, last, w, hw, hlexemes, hlexemes'⟩ :=
    Scan.lexemes_append_comment hwithout comment true
  rw [hlexemes] at hts
  rw [Scan.withoutComma_append_cons _ hseparates, hlexemes'] at hus
  obtain ⟨box₀, hbox, hstatements⟩ := (hprogram source _ hcommented.text_eq).1 h
  obtain rfl : box = box₀ := (Stmt.box.inj (List.cons.inj hstatements).1).1
  have hjoined : (BoxArguments.joined ts).Like .anywhere (BoxArguments.joined us) := by
    obtain ⟨span, hspan⟩ := BoxArguments.exists_joined_eq ts
    obtain ⟨span', hspan'⟩ := BoxArguments.exists_joined_eq us
    rw [hspan, hspan', hts, hus, intercalate_concat, trim_append hw]
    exact .text _ true .intro
  have halike := BoxArguments.ofSegments_alike (BoxArguments.argumentsLike hw hts hus) hjoined
  rw [hbox] at halike
  generalize hr : BoxArguments.ofSegments us = r at halike
  cases halike with
  | @ok _ box' hlike =>
    exact ⟨box', _, (hprogram' source' _ hcommented.commented_eq).2 ⟨box', hr, rfl⟩, hlike⟩

/-! ## A `%` alone -/

/-- A box whose expression is missing. -/
theorem Rule.script_of_percent {word percent : Token} (hword : word.kind = .command)
    (hpercent : percent.kind = .percent) :
    script [word, percent] = .error ⟨.atom, none⟩ := by
  refine script_of_box_error hword ?_
  have hexpr : expression maxNesting [percent].tail = .error ⟨.atom, none⟩ := rfl
  rw [Rule.box, nextKind, if_pos hpercent, hexpr]
  rfl

/-- A failure at the end of the tokens is one at the end of the line. -/
theorem Source.program_of_failure {front : List Piece} {blanks : List Char} {spaced : Bool}
    (hcut : Piece.cut true source.text.toList =
      .ok (front ++ [.gap blanks, .token .fileEnd [] [] spaced])) {mistake : Mistake}
    (h : Rule.script (Piece.place .start front) = .error ⟨mistake, none⟩) :
    ∃ e, source.program = .error e ∧ e.cause = .grammar mistake true := by
  have htokens : ∃ sof eof, eof.kind = .fileEnd ∧
      tokenize source.text = .ok (sof :: Piece.place .start front ++ [eof]) := by
    rw [tokenize_of_ok hcut, ← List.cons_append, Piece.place_append_token]
    exact ⟨_, _, rfl, rfl⟩
  obtain ⟨sof, eof, heof, htokens⟩ := htokens
  generalize Piece.place .start front = ts at h htokens
  have hmid : ((sof :: ts ++ [eof]).drop 1).dropLast = ts := List.dropLast_concat
  rw [← hmid] at h
  rw [program, tokens, htokens]
  change ∃ e, programOf _ _ = _ ∧ _
  rw [programOf, Program.ofTokens, h]
  refine ⟨_, rfl, ?_⟩
  have hlast : (sof :: ts ++ [eof]).getLast?.getD default = eof := by
    rw [List.getLast?_concat]
    rfl
  change Cause.grammar mistake ((sof :: ts ++ [eof]).getLast?.getD default).kind.isLineEnd = _
  rw [hlast, heof]
  rfl

/-- Behind a `%` alone, a comment makes the line an expression that is missing. -/
theorem Source.Commented.program_of_percent (hcommented : Commented source source' cs comment)
    (hline : cs.dropWhile isBlank = ['%']) :
    ∃ e, source'.program = .error e ∧ e.cause = .grammar .atom true := by
  have hline' : (cs ++ ' ' :: ';' :: comment).dropWhile isBlank = '%' :: ' ' :: ';' :: comment :=
    commented_dropWhile hline (List.cons_ne_nil _ _) comment
  have hcut := Piece.cut_command_percent hcommented.commented_noName hline' rfl
  have htail : Piece.cut false (' ' :: ';' :: comment) = _ :=
    Piece.cut_comment rfl hcommented.comment_unbroken
  rw [← hcommented.commented_eq, htail] at hcut
  refine program_of_failure (hcut.trans (congrArg Except.ok (List.append_assoc ..).symm)) ?_
  exact Rule.script_of_percent rfl rfl

/-! ## The line and its comment -/

/-- The arguments of a program that is one message box. -/
def Program.box? (p : Program) : Option BoxArguments :=
  match p.statements with
  | [.box box _] => some box
  | _ => none

/-- The arguments of a script that is one message box. -/
def Source.box? (source : Source) : Option BoxArguments :=
  source.program.toOption.bind Program.box?

theorem Source.box?_eq_some :
    source.box? = some box ↔ ∃ s, source.program = .ok ⟨[.box box s]⟩ := by
  constructor
  · intro h
    rw [box?] at h
    cases hprogram : source.program with
    | error e => rw [hprogram] at h; cases h
    | ok p =>
      rw [hprogram] at h
      change p.box? = some box at h
      unfold Program.box? at h
      split at h
      next box' s hstatements =>
        obtain rfl := Option.some.inj h
        exact ⟨s, congrArg (Except.ok ∘ Program.mk) hstatements⟩
      next => cases h
  · rintro ⟨s, h⟩
    rw [box?, h]
    rfl

/-- **A comment behind a message box changes nothing**, or an expression is missing. Let a
line of the command and a text that is not blank be a message box. With a comment behind
it, it is a box with the same arguments but for where they stand, and if the text is a `%`
alone, it is refused for the expression that the blank in front of the comment asks for. -/
theorem Source.box?_append_comment {r c : String} (hr : '\n' ∉ r.toList) (hc : '\n' ∉ c.toList)
    (hblank : r.toList.dropWhile isBlank ≠ []) {file : String}
    (h : (⟨file, "MsgBox" ++ r⟩ : Source).box? = some box) :
    let commented : Source := ⟨file, "MsgBox" ++ r ++ " ;" ++ c⟩
    (r.toList.dropWhile isBlank ≠ ['%'] →
      ∃ box', commented.box? = some box' ∧ box.Like .anywhere box') ∧
    (r.toList.dropWhile isBlank = ['%'] →
      ∃ e, commented.program = .error e ∧ e.cause = .grammar .atom true) := by
  intro commented
  obtain ⟨s, h⟩ := box?_eq_some.1 h
  have htext : ("MsgBox" ++ r).toList = commandName ++ r.toList := String.toList_append
  have hcommented : Commented ⟨file, "MsgBox" ++ r⟩ commented r.toList c.toList :=
    { noName := takeWhile_of_box htext h
      unbroken := hr
      comment_unbroken := hc
      text_eq := htext
      commented_eq := by
        simp only [commented, String.toList_append, List.append_assoc]
        rfl }
  refine ⟨fun hpercent => ?_, hcommented.program_of_percent⟩
  suffices ∃ box' s', commented.program = .ok ⟨[.box box' s']⟩ ∧ box.Like .anywhere box' by
    obtain ⟨box', s', hprogram, hlike⟩ := this
    exact ⟨box', box?_eq_some.2 ⟨s', hprogram⟩, hlike⟩
  generalize hline : r.toList.dropWhile isBlank = line at hblank hpercent
  cases hexpr : Scan.readsExpression line with
  | true =>
    obtain ⟨tail, rfl⟩ := Scan.exists_of_readsExpression hexpr hblank
      (hcommented.unbroken_dropWhile hline)
    exact hcommented.exists_box_of_expression hline hexpr h
  | false => exact hcommented.exists_box_of_arguments hline hblank hpercent hexpr h

/-- A box with options and a question, and a comment that looks like arguments. -/
theorem Source.box?_append_comment_question :
    let source : Source := ⟨"box.ahk", "MsgBox" ++ " 4, Question, Go on?"⟩
    let commented : Source := ⟨"box.ahk", "MsgBox" ++ " 4, Question, Go on?" ++ " ;" ++ ", 10 % x"⟩
    ∃ box box', source.box? = some box ∧ commented.box? = some box' ∧
      box.Like .anywhere box' := by
  intro source commented
  obtain ⟨box, h⟩ := Option.isSome_iff_exists.1 (show source.box?.isSome = true by decide +kernel)
  have hboth := Source.box?_append_comment (r := " 4, Question, Go on?") (c := ", 10 % x")
    (by decide) (by decide) (by decide) h
  obtain ⟨box', h', hlike⟩ := hboth.1 (by decide)
  exact ⟨box, box', h, h', hlike⟩

/-- Behind a `%` alone a comment does change the box: there is none any more. -/
theorem Source.not_box?_behindPercent :
    let source : Source := ⟨"box.ahk", "MsgBox" ++ " %"⟩
    let commented : Source := ⟨"box.ahk", "MsgBox" ++ " %" ++ " ;" ++ "c"⟩
    ∃ box, source.box? = some box ∧
      ¬ ∃ box', commented.box? = some box' ∧ box.Like .anywhere box' := by
  intro source commented
  obtain ⟨box, h⟩ := Option.isSome_iff_exists.1 (show source.box?.isSome = true by decide +kernel)
  have hnone : commented.box?.isNone = true := by decide +kernel
  refine ⟨box, h, fun ⟨box', h', _⟩ => ?_⟩
  rw [h'] at hnone
  cases hnone

end

end HotkeyScript
