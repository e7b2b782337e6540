import HotkeyScript.Proofs.Program.Gives
import HotkeyScript.Proofs.Token.Arguments
/-!
# Programs — scripts that are one box with raw arguments

A line that is a command with raw arguments is a script of one message box, if the
arguments mean something, and no script otherwise (`Source.program_of_arguments`). Of
the arguments it matters what their lexemes are.
-/

namespace HotkeyScript

open Text

/-- The arguments of a box are the raw ones that were cut, and nothing is left. -/
theorem BoxArguments.segments_argumentPieces (spaced : Bool) (tail : List Char)
    (args : List (List Char)) (p : Position) : ∃ ts,
      segments (Piece.place p (Scan.argumentPieces spaced tail args)) = (ts, []) ∧
        ts.map (fun t => t.lexeme.toList) = Scan.lexemes args := by
  fun_induction Scan.argumentPieces spaced tail args generalizing p with
  | case1 => exact ⟨[], rfl, rfl⟩
  | case2 arg => exact ⟨_, rfl, congrArg (· :: []) String.toList_ofList⟩
  | case3 arg args hne ih =>
    obtain ⟨ts, hts, hlexemes⟩ := ih ((p.past arg).past [','])
    refine ⟨⟨.raw, String.ofList (unescape arg), ⟨p, p.past arg⟩, spaced⟩ :: ts, ?_, ?_⟩
    · rw [Piece.place, Piece.place, segments, if_pos rfl, if_pos rfl, hts]
      rfl
    · rw [List.map_cons, hlexemes, Scan.lexemes, String.toList_ofList]
      exact hne

/-- The first of them is a token of raw text. -/
theorem nextKind_argumentPieces (spaced : Bool) (tail : List Char) {args : List (List Char)}
    (h : args ≠ []) (p : Position) :
    nextKind (Piece.place p (Scan.argumentPieces spaced tail args)) = .raw := by
  fun_cases Scan.argumentPieces spaced tail args with
  | case1 => exact absurd rfl h
  | case2 => rfl
  | case3 => rfl

/-- The same with the comma that may stand in front. -/
theorem BoxArguments.segments_line (spaced : Bool) (tail : List Char) {args : List (List Char)}
    (h : args ≠ []) (line : List Char) (p : Position) :
    let ts := Piece.place p (Scan.leadingComma spaced line ++ Scan.argumentPieces spaced tail args)
    nextKind ts ≠ .percent ∧ ∃ us, segments (BoxArguments.line ts) = (us, []) ∧
      us.map (fun t => t.lexeme.toList) = Scan.lexemes args := by
  intro ts
  have hcomma : Scan.leadingComma spaced line = [] ∨
      Scan.leadingComma spaced line = [.token .comma [','] [','] spaced] := by
    unfold Scan.leadingComma
    split
    · exact .inr rfl
    · exact .inl rfl
  obtain hcomma | hcomma := hcomma
  · have hts : ts = Piece.place p (Scan.argumentPieces spaced tail args) :=
      congrArg (fun ps => Piece.place p (ps ++ _)) hcomma
    have hkind := nextKind_argumentPieces spaced tail h p
    rw [← hts] at hkind
    rw [BoxArguments.line, hkind]
    refine ⟨by decide, ?_⟩
    rw [if_neg (by decide), hts]
    exact segments_argumentPieces spaced tail args p
  · have hts : ts = ⟨.comma, ",", ⟨p, p.past [',']⟩, spaced⟩ ::
        Piece.place (p.past [',']) (Scan.argumentPieces spaced tail args) :=
      congrArg (fun ps => Piece.place p (ps ++ _)) hcomma
    rw [hts, BoxArguments.line, nextKind, if_pos rfl]
    have hkind : TokenKind.comma ≠ .percent := by decide
    refine ⟨hkind, ?_⟩
    exact segments_argumentPieces spaced tail args _

/-- The joined arguments have a comma between each two. -/
theorem BoxArguments.exists_joined_eq (args : List Token) : ∃ span, joined args =
    .text (String.ofList (trim ([','].intercalate (args.map fun t => t.lexeme.toList)))) true
      span :=
  ⟨_, rfl⟩

namespace Rule

variable {expr : Rule Expr} {block : Rule Block} {word : Token} {args ts : List Token}

/-- A box with arguments that mean something. -/
theorem gives_box (hpercent : nextKind ts ≠ .percent)
    (hargs : BoxArguments.segments (BoxArguments.line ts) = (args, [])) {box : BoxArguments}
    (h : BoxArguments.ofSegments args = .ok box) :
    Gives (Rule.box expr word ts) (.box box (BoxArguments.spanOf word args)) [] := by
  refine ⟨Nat.zero_lt_succ _, ?_⟩
  rw [Rule.box, if_neg hpercent]
  simp only [hargs]
  rw [h, BoxArguments.spanOf]
  cases args.getLast? <;> rfl

theorem box_of_error (hpercent : nextKind ts ≠ .percent)
    (hargs : BoxArguments.segments (BoxArguments.line ts) = (args, [])) {failure : Failure}
    (h : BoxArguments.ofSegments args = .error failure) :
    Rule.box expr word ts = .error failure := by
  rw [Rule.box, if_neg hpercent]
  simp only [hargs]
  rw [h]
  rfl

theorem gives_script_of_box {s : Stmt} (hword : word.kind = .command)
    (h : Gives (Rule.box (expression maxNesting) word ts) s []) :
    Gives (script (word :: ts)) [s] [] := by
  refine gives_statements ?_ ?_
  · rw [nextKind, hword]
    decide
  · obtain ⟨hlt, h⟩ := h
    refine ⟨hlt, ?_⟩
    rw [statement.eq_def]
    dsimp only
    rw [hword]
    dsimp only
    rw [h]
    rfl

theorem script_of_box_error {failure : Failure} (hword : word.kind = .command)
    (h : Rule.box (expression maxNesting) word ts = .error failure) :
    script (word :: ts) = .error failure := by
  have hskip : skipLineEnds (word :: ts) = word :: ts :=
    skipLineEnds_cons (by rw [hword]; decide) ts
  have hend : ¬ ((skipLineEnds (word :: ts)).isEmpty ||
      (false && nextKind (skipLineEnds (word :: ts)) == .rightBrace)) = true := by
    rw [hskip]
    exact Bool.false_ne_true
  have hstatement : statement (expression maxNesting) (Rule.block maxNesting)
      (skipLineEnds (word :: ts)) = .error failure := by
    rw [hskip, statement.eq_def]
    dsimp only
    rw [hword]
    dsimp only
    rw [h]
    rfl
  rw [script, statements, if_neg hend, hstatement]
  rfl

/-- **A command with raw arguments** is a script of one box just if they mean something. -/
theorem gives_script_iff (hword : word.kind = .command) (hpercent : nextKind ts ≠ .percent)
    (hargs : BoxArguments.segments (BoxArguments.line ts) = (args, [])) {ss : List Stmt} :
    Gives (script (word :: ts)) ss [] ↔ ∃ box, BoxArguments.ofSegments args = .ok box ∧
      ss = [.box box (BoxArguments.spanOf word args)] := by
  cases hbox : BoxArguments.ofSegments args with
  | ok box =>
    obtain ⟨hlt, hgives⟩ := gives_script_of_box hword (gives_box hpercent hargs hbox)
    rw [Gives, hgives]
    constructor
    · rintro ⟨_, hss⟩
      cases hss
      exact ⟨box, rfl, rfl⟩
    · rintro ⟨box', hbox', rfl⟩
      cases hbox'
      exact ⟨hlt, rfl⟩
  | error failure =>
    rw [Gives, script_of_box_error hword (box_of_error hpercent hargs hbox)]
    constructor
    · rintro ⟨_, hss⟩
      cases hss
    · rintro ⟨box, hbox', -⟩
      cases hbox'

end Rule

/-- **A source is the script that its tokens give**, those between its two ends. -/
theorem Source.program_iff_gives {source : Source} {front : List Piece} {blanks : List Char}
    {spaced : Bool} (hcut : Piece.cut true source.text.toList =
      .ok (front ++ [.gap blanks, .token .fileEnd [] [] spaced])) {p : Program} :
    source.program = .ok p ↔ Gives (Rule.script (Piece.place .start front)) p.statements [] := by
  have htokens : ∃ sof eof, tokenize source.text =
      .ok (sof :: Piece.place .start front ++ [eof]) := by
    rw [tokenize_of_ok hcut, ← List.cons_append, Piece.place_append_token]
    exact ⟨_, _, rfl⟩
  obtain ⟨sof, eof, htokens⟩ := htokens
  generalize Piece.place .start front = ts at htokens
  rw [Source.program, Source.tokens, htokens]
  change Source.programOf _ _ = _ ↔ _
  rw [Source.programOf]
  constructor
  · intro h
    have hmid : ((sof :: ts ++ [eof]).drop 1).dropLast = ts := List.dropLast_concat
    rw [← hmid]
    rw [Program.ofTokens] at h
    cases hscript : Rule.script ((sof :: ts ++ [eof]).drop 1).dropLast with
    | error failure =>
      rw [hscript] at h
      cases h
    | ok parsed =>
      rw [hscript] at h
      cases h
      obtain ⟨value, rest, hlt⟩ := parsed
      obtain rfl : rest = [] := Rule.rest_statements hscript
      exact ⟨hlt, rfl⟩
  · intro h
    rw [Program.ofTokens_of_gives h]
    rfl

/-- The same behind what is cut first, for a source that is a script. -/
theorem Source.exists_cut_of_program {source : Source} {pieces : List Piece} {lineStart : Bool}
    {cs : List Char} (hcut : Piece.cut true source.text.toList =
      Piece.behind pieces (Piece.cut lineStart cs)) {p : Program} (h : source.program = .ok p) :
    ∃ ps, Piece.cut lineStart cs = .ok ps ∧ ∀ front blanks spaced,
      ps = front ++ [.gap blanks, .token .fileEnd [] [] spaced] →
        Gives (Rule.script (Piece.place .start (pieces ++ front))) p.statements [] := by
  cases hps : Piece.cut lineStart cs with
  | error fault =>
    rw [hps] at hcut
    rw [Source.program, Source.tokens, tokenize_of_error hcut] at h
    cases h
  | ok ps =>
    refine ⟨ps, rfl, fun front blanks spaced hfront => ?_⟩
    rw [hps, hfront] at hcut
    exact (program_iff_gives (hcut.trans (congrArg Except.ok (List.append_assoc ..).symm))).1 h

/-- **A line that is a command with raw arguments** is a script of one box just if the
arguments mean something. -/
theorem Source.program_of_arguments {cs line : List Char} (hname : cs.takeWhile isNameChar = [])
    (hbreak : '\n' ∉ cs) (hline : cs.dropWhile isBlank = line)
    (hraw : Scan.readsExpression line = false) :
    ∃ word args, args.map (fun t : Token => t.lexeme.toList) =
        Scan.lexemes (Scan.arguments true (Scan.withoutComma line)).1 ∧
      ∀ (source : Source) (p : Program), source.text.toList = commandName ++ cs →
        (source.program = .ok p ↔ ∃ box, BoxArguments.ofSegments args = .ok box ∧
          p.statements = [.box box (BoxArguments.spanOf word args)]) := by
  have hcut := Piece.cut_command hname hbreak hline hraw
  have hne := Scan.arguments_ne_nil true (Scan.withoutComma line)
  generalize Scan.arguments true (Scan.withoutComma line) = r at hcut hne
  obtain ⟨raws, tail, rest⟩ := r
  let word : Token := ⟨.command, String.ofList commandName,
    ⟨Position.start, Position.start.past commandName⟩, false⟩
  obtain ⟨hpercent, args, hargs, hlexemes⟩ := BoxArguments.segments_line false tail hne line
    ((Position.start.past commandName).past (cs.takeWhile isBlank))
  refine ⟨word, args, hlexemes, fun source p htext => ?_⟩
  rw [← htext] at hcut
  exact (@Source.program_iff_gives source (_ :: _ :: _ :: _) _ _ hcut p).trans
    (@Rule.gives_script_iff word _ _ rfl hpercent hargs _)

end HotkeyScript
