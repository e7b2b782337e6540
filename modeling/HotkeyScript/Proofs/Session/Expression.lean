import HotkeyScript.Proofs.Program.Gives
import HotkeyScript.Proofs.Session.Text
/-!
# Sessions — texts that are one operand

A text whose tokens are one operand is a program of one expression
(`Mark.program_of_operand`), and a session that runs it comes to the value of that
expression, in each of the ways to run a text (`Session.evaluates_of_program`). Where the
operand cannot be read, the mistake in it is what the text is refused for
(`Mark.program_of_mistake`, `Session.refuses_of_program`).
-/

namespace HotkeyScript

/-! ## Statements that are one operand -/

/-- The kinds of tokens that begin statements of their own. -/
def TokenKind.beginsStatement : TokenKind → Bool
  | openComment | globalWord | returnWord | ifWord | command | identifier | lineEnd => true
  | _ => false

theorem TokenKind.number_cases {kind : TokenKind} (h : kind.isNumber = true) :
    kind = .decimal ∨ kind = .hexadecimal ∨ kind = .float := by
  revert h
  cases kind <;> decide

namespace Rule

variable {nested deeper : Rule Expr} {block : Rule Block} {ts : List Token} {t : Token}
  {e : Expr} {f : Failure}

/-- Where no other statement begins, an expression is read. -/
theorem statement_eq_bare (ht : t.kind.beginsStatement = false) (ts : List Token) :
    statement nested block (t :: ts) = (bare nested (t :: ts)).map fun s => s.map some := by
  rw [statement.eq_def]
  dsimp only
  split
  case h_7 => cases bare nested (t :: ts) <;> rfl
  all_goals next hk => rw [hk] at ht; cases ht

/-- The token of a number is read as the number that it stands for. -/
theorem atom_eq_number (ht : t.kind.isNumber = true) (ts : List Token) :
    atom nested (t :: ts) = t.number?.map fun literal => .one (.number literal) t ts := by
  rw [atom.eq_def]
  dsimp only
  rcases TokenKind.number_cases ht with hk | hk | hk <;> rw [hk] <;> cases t.number? <;> rfl

/-- Behind a sign stands an operand. -/
theorem signed_eq_map {op : UnaryOp} (ht : UnaryOp.ofKind? t.kind = some op) (ts : List Token) :
    signed deeper nested (t :: ts) = (deeper ts).map fun p =>
      (p.behind t).as (.unary op p.value (t.span.merge p.value.span)) := by
  rw [signed, ht]
  cases deeper ts <;> rfl

/-- One operand is an expression. -/
theorem gives_sole_operand {n : Nat} (h : Gives (signed (operand n) (expression n) ts) e []) :
    Gives (expression (n + 1) ts) e [] := by
  rw [expression]
  exact gives_sum (gives_product h (.nil rfl)) (.nil rfl) (by decide)

/-- A mistake in the first operand is a mistake in the expression. -/
theorem expression_eq_error {n : Nat} (h : signed (operand n) (expression n) ts = .error f) :
    expression (n + 1) ts = .error f := by
  rw [expression, sum, product, h]
  rfl

/-- A mistake in the first expression of a script is a mistake in the script. -/
theorem script_eq_error (ht : t.kind.beginsStatement = false)
    (h : expression maxNesting (t :: ts) = .error f) : script (t :: ts) = .error f := by
  have hskip : skipLineEnds (t :: ts) = t :: ts :=
    skipLineEnds_cons (fun hk => by rw [hk] at ht; cases ht) ts
  have hend : ¬ ((skipLineEnds (t :: ts)).isEmpty ||
      (false && nextKind (skipLineEnds (t :: ts)) == .rightBrace)) = true := by
    rw [hskip]
    exact Bool.false_ne_true
  have hstatement : statement (expression maxNesting) (Rule.block maxNesting)
      (skipLineEnds (t :: ts)) = .error f := by
    rw [hskip, statement_eq_bare ht, bare, h]
    rfl
  rw [script, statements, if_neg hend, hstatement]
  rfl

end Rule

/-- What the script between the two ends of the tokens is refused for, the program is. -/
theorem Program.ofTokens_of_error {sof eof : Token} {ts : List Token} {mistake : Mistake}
    {wrong : Token} (h : Rule.script ts = .error ⟨mistake, some wrong⟩) :
    Program.ofTokens (sof :: ts ++ [eof]) =
      .error ⟨mistake, wrong.span, wrong.kind.isLineEnd⟩ := by
  have hmid : ((sof :: ts ++ [eof]).drop 1).dropLast = ts := List.dropLast_concat
  rw [← hmid] at h
  rw [ofTokens, h]
  rfl

/-! ## Texts that are one operand -/

namespace Mark

variable {ms : List Mark} {t : Token} {ts : List Token} {e : Expr}

/-- **A text of marks whose tokens are one operand** is the script of it. -/
theorem program_of_operand (hms : Scanned [] ms) (hts : tokens .start ms = t :: ts)
    (ht : t.kind.beginsStatement = false)
    (h : Gives (Rule.signed (Rule.operand 99) (Rule.expression 99) (t :: ts)) e [])
    (file : String) : (⟨file, String.ofList (textOf ms)⟩ : Source).program =
      .ok ⟨[.expr e e.span]⟩ := by
  have hbare : Gives (Rule.statement (Rule.expression maxNesting) (Rule.block maxNesting)
      (t :: ts)) (some (.expr e e.span)) [] := by
    obtain ⟨hlt, h⟩ := Rule.gives_bare (Rule.gives_sole_operand h)
    refine ⟨hlt, ?_⟩
    rw [Rule.statement_eq_bare ht, maxNesting, h]
    rfl
  refine program_of_script hms ?_ file
  rw [hts]
  refine Rule.gives_statements ?_ hbare
  intro hk
  rw [nextKind] at hk
  rw [hk] at ht
  cases ht

/-- **A text of marks whose first operand cannot be read** is refused for the mistake in
it. -/
theorem program_of_mistake (hms : Scanned [] ms) (hts : tokens .start ms = t :: ts)
    (ht : t.kind.beginsStatement = false) {mistake : Mistake} {wrong : Token}
    (h : Rule.signed (Rule.operand 99) (Rule.expression 99) (t :: ts) =
      .error ⟨mistake, some wrong⟩) (file : String) :
    let source : Source := ⟨file, String.ofList (textOf ms)⟩
    source.program =
      .error (.ofGrammar source ⟨mistake, wrong.span, wrong.kind.isLineEnd⟩) := by
  intro source
  have hscript : Rule.script (tokens .start ms) = .error ⟨mistake, some wrong⟩ := by
    rw [hts]
    exact Rule.script_eq_error ht (Rule.expression_eq_error h)
  rw [Source.program, Source.tokens, tokenize_of_scanned hms]
  change Source.programOf _ _ = _
  rw [Source.programOf, Program.ofTokens_of_error hscript]
  rfl

end Mark

/-! ## Sessions that run them -/

namespace Session

variable {s : Session} {text : String}

/-- A session that runs a text comes to a value, whichever way the text is run, and nothing
else of it is left behind than that it was read. -/
structure Evaluates (s : Session) (text : String) (v : Value) : Prop where
  run : s.run text = (.ok [.value v], s.ready text)
  eval : s.eval text = (.ok (some v), s.ready text)
  execute : (s.execute text).1.failure = none

/-- A session refuses a text for an error, whichever way the text is run. -/
structure Refuses (s : Session) (text : String) (e : Error) : Prop where
  run : (s.run text).1 = .error e
  eval : (s.eval text).1 = .error e
  execute : (s.execute text).1.failure = some e

/-- **A text of one expression comes to its value**, if that depends on nothing and changes
nothing. -/
theorem evaluates_of_program {e : Expr} {span : Span} {v : Value}
    (h : (⟨s.name, text⟩ : Source).program = .ok ⟨[.expr e span]⟩)
    (he : ∀ call m, e.eval call m = .ok v m) : s.Evaluates text v := by
  have hexecute (m : Machine) : Machine.execute (.expr e span) m = .ok (.value v) m := by
    have hrun : Stmt.run (callAt m.callsLeft) (.expr e span) m = .ok (.next (.value v)) m := by
      rw [Stmt.run, Run.bind_of_ok (he _ m)]
      rfl
    rw [Machine.execute, hrun]
  have hrun : s.run text = (.ok [.value v], s.ready text) := by
    have hall : Machine.executeAll [.expr e span] (s.ready text).machine =
        .ok [.value v] (s.ready text).machine := by
      rw [Machine.executeAll, Run.bind_of_ok (hexecute _)]
      rfl
    rw [run_of_ok h, hall]
    rfl
  refine ⟨hrun, ?_, ?_⟩
  · exact Prod.ext (by rw [fst_eval, hrun]; rfl) (by rw [snd_eval, hrun])
  · rw [execute_of_ok h, executeFrom_cons_ok (hexecute _)]
    rfl

theorem refuses_of_program {e : Error} (h : (⟨s.name, text⟩ : Source).program = .error e) :
    s.Refuses text e where
  run := by rw [run_of_error h]
  eval := by rw [fst_eval, run_of_error h]; rfl
  execute := by rw [execute_of_error h]

end Session

end HotkeyScript
