import HotkeyScript.Program.Statement
/-!
# Programs — how phrases are spelled

`Phrase.Spelled` says of each phrase of a program which tokens it is spelled
with, one case for each production. It knows nothing of levels, of what is tried
first or of what is read twice, so what holds of every spelling is an induction
over the productions. That a rule reads only what is spelled is shown in
`Proofs.Program.Reading`.
-/

namespace HotkeyScript

/-- A part of a program. -/
inductive Phrase where
  | expr (e : Expr)
  | exprs (es : List Expr)
  | entry (e : Expr × Expr)
  | entries (es : List (Expr × Expr))
  | stmt (s : Stmt)
  | stmts (ss : List Stmt)
  | block (b : Block)
  /-- what stands behind `else` -/
  | arm (b : Block)

/-- The operator that a token between two operands stands for. -/
def BinaryOp.ofKind? (kind : TokenKind) : Option BinaryOp :=
  additive? kind <|> multiplicative? kind

/-- Whether tokens are the line of a box: raw arguments, and commas. -/
structure BoxArguments.Line (args line : List Token) : Prop where
  args_eq : line.filter (·.kind == .raw) = args
  kinds : ∀ t ∈ line, t.kind = .raw ∨ t.kind = .comma

/-- The span of a box with raw arguments, which reaches to the last of them. -/
def BoxArguments.spanOf (word : Token) (args : List Token) : Span :=
  (args.getLast?.map fun last => word.span.merge last.span).getD word.span

/-- **The tokens a phrase is spelled with.** -/
inductive Phrase.Spelled : Phrase → List Token → Prop where
  -- literals and names
  | number {t : Token} {literal : NumberLiteral} : t.number? = .ok literal →
      Spelled (.expr (.number literal)) [t]
  | quoted {t : Token} : t.kind = .quoted → Spelled (.expr (.text t.lexeme false t.span)) [t]
  | boolean {t : Token} : t.kind = .boolean →
      Spelled (.expr (.boolean (t.lexeme == "true") t.span)) [t]
  | name {t : Token} : t.kind = .identifier → Spelled (.expr (.name t.identifier)) [t]
  -- what stands between two brackets
  | call {t opener closer : Token} {args : List Expr} {mid : List Token} :
      t.kind = .identifier → opener.kind = .leftParen → Spelled (.exprs args) mid →
      closer.kind = .rightParen →
      Spelled (.expr (.call t.identifier args (t.span.merge closer.span)))
        (t :: opener :: mid ++ [closer])
  | paren {opener closer : Token} {e : Expr} {mid : List Token} : opener.kind = .leftParen →
      Spelled (.expr e) mid → closer.kind = .rightParen →
      Spelled (.expr e) (opener :: mid ++ [closer])
  | array {opener closer : Token} {es : List Expr} {mid : List Token} :
      opener.kind = .leftBracket → Spelled (.exprs es) mid → closer.kind = .rightBracket →
      Spelled (.expr (.array es (opener.span.merge closer.span))) (opener :: mid ++ [closer])
  | table {opener closer : Token} {es : List (Expr × Expr)} {mid : List Token} :
      opener.kind = .leftBrace → Spelled (.entries es) mid → closer.kind = .rightBrace →
      Spelled (.expr (.table es (opener.span.merge closer.span))) (opener :: mid ++ [closer])
  -- keys
  | member {object : Expr} {front : List Token} {dot t : Token} : Spelled (.expr object) front →
      dot.kind = .dot → t.kind = .identifier →
      Spelled (.expr (Rule.Expr.at object (.member t.identifier) t)) (front ++ [dot, t])
  | place {object : Expr} {front : List Token} {dot t : Token} {literal : NumberLiteral} :
      Spelled (.expr object) front → dot.kind = .dot → t.number? = .ok literal →
      Spelled (.expr (Rule.Expr.at object (.index (.number literal)) t)) (front ++ [dot, t])
  | index {object key : Expr} {front mid : List Token} {opener closer : Token} :
      Spelled (.expr object) front → opener.kind = .leftBracket → Spelled (.expr key) mid →
      closer.kind = .rightBracket →
      Spelled (.expr (Rule.Expr.at object (.index key) closer)) (front ++ opener :: mid ++ [closer])
  -- operators
  | unary {t : Token} {op : UnaryOp} {e : Expr} {back : List Token} :
      UnaryOp.ofKind? t.kind = some op → Spelled (.expr e) back →
      Spelled (.expr (.unary op e (t.span.merge e.span))) (t :: back)
  | binary {t : Token} {op : BinaryOp} {left right : Expr} {front back : List Token} :
      Spelled (.expr left) front → BinaryOp.ofKind? t.kind = some op → Spelled (.expr right) back →
      Spelled (.expr (Expr.join op left right)) (front ++ t :: back)
  | choice {question colon : Token} {cond yes no : Expr} {front mid back : List Token} :
      Spelled (.expr cond) front → question.kind = .question → Spelled (.expr yes) mid →
      colon.kind = .colon → Spelled (.expr no) back →
      Spelled (.expr (.choice cond yes no (cond.span.merge no.span)))
        (front ++ question :: mid ++ colon :: back)
  -- rows of expressions and of entries
  | noExprs : Spelled (.exprs []) []
  | oneExpr {e : Expr} {front : List Token} : Spelled (.expr e) front → Spelled (.exprs [e]) front
  | moreExprs {e : Expr} {es : List Expr} {comma : Token} {front back : List Token} :
      Spelled (.expr e) front → comma.kind = .comma → Spelled (.exprs es) back →
      Spelled (.exprs (e :: es)) (front ++ comma :: back)
  | entry {key value : Expr} {colon : Token} {front back : List Token} :
      Spelled (.expr key) front → colon.kind = .colon → Spelled (.expr value) back →
      Spelled (.entry (key, value)) (front ++ colon :: back)
  | namedEntry {t colon : Token} {value : Expr} {back : List Token} : t.kind = .identifier →
      colon.kind = .colon → Spelled (.expr value) back →
      Spelled (.entry (.text t.lexeme false t.span, value)) (t :: colon :: back)
  | noEntries : Spelled (.entries []) []
  | oneEntry {e : Expr × Expr} {front : List Token} : Spelled (.entry e) front →
      Spelled (.entries [e]) front
  | moreEntries {e : Expr × Expr} {es : List (Expr × Expr)} {comma : Token}
      {front back : List Token} : Spelled (.entry e) front → comma.kind = .comma →
      Spelled (.entries es) back → Spelled (.entries (e :: es)) (front ++ comma :: back)
  -- statements
  | assign {t sign : Token} {value : Expr} {back : List Token} : t.kind = .identifier →
      sign.kind = .assign → Spelled (.expr value) back →
      Spelled (.stmt (.assign t.identifier value false (t.span.merge value.span)))
        (t :: sign :: back)
  | assignRaw {t sign text : Token} : t.kind = .identifier → sign.kind = .equals →
      text.kind = .raw →
      Spelled (.stmt (.assign t.identifier (.text text.lexeme true text.span) false
        (t.span.merge text.span))) [t, sign, text]
  | assignGlobal {word t sign : Token} {value : Expr} {back : List Token} :
      word.kind = .globalWord → t.kind = .identifier → sign.kind = .assign →
      Spelled (.expr value) back →
      Spelled (.stmt (.assign t.identifier value true (word.span.merge value.span)))
        (word :: t :: sign :: back)
  | store {object value : Expr} {key : Key} {span : Span} {sign : Token} {front back : List Token} :
      Spelled (.expr (.access object key span)) front → sign.kind = .assign →
      Spelled (.expr value) back →
      Spelled (.stmt (.store object key value (span.merge value.span))) (front ++ sign :: back)
  | bare {e : Expr} {mid : List Token} : Spelled (.expr e) mid →
      Spelled (.stmt (.expr e e.span)) mid
  | giveNothing {word : Token} : word.kind = .returnWord →
      Spelled (.stmt (.give none word.span)) [word]
  | give {word : Token} {value : Expr} {back : List Token} : word.kind = .returnWord →
      Spelled (.expr value) back →
      Spelled (.stmt (.give (some value) (word.span.merge value.span))) (word :: back)
  | boxExpr {word percent : Token} {text : Expr} {back : List Token} : word.kind = .command →
      percent.kind = .percent → Spelled (.expr text) back →
      Spelled (.stmt (.box { BoxArguments.none with text := some text }
        (word.span.merge text.span))) (word :: percent :: back)
  | boxLine {word : Token} {args line : List Token} {box : BoxArguments} : word.kind = .command →
      BoxArguments.Line args line → BoxArguments.ofSegments args = .ok box →
      Spelled (.stmt (.box box (BoxArguments.spanOf word args))) (word :: line)
  | branch {word : Token} {cond : Expr} {yes : Block} {front ends mid : List Token} :
      word.kind = .ifWord → Spelled (.expr cond) front → (∀ t ∈ ends, t.kind = .lineEnd) →
      Spelled (.block yes) mid →
      Spelled (.stmt (.branch cond yes none (word.span.merge yes.span)))
        (word :: front ++ ends ++ mid)
  | branchElse {word other : Token} {cond : Expr} {yes no : Block}
      {front ends mid ends' ends'' back : List Token} : word.kind = .ifWord →
      Spelled (.expr cond) front → (∀ t ∈ ends, t.kind = .lineEnd) → Spelled (.block yes) mid →
      (∀ t ∈ ends', t.kind = .lineEnd) → other.kind = .elseWord →
      (∀ t ∈ ends'', t.kind = .lineEnd) → Spelled (.arm no) back →
      Spelled (.stmt (.branch cond yes (some no) (word.span.merge no.span)))
        (word :: front ++ ends ++ mid ++ ends' ++ other :: ends'' ++ back)
  | arm {b : Block} {mid : List Token} : Spelled (.block b) mid → Spelled (.arm b) mid
  | furtherIf {s : Stmt} {mid : List Token} : Spelled (.stmt s) mid →
      Spelled (.arm (.mk [s] s.span)) mid
  | declare {t opener closer : Token} {params : List Expr} {body : Block}
      {mid ends back : List Token} : t.kind = .identifier → opener.kind = .leftParen →
      Spelled (.exprs params) mid → closer.kind = .rightParen → (∀ t ∈ ends, t.kind = .lineEnd) →
      Spelled (.block body) back →
      Spelled (.stmt (.declare t.identifier params body (t.span.merge body.span)))
        (t :: opener :: mid ++ closer :: ends ++ back)
  -- rows of statements, and blocks
  | noStmts : Spelled (.stmts []) []
  | moreStmts {s : Stmt} {ss : List Stmt} {front back : List Token} : Spelled (.stmt s) front →
      Spelled (.stmts ss) back → Spelled (.stmts (s :: ss)) (front ++ back)
  | lineEnd {t : Token} {ss : List Stmt} {back : List Token} : t.kind = .lineEnd →
      Spelled (.stmts ss) back → Spelled (.stmts ss) (t :: back)
  | comment {opener closer : Token} {ss : List Stmt} {back : List Token} :
      opener.kind = .openComment → closer.kind = .closeComment → Spelled (.stmts ss) back →
      Spelled (.stmts ss) (opener :: closer :: back)
  | block {opener closer : Token} {ss : List Stmt} {mid : List Token} : opener.kind = .leftBrace →
      Spelled (.stmts ss) mid → closer.kind = .rightBrace →
      Spelled (.block (.mk ss (opener.span.merge closer.span))) (opener :: mid ++ [closer])

end HotkeyScript
