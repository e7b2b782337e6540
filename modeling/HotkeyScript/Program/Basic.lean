import HotkeyScript.Number.Literal
import HotkeyScript.Text.Position
import HotkeyScript.Value.Kind
/-!
# Programs — expressions and statements

A program is its statements in order. Every node carries the span it was
read from, and a node's span covers those of its parts.
-/

namespace HotkeyScript

/-- A name where it stands. -/
structure Identifier where
  name : String
  span : Span
deriving DecidableEq, Inhabited

/-- A number where it stands. -/
structure NumberLiteral where
  value : Number
  span : Span
deriving DecidableEq, Inhabited

/-- The operators between two operands. -/
inductive BinaryOp where
  | arith (op : Arith)
  | concat
  | and
  | or
deriving DecidableEq, Inhabited

/-- The operators in front of one operand. -/
inductive UnaryOp where
  | sign (sign : Sign)
  | not
deriving DecidableEq, Inhabited

mutual

/-- An expression. -/
inductive Expr where
  | number (literal : NumberLiteral)
  /-- a text; an interpolated one has its `%name%` references replaced when
  it is evaluated -/
  | text (value : String) (interpolated : Bool) (span : Span)
  | boolean (value : Bool) (span : Span)
  | array (elements : List Expr) (span : Span)
  | table (entries : List (Expr × Expr)) (span : Span)
  | name (identifier : Identifier)
  | access (object : Expr) (key : Key) (span : Span)
  | binary (op : BinaryOp) (left right : Expr) (span : Span)
  | unary (op : UnaryOp) (operand : Expr) (span : Span)
  | choice (condition yes no : Expr) (span : Span)
  | call (callee : Identifier) (args : List Expr) (span : Span)

/-- What stands behind an object: a member's name after a point, or a key
in brackets or a number after a point. -/
inductive Key where
  | member (identifier : Identifier)
  | index (key : Expr)

end

instance : Inhabited Expr := ⟨.boolean false default⟩

/-- Where an expression stands. -/
def Expr.span : Expr → Span
  | number literal => literal.span
  | name identifier => identifier.span
  | text _ _ span | boolean _ span | array _ span | table _ span | access _ _ span
  | binary _ _ _ span | unary _ _ span | choice _ _ _ span | call _ _ span => span

/-- Where a key stands. -/
def Key.span : Key → Span
  | member identifier => identifier.span
  | index key => key.span

/-- The arguments of a message box; one that is left out takes its default
when the box is shown. -/
structure BoxArguments where
  options : Option NumberLiteral
  title : Option Expr
  text : Option Expr
  timeout : Option NumberLiteral
deriving Inhabited

mutual

/-- A statement. -/
inductive Stmt where
  | assign (name : Identifier) (value : Expr) (isGlobal : Bool) (span : Span)
  | store (object : Expr) (key : Key) (value : Expr) (span : Span)
  | branch (condition : Expr) (yes : Block) (no : Option Block) (span : Span)
  /-- a function; that its parameters are names is checked when the
  declaration runs -/
  | declare (name : Identifier) (params : List Expr) (body : Block) (span : Span)
  | give (value : Option Expr) (span : Span)
  | box (args : BoxArguments) (span : Span)
  | expr (expr : Expr) (span : Span)

/-- Statements between braces. -/
inductive Block where
  | mk (statements : List Stmt) (span : Span)

end

instance : Inhabited Block := ⟨.mk [] default⟩

instance : Inhabited Stmt := ⟨.expr default default⟩

/-- Where a statement stands. -/
def Stmt.span : Stmt → Span
  | assign _ _ _ span | store _ _ _ span | branch _ _ _ span | declare _ _ _ span
  | give _ span | box _ span | expr _ span => span

/-- The statements of a block. -/
def Block.statements : Block → List Stmt
  | mk statements _ => statements

/-- Where a block stands. -/
def Block.span : Block → Span
  | mk _ span => span

/-- A script that has been read. -/
structure Program where
  statements : List Stmt
deriving Inhabited

end HotkeyScript
