import HotkeyScript.Dump.Json
import HotkeyScript.Program.Basic
import HotkeyScript.Token.Kind
/-!
# Dumps — tokens and programs

Tokens and programs as JSON values. How spans and numbers are spelled is
left to a `Spelling`; `Spelling.plain` is the one for people and tools.
-/

namespace HotkeyScript

/-- How the leaves of a dump are spelled. -/
structure Spelling where
  span : Span → Json
  number : Number → Json

namespace Dump

/-- A position with its three counts. -/
def position (p : Position) : Json :=
  .object [("offset", .integer p.offset), ("line", .integer p.line), ("column", .integer p.column)]

/-- A span with both its ends. -/
def span (s : Span) : Json := .object [("start", position s.start), ("end", position s.stop)]

/-- A number under the name of its kind. -/
def number : Number → Json
  | .decimal n => .object [("Decimal", .integer n.toInt)]
  | .hexadecimal n => .object [("Hexadecimal", .integer n.toInt)]
  | .float x => .object [("Float", .float x)]

end Dump

/-- Spans and numbers written out. -/
def Spelling.plain : Spelling := ⟨Dump.span, Dump.number⟩

namespace Dump

/-! ## Tokens -/

/-- A token. -/
def token (sp : Spelling) (t : Token) : Json :=
  .object [("kind", .text t.kind.label), ("lexeme", .text t.lexeme), ("span", sp.span t.span),
    ("leading_space", .boolean t.spaced)]

/-- A script's tokens. -/
def tokens (sp : Spelling) (ts : List Token) : Json := .array (ts.map (token sp))

/-! ## Expressions -/

/-- A node: what is known of it and where it stands, under the name of its
form. -/
def node (sp : Spelling) (form : String) (fields : List (String × Json)) (s : Span) : Json :=
  .object [(form, .object (fields ++ [("span", sp.span s)]))]

/-- A name where it stands. -/
def identifier (sp : Spelling) (i : Identifier) : Json :=
  .object [("name", .text i.name), ("span", sp.span i.span)]

/-- A number where it stands. -/
def literal (sp : Spelling) (n : NumberLiteral) : Json :=
  .object [("value", sp.number n.value), ("span", sp.span n.span)]

/-- The word for an operator between two operands. -/
def binaryWord : BinaryOp → String
  | .arith .add => "Add"
  | .arith .sub => "Sub"
  | .arith .mul => "Mul"
  | .arith .div => "Div"
  | .concat => "Concat"
  | .and => "And"
  | .or => "Or"

/-- The word for an operator in front of one operand. -/
def unaryWord : UnaryOp → String
  | .sign .plus => "Plus"
  | .sign .minus => "Minus"
  | .not => "Not"

mutual

/-- An expression. -/
def expr (sp : Spelling) : Expr → Json
  | .number n => .object [("Number", literal sp n)]
  | .text value interpolated s =>
    node sp "String" [("value", .text value), ("interpolate", .boolean interpolated)] s
  | .boolean value s => node sp "Boolean" [("value", .boolean value)] s
  | .array elements s => node sp "Array" [("elements", .array (exprs sp elements))] s
  | .table es s => node sp "AssociativeArray" [("entries", .array (entries sp es))] s
  | .name i => .object [("Variable", identifier sp i)]
  | .access object k s => node sp "Access" [("object", expr sp object), ("key", key sp k)] s
  | .binary op left right s =>
    node sp "Binary"
      [("op", .text (binaryWord op)), ("left", expr sp left), ("right", expr sp right)] s
  | .unary op operand s =>
    node sp "Unary" [("op", .text (unaryWord op)), ("operand", expr sp operand)] s
  | .choice condition yes no s =>
    node sp "Ternary"
      [("condition", expr sp condition), ("then_expr", expr sp yes), ("else_expr", expr sp no)] s
  | .call callee args s =>
    node sp "Call" [("callee", identifier sp callee), ("args", .array (exprs sp args))] s

/-- A key. -/
def key (sp : Spelling) : Key → Json
  | .member i => .object [("Member", identifier sp i)]
  | .index e => .object [("Index", expr sp e)]

/-- Expressions in order. -/
def exprs (sp : Spelling) : List Expr → List Json
  | [] => []
  | e :: es => expr sp e :: exprs sp es

/-- The entries of a table. -/
def entries (sp : Spelling) : List (Expr × Expr) → List Json
  | [] => []
  | (k, v) :: es => .object [("key", expr sp k), ("value", expr sp v)] :: entries sp es

end

/-! ## Statements and programs -/

/-- The arguments of a message box. -/
def boxArguments (sp : Spelling) (args : BoxArguments) : Json :=
  .object
    [("options", .ofOption (literal sp) args.options), ("title", .ofOption (expr sp) args.title),
      ("text", .ofOption (expr sp) args.text), ("timeout", .ofOption (literal sp) args.timeout)]

mutual

/-- A statement. -/
def statement (sp : Spelling) : Stmt → Json
  | .assign name value isGlobal s =>
    node sp "VarAssign"
      [("name", identifier sp name), ("value", expr sp value), ("global", .boolean isGlobal)] s
  | .store object k value s =>
    node sp "ObjectAssign"
      [("object", expr sp object), ("key", key sp k), ("value", expr sp value)] s
  | .branch condition yes no s =>
    let other := match no with
      | none => Json.null
      | some b => block sp b
    node sp "If"
      [("condition", expr sp condition), ("then_branch", block sp yes), ("else_branch", other)] s
  | .declare name params body s =>
    node sp "FunctionDeclare"
      [("name", identifier sp name), ("params", .array (exprs sp params)),
        ("body", block sp body)] s
  | .give value s => node sp "Return" [("value", .ofOption (expr sp) value)] s
  | .box args s => node sp "Command" [("command", .object [("MsgBox", boxArguments sp args)])] s
  | .expr e s => node sp "Expr" [("expr", expr sp e)] s

/-- A block. -/
def block (sp : Spelling) : Block → Json
  | .mk ss s => .object [("statements", .array (statements sp ss)), ("span", sp.span s)]

/-- Statements in order. -/
def statements (sp : Spelling) : List Stmt → List Json
  | [] => []
  | s :: ss => statement sp s :: statements sp ss

end

/-- The version of the form that programs are dumped in. -/
def programVersion : Nat := 1

/-- A program under the version of its form. -/
def program (sp : Spelling) (p : Program) : Json :=
  .object
    [("ast_version", .integer programVersion),
      ("program", .object [("statements", .array (statements sp p.statements))])]

end Dump

end HotkeyScript
