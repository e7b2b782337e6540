import HotkeyScript.Program.Basic
import HotkeyScript.Program.Rule
/-!
# Programs — reading expressions

From the loosest to the tightest: `c ? a : b`; then `+`, `-` and `.`; then
`*`, `/`, `and` and `or`, all on one level; then the signs and `not`; then
atoms with the keys attached to them. All binary operators group to the
left.

Parentheses, literals, arguments, keys, the arms of a choice and the
operands of signs each go one level deeper. `Rule.expression` and
`Rule.operand` recurse on the number of levels left.
-/

namespace HotkeyScript

/-- How deep levels may nest. -/
def maxNesting : Nat := 100

/-! ## Operators and literals by their tokens -/

/-- An operation between two expressions spans both. -/
def Expr.join (op : BinaryOp) (left right : Expr) : Expr :=
  .binary op left right (left.span.merge right.span)

/-- The additive operators. -/
def BinaryOp.additive? : TokenKind → Option BinaryOp
  | .plus => some (.arith .add)
  | .minus => some (.arith .sub)
  | .dot => some .concat
  | _ => none

/-- The multiplicative operators, with `and` and `or` among them. -/
def BinaryOp.multiplicative? : TokenKind → Option BinaryOp
  | .times => some (.arith .mul)
  | .divide => some (.arith .div)
  | .andWord => some .and
  | .orWord => some .or
  | _ => none

/-- The operators that join conditions. -/
def BinaryOp.logical? : TokenKind → Option BinaryOp
  | .andWord => some .and
  | .orWord => some .or
  | _ => none

/-- The operators in front of an operand. -/
def UnaryOp.ofKind? : TokenKind → Option UnaryOp
  | .plus => some (.sign .plus)
  | .minus => some (.sign .minus)
  | .notWord => some .not
  | _ => none

/-- The form of a number token. -/
def TokenKind.form? : TokenKind → Option Form
  | .decimal => some .decimal
  | .hexadecimal => some .hexadecimal
  | .float => some .float
  | _ => none

/-- The identifier a token stands for. -/
def Token.identifier (t : Token) : Identifier := ⟨t.lexeme, t.span⟩

/-- The number a token stands for. -/
def Token.number? (t : Token) : Except Failure NumberLiteral :=
  match t.kind.form?.bind fun form => Number.read? form t.lexeme.toList with
  | some value => .ok ⟨value, t.span⟩
  | none => .error ⟨.numberRange t.lexeme, some t⟩

namespace Rule

/-! ## Operators -/

/-- Operands joined by multiplicative operators. -/
def product (operand : Rule Expr) : Rule Expr := fun ts => do
  let first ← operand ts
  let all ← chain BinaryOp.multiplicative? Expr.join operand first.value first.rest
  return first.extendedBy all

/-- The arms of a choice behind its condition, if a `?` stands there. -/
def arms (nested : Rule Expr) (condition : Expr) : OptionalRule Expr
  | [] => .ok (.nothing condition [])
  | t :: ts =>
    if t.kind = .question then do
      let yes ← nested ts
      let colon ← expect .colon .colon yes.rest
      let no ← nested colon.rest
      let choice := Expr.choice condition yes.value no.value (condition.span.merge no.value.span)
      return ((yes.followedBy (colon.followedBy no)).behind t).relax.as choice
    else .ok (.nothing condition (t :: ts))

/-- Products joined by additive operators, then perhaps a choice. -/
def sum (nested operand : Rule Expr) : Rule Expr := fun ts => do
  let first ← product operand ts
  let all ← chain BinaryOp.additive? Expr.join (product operand) first.value first.rest
  let whole ← arms nested all.value all.rest
  return first.extendedBy (all.extendedBy whole)

/-! ## Keys

A blank tells a key from what it could be taken for: `a.b` and `a[b]` read
a key, `a . b` joins two texts. -/

/-- Whether two tokens are an attached point and a key behind it. -/
def isMember (dot key : Token) : Bool :=
  dot.kind == .dot && !dot.spaced && !key.spaced &&
    (key.kind == .identifier || key.kind == .decimal || key.kind == .hexadecimal)

/-- The key that stands behind a point. -/
def memberKey (t : Token) : Except Failure Key :=
  if t.kind = .identifier then .ok (.member t.identifier)
  else do
    let literal ← t.number?
    return .index (.number literal)

/-- An object and a key behind it, whose last token is given. -/
def Expr.at (object : Expr) (key : Key) (last : Token) : Expr :=
  .access object key (object.span.merge last.span)

/-- The keys attached to an object: `.name`, `.1` and `[key]`, each without
a blank in front. -/
def accesses (nested : Rule Expr) (object : Expr) : OptionalRule Expr
  | [] => .ok (.nothing object [])
  | t :: ts =>
    if t.kind = .leftBracket ∧ !t.spaced then
      if nextKind ts = .rightBracket then .error (Mistake.emptyBrackets.here ts)
      else do
        let key ← nested ts
        let close ← expect .rightBracket .closeBracket key.rest
        let more ← accesses nested (Expr.at object (.index key.value) close.value) close.rest
        return ((key.followedBy (close.extendedBy more)).behind t).relax
    else
      match ts with
      | [] => .ok (.nothing object [t])
      | k :: ts =>
        if isMember t k then do
          let key ← memberKey k
          let more ← accesses nested (Expr.at object key k) ts
          return more.relax.relax
        else .ok (.nothing object (t :: k :: ts))
termination_by ts => ts.length
decreasing_by
  · exact Nat.lt_succ_of_lt (Nat.lt_trans close.shorter key.shorter)
  · exact Nat.lt_succ_of_lt (Nat.lt_succ_self _)

/-! ## Atoms -/

/-- The key of a table's entry. A name directly before the `:` is a text. -/
def entryKey (nested : Rule Expr) : Rule Expr
  | t :: c :: ts =>
    if t.kind = .identifier ∧ c.kind = .colon then
      .ok (.one (.text t.lexeme false t.span) t (c :: ts))
    else nested (t :: c :: ts)
  | ts => nested ts

/-- An entry of a table, `key ":" value`. -/
def entry (nested : Rule Expr) : Rule (Expr × Expr) := fun ts => do
  let key ← entryKey nested ts
  let colon ← expect .colon .colon key.rest
  let value ← nested colon.rest
  return (key.followedBy (colon.followedBy value)).as (key.value, value.value)

/-- The arguments of a call, behind its `(`. -/
def arguments (nested : Rule Expr) : Rule (List Expr × Token) :=
  listed nested .rightParen .closeParen

/-- An expression without operators: a literal, a name, a call, or an
expression in parentheses. Keys may be attached to all but numbers, texts,
booleans and parentheses. -/
def atom (nested : Rule Expr) : Rule Expr
  | [] => .error (Mistake.atom.here [])
  | t :: ts =>
    match t.kind with
    | .decimal | .hexadecimal | .float => do
      let literal ← t.number?
      return .one (.number literal) t ts
    | .quoted => .ok (.one (.text t.lexeme false t.span) t ts)
    | .boolean => .ok (.one (.boolean (t.lexeme == "true") t.span) t ts)
    | .identifier =>
      match ts with
      | p :: rest =>
        if p.kind = .leftParen ∧ !p.spaced then do
          let args ← arguments nested rest
          let call := Expr.call t.identifier args.value.1 (t.span.merge args.value.2.span)
          let whole ← accesses nested call args.rest
          return ((args.extendedBy whole).behind p).behind t
        else accesses nested (.name t.identifier) (p :: rest)
      | [] => .ok (.one (.name t.identifier) t [])
    | .leftParen => do
      let inner ← nested ts
      let close ← expect .rightParen .closeParen inner.rest
      return ((inner.followedBy close).behind t).as inner.value
    | .leftBracket => do
      let all ← listed nested .rightBracket .commaOrBracket ts
      let array := Expr.array all.value.1 (t.span.merge all.value.2.span)
      let whole ← accesses nested array all.rest
      return (all.extendedBy whole).behind t
    | .leftBrace => do
      let all ← listed (entry nested) .rightBrace .commaOrBrace ts
      let table := Expr.table all.value.1 (t.span.merge all.value.2.span)
      let whole ← accesses nested table all.rest
      return (all.extendedBy whole).behind t
    | _ => .error (Mistake.atom.here (t :: ts))

/-! ## Levels -/

/-- An atom behind signs and `not`; `deeper` reads what stands behind one. -/
def signed (deeper nested : Rule Expr) : Rule Expr
  | [] => atom nested []
  | t :: ts =>
    match UnaryOp.ofKind? t.kind with
    | none => atom nested (t :: ts)
    | some op => do
      let operand ← deeper ts
      return (operand.behind t).as (.unary op operand.value (t.span.merge operand.value.span))

mutual

/-- An expression one level deeper, with that many levels left. -/
def expression : Nat → Rule Expr
  | 0 => tooDeep
  | n + 1 => sum (expression n) (signed (operand n) (expression n))

/-- The operand of a sign one level deeper, with that many levels left. -/
def operand : Nat → Rule Expr
  | 0 => tooDeep
  | n + 1 => signed (operand n) (expression n)

end

/-- Expressions joined by `and` and `or`. -/
def condition (nested : Rule Expr) : Rule Expr := fun ts => do
  let first ← nested ts
  let all ← chain BinaryOp.logical? Expr.join nested first.value first.rest
  return first.extendedBy all

end Rule

end HotkeyScript
