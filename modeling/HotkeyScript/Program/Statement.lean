import HotkeyScript.Program.BoxLine
import HotkeyScript.Token.Tokenize
/-!
# Programs — reading statements

A statement ends at the end of its line, at the end of the script, or
before the brace that closes its block. A block comment is no statement.
Blocks go one level deeper, as expressions do; the `if` of an `else if`
does not.
-/

namespace HotkeyScript

namespace Rule

/-! ## Rows of statements -/

/-- The end of a statement. In a block a closing brace ends it too, and is
left standing. -/
def endOfStatement (inBlock : Bool) : OptionalRule Unit
  | [] => .ok (.nothing () [])
  | t :: ts =>
    if t.kind = .lineEnd then .ok (Parsed.one () t ts).relax
    else if t.kind = .rightBrace ∧ inBlock then .ok (.nothing () (t :: ts))
    else .error (Mistake.lineEnd.here (t :: ts))

/-- Statements up to the end of the script, or up to the closing brace of
their block. -/
def statements (statement : Rule (Option Stmt)) (inBlock : Bool) : OptionalRule (List Stmt) :=
  fun ts =>
    if (skipLineEnds ts).isEmpty || (inBlock && nextKind (skipLineEnds ts) == .rightBrace) then
      .ok ⟨[], skipLineEnds ts, Nat.lt_succ_of_le (length_skipLineEnds ts)⟩
    else do
      let first ← statement (skipLineEnds ts)
      let stop ← endOfStatement inBlock first.rest
      let more ← statements statement inBlock stop.rest
      let read := (first.extendedBy (stop.extendedBy more)).behindLineEnds
      return read.relax.as (first.value.toList ++ more.value)
termination_by ts => ts.length
decreasing_by
  exact Nat.lt_of_lt_of_le (Nat.lt_of_lt_of_le stop.shorter first.shorter) (length_skipLineEnds ts)

/-- Statements between braces. -/
def braced (statement : Rule (Option Stmt)) : Rule Block := fun ts => do
  let start ← expect .leftBrace .openBrace ts
  let body ← statements statement true start.rest
  let stop ← expect .rightBrace .closeBrace body.rest
  let block := Block.mk body.value (start.value.span.merge stop.value.span)
  return (start.extendedBy (body.followedBy stop)).as block

/-! ## Statements that begin with a word -/

/-- `global name := value`, behind the word. -/
def globalAssignment (expr : Rule Expr) (start : Token) : Rule Stmt := fun ts => do
  let name ← expect .identifier .nameAfterGlobal ts
  let sign ← expect .assign .assignment name.rest
  let value ← expr sign.rest
  let span := start.span.merge value.value.span
  return (name.followedBy (sign.followedBy value)).as
    (.assign name.value.identifier value.value true span)

/-- What a function gives back, behind the word; nothing at the end of a
line or before a closing brace. -/
def returned (expr : Rule Expr) (start : Token) : OptionalRule Stmt := fun ts =>
  if (nextKind ts).isLineEnd || nextKind ts == .rightBrace then
    .ok (.nothing (.give none start.span) ts)
  else do
    let value ← expr ts
    return value.relax.as (.give (some value.value) (start.span.merge value.value.span))

/-- The word `else`, perhaps on a later line, and the line ends behind it. -/
def elseWord? (ts : List Token) : Option (Parsed Unit ts.length) :=
  match h : skipLineEnds ts with
  | t :: rest =>
    if t.kind = .elseWord then some ⟨(), skipLineEnds rest, length_lt_of_skipLineEnds h⟩ else none
  | [] => none

/-- `if`, behind the word: a condition, a block, and perhaps `else` with a
block or a further `if`. -/
def branch (expr : Rule Expr) (block : Rule Block) (start : Token) : Rule Stmt := fun ts => do
  let test ← condition expr ts
  let yes ← block (skipLineEnds test.rest)
  match elseWord? yes.rest with
  | none =>
    return (test.followedBy yes.behindLineEnds).as
      (.branch test.value yes.value none (start.span.merge yes.value.span))
  | some ⟨_, t :: ts', h⟩ =>
    let word : Parsed Unit yes.rest.length := ⟨(), t :: ts', h⟩
    if t.kind = .ifWord then do
      -- a further `if` goes no level deeper, so a chain may have any length
      let more ← branch expr block t ts'
      let no := Block.mk [more.value] more.value.span
      let read := yes.followedBy (word.followedBy (more.behind t))
      return (test.followedBy read.behindLineEnds).as
        (.branch test.value yes.value (some no) (start.span.merge no.span))
    else do
      let no ← block (t :: ts')
      return (test.followedBy (yes.followedBy (word.followedBy no)).behindLineEnds).as
        (.branch test.value yes.value (some no.value) (start.span.merge no.value.span))
  | some ⟨_, [], h⟩ => do
    let word : Parsed Unit yes.rest.length := ⟨(), [], h⟩
    let no ← block []
    return (test.followedBy (yes.followedBy (word.followedBy no)).behindLineEnds).as
      (.branch test.value yes.value (some no.value) (start.span.merge no.value.span))
termination_by ts => ts.length
decreasing_by
  have hyes := Nat.lt_of_lt_of_le yes.shorter (length_skipLineEnds test.rest)
  exact Nat.lt_trans (Nat.lt_of_succ_lt h) (Nat.lt_trans hyes test.shorter)

/-! ## Statements that begin with a name or an expression -/

/-- An expression, or an object with a key and the value it is given. -/
def bare (expr : Rule Expr) : Rule Stmt := fun ts => do
  let target ← expr ts
  if nextKind target.rest = .assign then
    match target.value with
    | .access object key span =>
      let value ← expr target.rest.tail
      return (target.followedBy value.behindHead).as
        (.store object key value.value (span.merge value.value.span))
    | _ => .error (Mistake.notAssignable.here target.rest)
  else
    return target.as (.expr target.value target.value.span)

/-- A statement that starts with a name: an assignment, an expression, or a
function. `name(parameters)` with a block behind it is a function; without
one it is an expression, read again from the name. -/
def named (expr : Rule Expr) (block : Rule Block) (name : Token) (ts : List Token) :
    Except Failure (Parsed Stmt (name :: ts).length) :=
  match ts with
  | [] => bare expr [name]
  | t :: rest =>
    if t.kind = .assign then do
      let value ← expr rest
      return ((value.behind t).behind name).as
        (.assign name.identifier value.value false (name.span.merge value.value.span))
    else if t.kind = .equals then do
      let text ← expect .raw .textAfterEquals rest
      let value := Expr.text text.value.lexeme true text.value.span
      return ((text.behind t).behind name).as
        (.assign name.identifier value false (name.span.merge text.value.span))
    else if t.kind = .leftParen then do
      let params ← arguments expr rest
      if nextKind (skipLineEnds params.rest) = .leftBrace then
        let body ← block (skipLineEnds params.rest)
        return (((params.followedBy body.behindLineEnds).behind t).behind name).as
          (.declare name.identifier params.value.1 body.value (name.span.merge body.value.span))
      -- no block follows, so the parameters were the arguments of a call
      else bare expr (name :: t :: rest)
    else bare expr (name :: t :: rest)

/-! ## All together -/

/-- One statement, or nothing for a block comment. -/
def statement (expr : Rule Expr) (block : Rule Block) : Rule (Option Stmt)
  | [] => do
    let s ← bare expr []
    return s.map some
  | t :: ts =>
    match t.kind with
    | .openComment => do
      let close ← expect .closeComment .closeComment ts
      return (close.behind t).map fun _ => none
    | .globalWord => do
      let s ← globalAssignment expr t ts
      return (s.behind t).map some
    | .returnWord => do
      let s ← returned expr t ts
      return s.map some
    | .ifWord => do
      let s ← branch expr block t ts
      return (s.behind t).map some
    | .command => do
      let s ← box expr t ts
      return s.map some
    | .identifier => do
      let s ← named expr block t ts
      return s.map some
    | _ => do
      let s ← bare expr (t :: ts)
      return s.map some

/-- A block one level deeper, with that many levels left. -/
def block : Nat → Rule Block
  | 0 => tooDeep
  | n + 1 => braced (statement (expression n) (block n))

/-- A script's statements, from its tokens without the start and the end
of the file. -/
def script : OptionalRule (List Stmt) :=
  statements (statement (expression maxNesting) (block maxNesting)) false

end Rule

/-- A mistake and where it is; `atLineEnd` tells whether the script, or its
line, ended too early. -/
structure GrammarError where
  mistake : Mistake
  span : Span
  atLineEnd : Bool
deriving DecidableEq, Inhabited

/-- The program that a script's tokens make up, which begin with the start
and end with the end of the file. -/
def Program.ofTokens (tokens : List Token) : Except GrammarError Program :=
  match Rule.script (tokens.drop 1).dropLast with
  | .ok parsed => .ok ⟨parsed.value⟩
  | .error failure =>
    let at' := failure.token?.getD (tokens.getLast?.getD default)
    .error ⟨failure.mistake, at'.span, at'.kind.isLineEnd⟩

end HotkeyScript
