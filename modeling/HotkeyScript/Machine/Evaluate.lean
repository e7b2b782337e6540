import HotkeyScript.Machine.Basic
import HotkeyScript.Text.Reference
/-!
# The machine — expressions

Evaluation goes by recursion on the expression. A call of a function does
not: what it does is a parameter, `call`, so that the bodies of functions
and the bound on nested calls stay outside.

Operands, elements, entries and arguments are evaluated from the left, both
operands of `and` and `or` always.
-/

namespace HotkeyScript

/-- What a call of a function with evaluated arguments does. The span is the
call's. -/
abbrev Caller : Type := Function → List Value → Span → Run Value

open Machine

/-- The text of some parts, with the value shown for each reference. The
shown text is not looked into for further references. -/
def fill (span : Span) : List Text.Part → Run (List Char)
  | [] => return []
  | .char c :: parts => do
    let rest ← fill span parts
    return c :: rest
  | .reference name :: parts => do
    let v ← lookup (String.ofList name) span
    let shown ← display v
    let rest ← fill span parts
    return shown.toList ++ rest

/-- A text with its references replaced. -/
def interpolate (text : String) (span : Span) : Run String := do
  let filled ← fill span (Text.parts text.toList)
  return String.ofList filled

/-- What an operator does with two values. -/
def BinaryOp.apply (op : BinaryOp) (a b : Value) (h : Heap) : Except Fault Value :=
  match op with
  | .arith operation => a.arith operation b
  | .concat => a.concat b
  | .and => .ok (h.both a b)
  | .or => .ok (h.either a b)

/-- What an operator does with one value. -/
def UnaryOp.apply (op : UnaryOp) (v : Value) (h : Heap) : Except Fault Value :=
  match op with
  | .sign s => v.signed s
  | .not => .ok (h.negation v)

/-- An answer that depends on the objects, or a failure at a span. -/
def Machine.ask {α : Type} (span : Span) (question : Heap → Except Fault α) : Run α := fun m =>
  orFail span (question m.heap) m

/-- Adds an entry to a table that is being made. -/
def putEntry (entries : OrderedMap TableKey Value) (key value : Value) (span : Span) :
    Run (OrderedMap TableKey Value) := do
  let k ← orFail span (Heap.tableKey key)
  return entries.insert k value

mutual

/-- The value of an expression. -/
def Expr.eval (call : Caller) : Expr → Run Value
  | .number literal => return .number literal.value
  | .text value false _ => return .text value
  | .text value true span => do
    let filled ← interpolate value span
    return .text filled
  | .boolean value _ => return .boolean value
  | .array elements _ => do
    let items ← Expr.evalAll call elements
    newArray items
  | .table entries _ => do
    let map ← Expr.evalEntries call .empty entries
    newTable map
  | .name identifier => lookup identifier.name identifier.span
  | .access object key _ => do
    let o ← object.eval call
    let k ← key.eval call
    ask key.span fun h => h.get o k
  | .binary op left right span => do
    let a ← left.eval call
    let b ← right.eval call
    ask span (op.apply a b)
  | .unary op operand span => do
    let v ← operand.eval call
    ask span (op.apply v)
  | .choice condition yes no _ => do
    let v ← condition.eval call
    if (← isTrue v) then yes.eval call else no.eval call
  | .call callee args span => do
    let f ← functionOf callee
    -- the number of arguments is checked before any is evaluated
    if f.params.length = args.length then
      let values ← Expr.evalAll call args
      call f values span
    else fail (.argumentCount f.name f.params.length args.length) span

/-- The value of a key; a member's name is a text. -/
def Key.eval (call : Caller) : Key → Run Value
  | .member identifier => return .text identifier.name
  | .index key => key.eval call

/-- The values of expressions in order. -/
def Expr.evalAll (call : Caller) : List Expr → Run (List Value)
  | [] => return []
  | e :: es => do
    let v ← e.eval call
    let vs ← Expr.evalAll call es
    return v :: vs

/-- Entries added to a table that is being made. -/
def Expr.evalEntries (call : Caller) (map : OrderedMap TableKey Value) :
    List (Expr × Expr) → Run (OrderedMap TableKey Value)
  | [] => return map
  | (key, value) :: entries => do
    let k ← key.eval call
    let v ← value.eval call
    let map ← putEntry map k v key.span
    Expr.evalEntries call map entries

end

end HotkeyScript
