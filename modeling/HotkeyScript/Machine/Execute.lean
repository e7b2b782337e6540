import HotkeyScript.Machine.Evaluate
/-!
# The machine — statements and calls

A statement either goes on behind it or makes its function give back a
value. Statements run by recursion on their form, and `callAt` closes the
circle: it bounds nested calls by the number that may still be entered, so
every program comes to an end.
-/

namespace HotkeyScript

open Machine

/-- How a statement, or a row of them, ends: it goes on behind it with what
it did, or the function it is in gives back a value. -/
inductive Ending (α : Type) where
  | next (did : α)
  | give (value : Value)
deriving Inhabited

/-- A branch ends as its statements do. -/
def Ending.branch : Ending (List Outcome) → Ending Outcome
  | next outcomes => next (.branch outcomes)
  | give v => give v

/-! ## Parts of statements -/

/-- The names of a function's parameters, which have to be plain names. -/
def paramNames : List Expr → Run (List String)
  | [] => return []
  | .name identifier :: params => do
    let names ← paramNames params
    return identifier.name :: names
  | param :: _ => fail .invalidParameter param.span

/-- The title of a box that is given none. -/
def Machine.titleOrDefault : Run String := fun m =>
  .ok (m.settings.defaultTitle.getD m.stack.module.source.name) m

/-- The text of an expression's value, or a default where there is none. -/
def shownOr (call : Caller) (default : Run String) : Option Expr → Run String
  | none => default
  | some e => do
    let v ← e.eval call
    display v

/-- A timeout as a box takes it. -/
def Machine.timeout (literal : Option NumberLiteral) : Run (Option Float) := fun m =>
  .ok (literal.map fun l => clampTimeout m.settings.maxTimeout l.value.toFloat) m

/-- The number that options stand for; a float stands for none, as if it
were left out. -/
def boxOptions (literal : Option NumberLiteral) : Int64 :=
  (literal.bind fun l => l.value.integer?).getD 0

/-- Asks for a message box, or in debug mode only tells of it. -/
def BoxArguments.run (call : Caller) (args : BoxArguments) (span : Span) : Run Outcome := do
  let title ← shownOr call titleOrDefault args.title
  let text ← shownOr call (pure defaultText) args.text
  let timeout ← Machine.timeout args.timeout
  let message :=
    "MsgBox with title: '" ++ title ++ "' and text: '" ++ text ++ "' is being displayed."
  if (← debugging) then
    did message
  else
    let options := boxOptions args.options
    if (← present ⟨title, text, options, timeout⟩) then
      return .message message
    else
      fail (.unsupportedBox options) ((args.options.map NumberLiteral.span).getD span)

/-! ## Statements -/

mutual

/-- Runs a statement. -/
def Stmt.run (call : Caller) : Stmt → Run (Ending Outcome)
  | .assign name value isGlobal _ => do
    let v ← value.eval call
    let shown ← display v
    let scope ← scopeName
    Machine.assign name.name v isGlobal
    let outcome ← did
      ("'" ++ name.name ++ "' inside '" ++ scope ++ "' has been assigned the value '" ++ shown ++
        "'.")
    return .next outcome
  | .store object key value _ => do
    let o ← object.eval call
    let k ← key.eval call
    let v ← value.eval call
    -- both are shown as they are before the object changes
    let shownKey ← display k
    let shown ← display v
    Machine.store o k v key.span
    let outcome ← did ("Key '" ++ shownKey ++ "' was assigned the value " ++ shown ++ ".")
    return .next outcome
  | .branch condition yes no _ => do
    let v ← condition.eval call
    if (← isTrue v) then
      let ending ← yes.run call
      return ending.branch
    else
      match no with
      | none => return .next .empty
      | some no =>
        let ending ← no.run call
        return ending.branch
  | .declare name params body _ => do
    let names ← paramNames params
    Machine.declare name.name names body
    let outcome ← did ("Function with name '" ++ name.name ++ "' has been declared.")
    return .next outcome
  | .give value span => do
    if (← inFunction) then
      match value with
      | none => return .give (.text "")
      | some e =>
        let v ← e.eval call
        return .give v
    else fail .returnOutsideFunction span
  | .box args span => do
    let outcome ← args.run call span
    return .next outcome
  | .expr e _ => do
    let v ← e.eval call
    return .next (.value v)

/-- Runs a block. -/
def Block.run (call : Caller) : Block → Run (Ending (List Outcome))
  | .mk statements _ => Stmt.runAll call statements

/-- Runs statements in order, until one of them gives back a value. -/
def Stmt.runAll (call : Caller) : List Stmt → Run (Ending (List Outcome))
  | [] => return .next []
  | s :: ss => do
    match ← s.run call with
    | .give v => return .give v
    | .next outcome =>
      match ← Stmt.runAll call ss with
      | .give v => return .give v
      | .next outcomes => return .next (outcome :: outcomes)

end

/-! ## Calls and programs -/

/-- Calls a function where that many nested calls may still be entered. A
function that gives nothing back gives the empty text. -/
def callAt : Nat → Caller
  | 0, _, _, site => do
    let limit ← callLimit
    fail (.callDepth limit) site
  | n + 1, f, args, site => do
    enter f args site.start
    -- a body that fails leaves its scope in place, for the traceback to show
    let ending ← f.body.run (callAt n)
    leave
    match ending with
    | .give v => return v
    | .next _ => return .text ""

namespace Machine

/-- The calls that may still be entered. -/
def callsLeft (m : Machine) : Nat := m.settings.maxCallDepth - m.stack.depth

/-- Runs one statement of the module. If it fails, the calls it left under
way are left. -/
def execute (s : Stmt) : Run Outcome := fun m =>
  match s.run (callAt m.callsLeft) m with
  | .ok (.next outcome) m => .ok outcome m
  -- the module gives nothing back: such a statement fails before it ends
  | .ok (.give _) m => .ok .empty m
  | .error e m => .error e m.unwind

/-- Runs the statements of the module in order, up to the first that
fails. -/
def executeAll : List Stmt → Run (List Outcome)
  | [] => return []
  | s :: ss => do
    let outcome ← execute s
    let outcomes ← executeAll ss
    return outcome :: outcomes

end Machine

end HotkeyScript
