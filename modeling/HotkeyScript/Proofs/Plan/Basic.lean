import HotkeyScript.Machine.Execute
/-!
# Plans — the interpreter without a bound

A plan says what the interpreter does, one action after another, where
evaluating a part of the script and calling a function are left as
requests. `Job.plan` is the interpreter's one clause for each part of a
script. It asks for other parts freely, and nothing in it counts down: a
plan is recursion as it is written, before anything is known of its end.

`Plan.run` carries a plan out with the evaluators of the machine, and
`Job.run_plan` says that the clauses are theirs: carrying out the plan of a
part is evaluating the part.
-/

namespace HotkeyScript

/-- How a step of a machine comes out. -/
abbrev Result (α : Type) : Type := EStateM.Result Error Machine α

/-- The machine that a step leaves, whether or not it failed. -/
def Result.machine {α : Type} : Result α → Machine
  | .ok _ m => m
  | .error _ m => m

/-- A step that succeeds is followed by the next, on the machine it left. -/
theorem Run.bind_of_ok {α β : Type} {x : Run β} {k : β → Run α} {m m' : Machine} {b : β}
    (h : x m = .ok b m') : (x >>= k) m = k b m' := by
  change EStateM.bind x k m = _
  rw [EStateM.bind, h]

/-- A step that fails is the last. -/
theorem Run.bind_of_error {α β : Type} {x : Run β} {k : β → Run α} {m m' : Machine} {e : Error}
    (h : x m = .error e m') : (x >>= k) m = .error e m' := by
  change EStateM.bind x k m = _
  rw [EStateM.bind, h]

/-! ## Actions -/

/-- One thing that the machine does by itself, with nothing left to
evaluate. -/
inductive Op : Type → Type 1 where
  /-- looks something up among the objects -/
  | see {α : Type} (view : Heap → α) : Op α
  /-- looks something up among the objects, which may fail at a span -/
  | ask {α : Type} (span : Span) (question : Heap → Except Fault α) : Op α
  | find (name : String) : Op (Option Value)
  | inFunction : Op Bool
  | debugging : Op Bool
  | scopeName : Op String
  | title : Op String
  | timeout (literal : Option NumberLiteral) : Op (Option Float)
  | newArray (items : List Value) : Op Value
  | newTable (entries : OrderedMap TableKey Value) : Op Value
  | store (object key value : Value) (span : Span) : Op Unit
  | assign (name : String) (v : Value) (isGlobal : Bool) : Op Unit
  | declare (name : String) (params : List String) (body : Block) : Op Unit
  | echo (message : String) : Op Unit
  | present (r : Request) : Op Bool

/-- What an action does to a machine. -/
def Op.run {α : Type} : Op α → Run α
  | see view => fun m => .ok (view m.heap) m
  | ask span question => Machine.ask span question
  | find name => Machine.lookup? name
  | inFunction => Machine.inFunction
  | debugging => Machine.debugging
  | scopeName => Machine.scopeName
  | title => Machine.titleOrDefault
  | timeout literal => Machine.timeout literal
  | newArray items => Machine.newArray items
  | newTable entries => Machine.newTable entries
  | store object key value span => Machine.store object key value span
  | assign name v isGlobal => Machine.assign name v isGlobal
  | declare name params body => Machine.declare name params body
  | echo message => Machine.echo message
  | present r => Machine.present r

/-! ## Plans -/

/-- A part of a script that is to be evaluated, or a part of a value that is
to be shown inside the objects `enclosing`. -/
inductive Job : Type → Type where
  | expr (e : Expr) : Job Value
  | key (k : Key) : Job Value
  | exprs (es : List Expr) : Job (List Value)
  | entries (map : OrderedMap TableKey Value) (es : List (Expr × Expr)) :
      Job (OrderedMap TableKey Value)
  | parts (span : Span) (ps : List Text.Part) : Job (List Char)
  | shown (enclosing : List Container) (v : Value) : Job String
  | shownItems (enclosing : List Container) (vs : List Value) : Job (List String)
  | shownEntries (enclosing : List Container) (es : List (TableKey × Value)) : Job (List String)
  | params (ps : List Expr) : Job (List String)
  | stmt (s : Stmt) : Job (Ending Outcome)
  | block (b : Block) : Job (Ending (List Outcome))
  | stmts (ss : List Stmt) : Job (Ending (List Outcome))

/-- What the interpreter is to do: actions, parts to evaluate and calls, one
after another. -/
inductive Plan : Type → Type 1 where
  | done {α : Type} (a : α) : Plan α
  | act {α : Type} (op : Op α) : Plan α
  | job {α : Type} (j : Job α) : Plan α
  | call (f : Function) (args : List Value) (site : Span) : Plan Value
  | andThen {α β : Type} (first : Plan β) (next : β → Plan α) : Plan α

namespace Plan

instance : Monad Plan where
  pure := .done
  bind := .andThen

/-- Fails at a span. -/
def fail {α : Type} (fault : Fault) (span : Span) : Plan α := .act (.ask span fun _ => .error fault)

/-- The value of a name, which must have one. -/
def value (name : String) (span : Span) : Plan Value := do
  match ← act (.find name) with
  | some v => return v
  | none => fail (.undefined name) span

/-- The function that a called name stands for. -/
def function (callee : Identifier) : Plan Function := do
  match ← value callee.name callee.span with
  | .function id => act (.see fun h => h.function id)
  | _ => fail (.notFunction callee.name) callee.span

/-- A text with its references replaced. -/
def interpolate (text : String) (span : Span) : Plan String := do
  let filled ← job (.parts span (Text.parts text.toList))
  return String.ofList filled

/-- Adds an entry to a table that is being made. -/
def putEntry (entries : OrderedMap TableKey Value) (key value : Value) (span : Span) :
    Plan (OrderedMap TableKey Value) := do
  let k ← act (.ask span fun _ => Heap.tableKey key)
  return entries.insert k value

/-- What a statement that only did something leaves behind. -/
def did (message : String) : Plan Outcome := do
  act (.echo message)
  return .message message

/-- The text of an expression's value, or a default where there is none. -/
def shownOr (default : Plan String) : Option Expr → Plan String
  | none => default
  | some e => do
    let v ← job (.expr e)
    job (.shown [] v)

end Plan

/-! ## The clauses of the interpreter -/

open Plan

/-- How an expression is evaluated. -/
def Expr.plan : Expr → Plan Value
  | .number literal => return .number literal.value
  | .text value false _ => return .text value
  | .text value true span => do
    let filled ← Plan.interpolate value span
    return .text filled
  | .boolean value _ => return .boolean value
  | .array elements _ => do
    let items ← job (.exprs elements)
    act (.newArray items)
  | .table entries _ => do
    let map ← job (.entries .empty entries)
    act (.newTable map)
  | .name identifier => Plan.value identifier.name identifier.span
  | .access object key _ => do
    let o ← job (.expr object)
    let k ← job (.key key)
    act (.ask key.span fun h => h.get o k)
  | .binary op left right span => do
    let a ← job (.expr left)
    let b ← job (.expr right)
    act (.ask span (op.apply a b))
  | .unary op operand span => do
    let v ← job (.expr operand)
    act (.ask span (op.apply v))
  | .choice condition yes no _ => do
    let v ← job (.expr condition)
    if (← act (.see fun h => h.isTruthy v)) then job (.expr yes) else job (.expr no)
  | .call callee args span => do
    let f ← Plan.function callee
    if f.params.length = args.length then
      let values ← job (.exprs args)
      Plan.call f values span
    else Plan.fail (.argumentCount f.name f.params.length args.length) span

/-- How a message box is asked for. -/
def BoxArguments.plan (args : BoxArguments) (span : Span) : Plan Outcome := do
  let title ← Plan.shownOr (act .title) args.title
  let text ← Plan.shownOr (pure defaultText) args.text
  let timeout ← act (.timeout args.timeout)
  let message :=
    "MsgBox with title: '" ++ title ++ "' and text: '" ++ text ++ "' is being displayed."
  if (← act .debugging) then
    Plan.did message
  else
    let options := boxOptions args.options
    if (← act (.present ⟨title, text, options, timeout⟩)) then
      return .message message
    else
      Plan.fail (.unsupportedBox options) ((args.options.map NumberLiteral.span).getD span)

/-- How a statement is run. -/
def Stmt.plan : Stmt → Plan (Ending Outcome)
  | .assign name value isGlobal _ => do
    let v ← job (.expr value)
    let shown ← job (.shown [] v)
    let scope ← act .scopeName
    act (.assign name.name v isGlobal)
    let outcome ← Plan.did
      ("'" ++ name.name ++ "' inside '" ++ scope ++ "' has been assigned the value '" ++ shown ++
        "'.")
    return .next outcome
  | .store object key value _ => do
    let o ← job (.expr object)
    let k ← job (.key key)
    let v ← job (.expr value)
    let shownKey ← job (.shown [] k)
    let shown ← job (.shown [] v)
    act (.store o k v key.span)
    let outcome ← Plan.did ("Key '" ++ shownKey ++ "' was assigned the value " ++ shown ++ ".")
    return .next outcome
  | .branch condition yes no _ => do
    let v ← job (.expr condition)
    if (← act (.see fun h => h.isTruthy v)) then
      let ending ← job (.block yes)
      return ending.branch
    else
      match no with
      | none => return .next .empty
      | some no =>
        let ending ← job (.block no)
        return ending.branch
  | .declare name params body _ => do
    let names ← job (.params params)
    act (.declare name.name names body)
    let outcome ← Plan.did ("Function with name '" ++ name.name ++ "' has been declared.")
    return .next outcome
  | .give value span => do
    if (← act .inFunction) then
      match value with
      | none => return .give (.text "")
      | some e =>
        let v ← job (.expr e)
        return .give v
    else Plan.fail .returnOutsideFunction span
  | .box args span => do
    let outcome ← args.plan span
    return .next outcome
  | .expr e _ => do
    let v ← job (.expr e)
    return .next (.value v)

/-- How a value is shown inside the objects `enclosing`: an object that is
one of them is not entered again. -/
def Value.shownPlan (enclosing : List Container) : Value → Plan String
  | .number n => return n.render
  | .text s => return s
  | .boolean b => return TableKey.truth b
  | .function id => do
    let f ← act (.see fun h => h.function id)
    return f.name ++ "(" ++ ",".intercalate f.params ++ ")"
  | .array id =>
    if Container.array id ∈ enclosing then return "[...]"
    else do
      let items ← act (.see fun h => h.items id)
      let texts ← job (.shownItems (.array id :: enclosing) items.toList)
      return "[" ++ ",".intercalate texts ++ "]"
  | .table id =>
    if Container.table id ∈ enclosing then return "\x7b...\x7d"
    else do
      let map ← act (.see fun h => h.entries id)
      let texts ← job (.shownEntries (.table id :: enclosing) map.entries)
      return "\x7b" ++ ",".intercalate texts ++ "\x7d"

/-- How a part of a script is evaluated. -/
def Job.plan {α : Type} : Job α → Plan α
  | expr e => e.plan
  | key (.member identifier) => return .text identifier.name
  | key (.index e) => job (.expr e)
  | exprs [] => return []
  | exprs (e :: es) => do
    let v ← job (.expr e)
    let vs ← job (.exprs es)
    return v :: vs
  | entries map [] => return map
  | entries map ((k, e) :: es) => do
    let key ← job (.expr k)
    let v ← job (.expr e)
    let map ← Plan.putEntry map key v k.span
    job (.entries map es)
  | parts _ [] => return []
  | parts span (.char c :: ps) => do
    let rest ← job (.parts span ps)
    return c :: rest
  | parts span (.reference name :: ps) => do
    let v ← Plan.value (String.ofList name) span
    let shown ← job (.shown [] v)
    let rest ← job (.parts span ps)
    return shown.toList ++ rest
  | shown enclosing v => v.shownPlan enclosing
  | shownItems _ [] => return []
  | shownItems enclosing (v :: vs) => do
    let text ← job (.shown enclosing v)
    let texts ← job (.shownItems enclosing vs)
    return text :: texts
  | shownEntries _ [] => return []
  | shownEntries enclosing ((k, v) :: es) => do
    let text ← job (.shown enclosing v)
    let texts ← job (.shownEntries enclosing es)
    return (k.render ++ ":" ++ text) :: texts
  | params [] => return []
  | params (.name identifier :: ps) => do
    let names ← job (.params ps)
    return identifier.name :: names
  | params (p :: _) => Plan.fail .invalidParameter p.span
  | stmt s => s.plan
  | block (.mk statements _) => job (.stmts statements)
  | stmts [] => return .next []
  | stmts (s :: ss) => do
    match ← job (.stmt s) with
    | .give v => return .give v
    | .next outcome =>
      match ← job (.stmts ss) with
      | .give v => return .give v
      | .next outcomes => return .next (outcome :: outcomes)

end HotkeyScript
