import HotkeyScript.MessageBox.Request
import HotkeyScript.Scope.Stack
import HotkeyScript.Settings.Basic
import HotkeyScript.Value.Operation
/-!
# The machine

A machine is all that a running program can read and change: the scopes,
the objects, and the record of what it echoed and showed. A step either
gives a value or fails with an error, and a failing step leaves the machine
as it was at the failure.
-/

namespace HotkeyScript

/-! ## What a run leaves behind -/

/-- Something that a watcher of the machine is told. -/
inductive Event where
  | lexed (tokens : Nat) (script : String)
  | parsed (statements : Nat)
  | showing (options : Int64)
  | enter (function : String) (depth : Nat)
  | leave (function : String)
deriving DecidableEq, Inhabited

/-- The line of an event, behind the level it is told at. -/
def Event.line : Event → String
  | lexed tokens script => "DEBUG lexed " ++ toString tokens ++ " tokens from '" ++ script ++ "'"
  | parsed statements => "DEBUG parsed " ++ toString statements ++ " top-level statements"
  | showing options => "DEBUG showing message box with options " ++ toString options.toInt
  | enter function depth => "TRACE enter '" ++ function ++ "' (depth " ++ toString depth ++ ")"
  | leave function => "TRACE leave '" ++ function ++ "'"

/-- What a statement did. -/
inductive Outcome where
  /-- the value of an expression -/
  | value (v : Value)
  /-- an assignment, a declaration or a message box -/
  | message (s : String)
  /-- the outcomes of the branch that was taken -/
  | branch (outcomes : List Outcome)
  /-- no branch was taken -/
  | empty
deriving Inhabited

mutual

/-- The values in an outcome and in the branches inside it, in order. -/
def Outcome.values : Outcome → List Value
  | value v => [v]
  | branch outcomes => Outcome.valuesOf outcomes
  | message _ | empty => []

/-- The values in some outcomes, in order. -/
def Outcome.valuesOf : List Outcome → List Value
  | [] => []
  | o :: os => o.values ++ Outcome.valuesOf os

end

/-! ## The machine and its steps -/

/-- All that a running program can read and change. `accepts` is the answer
of whoever shows message boxes, which depends on the request alone. -/
structure Machine where
  settings : Settings
  accepts : Request → Bool
  stack : CallStack
  heap : Heap := .empty
  /-- what was echoed and not yet taken -/
  echoes : Array String := #[]
  /-- the boxes that were asked for -/
  shown : Array Request := #[]
  journal : Array Event := #[]

/-- A step of a machine. -/
abbrev Run : Type → Type := EStateM Error Machine

namespace Machine

/-- Fails at a span of the script that the innermost scope runs. -/
def fail {α : Type} (fault : Fault) (span : Span) : Run α := fun m =>
  .error ⟨.runtime fault, span, m.stack.frames m.stack.current span.start⟩ m

/-- Gives an answer, or fails at a span. -/
def orFail {α : Type} (span : Span) (answer : Except Fault α) : Run α :=
  match answer with
  | .ok a => pure a
  | .error fault => fail fault span

/-! ## Reading -/

/-- How a value is shown at this moment. -/
def display (v : Value) : Run String := fun m => .ok (m.heap.display v) m

/-- The value of a name as seen from the innermost scope. -/
def lookup? (name : String) : Run (Option Value) := fun m =>
  .ok (m.stack.lookup m.stack.current name) m

/-- The value of a name, which must have one; `span` is where it is used. -/
def lookup (name : String) (span : Span) : Run Value := do
  match ← lookup? name with
  | some v => return v
  | none => fail (.undefined name) span

/-- The function that a called name stands for. -/
def functionOf (callee : Identifier) : Run Function := do
  match ← lookup callee.name callee.span with
  | .function id => fun m => .ok (m.heap.function id) m
  | _ => fail (.notFunction callee.name) callee.span

/-- Whether a value counts as true at this moment. -/
def isTrue (v : Value) : Run Bool := fun m => .ok (m.heap.isTruthy v) m

/-- Whether a call is under way. -/
def inFunction : Run Bool := fun m => .ok (m.stack.current != 0) m

/-- Whether debug mode is on. -/
def debugging : Run Bool := fun m => .ok m.settings.debug m

/-- The greatest number of calls under way at once. -/
def callLimit : Run Nat := fun m => .ok m.settings.maxCallDepth m

/-- The name of the innermost scope. -/
def scopeName : Run String := fun m => .ok (m.stack.scope m.stack.current).name m

/-! ## Changing -/

/-- Makes an array. -/
def newArray (items : List Value) : Run Value := fun m =>
  let (v, heap) := m.heap.newArray items.toArray
  .ok v { m with heap }

/-- Makes a table. -/
def newTable (entries : OrderedMap TableKey Value) : Run Value := fun m =>
  let (v, heap) := m.heap.newTable entries
  .ok v { m with heap }

/-- Gives an object a value at a key, which stands at a span. -/
def store (object key value : Value) (span : Span) : Run Unit := fun m =>
  match m.heap.set object key value with
  | .ok heap => .ok () { m with heap }
  | .error fault => fail fault span m

/-- Assigns a value to a name from the innermost scope. -/
def assign (name : String) (v : Value) (isGlobal : Bool) : Run Unit := fun m =>
  .ok () { m with stack := m.stack.assign m.stack.current name v isGlobal }

/-- Makes a function and gives it its name in the innermost scope. -/
def declare (name : String) (params : List String) (body : Block) : Run Unit := fun m =>
  let source := (m.stack.scope m.stack.current).source
  let (v, heap) := m.heap.newFunction ⟨name, params, body, source⟩
  .ok () { m with heap, stack := m.stack.bind m.stack.current name v }

/-- Tells the watcher. -/
def note (event : Event) : Run Unit := fun m => .ok () { m with journal := m.journal.push event }

/-- Echoes a message in debug mode. -/
def echo (message : String) : Run Unit := fun m =>
  .ok () (if m.settings.debug then { m with echoes := m.echoes.push message } else m)

/-- What a statement that only did something leaves behind: its message,
which debug mode echoes. -/
def did (message : String) : Run Outcome := do
  echo message
  return .message message

/-- Asks for a box to be shown; the answer is whether it could be. -/
def present (r : Request) : Run Bool := fun m =>
  .ok (m.accepts r)
    { m with journal := m.journal.push (.showing r.options), shown := m.shown.push r }

/-! ## Calls -/

/-- Enters a call from the innermost scope, with values for its
parameters. -/
def enter (f : Function) (args : List Value) (entry : Position) : Run Unit := fun m =>
  let stack := m.stack.push f.name m.stack.current entry f.source
  let bound := (f.params.zip args).foldl (fun s a => s.bind s.current a.1 a.2) stack
  .ok () { m with stack := bound, journal := m.journal.push (.enter f.name stack.depth) }

/-- A machine whose innermost call is left. -/
def left (m : Machine) : Machine :=
  match m.stack.calls with
  | [] => m
  | c :: _ => { m with stack := m.stack.pop, journal := m.journal.push (.leave c.scope.name) }

/-- Leaves the innermost call. -/
def leave : Run Unit := fun m => .ok () m.left

/-- A machine with `n` calls left, or all if there are fewer. -/
def unwindBy : Nat → Machine → Machine
  | 0, m => m
  | n + 1, m => unwindBy n m.left

/-- A machine with every call left. -/
def unwind (m : Machine) : Machine := m.unwindBy m.stack.depth

end Machine

end HotkeyScript
