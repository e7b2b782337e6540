import HotkeyScript.Machine.Execute
/-!
# Sessions

A session runs one text after another on one machine, so that names and
objects live on from text to text. A text that cannot be read leaves no
trace on the machine but what its watcher was told. There are three ways to
run a text: `run` gives the outcome of every statement, `eval` the last
value, and `execute` what a console is to show.
-/

namespace HotkeyScript

/-- A machine between two texts, and the name its texts go by. -/
structure Session where
  name : String
  machine : Machine

/-- One thing for a console to show: a message box, or a line. -/
inductive Output where
  | box (r : Request)
  | line (s : String)
deriving DecidableEq, Inhabited

/-- What running a text gave a console to show, and the error that stopped
it, if one did. -/
structure Execution where
  output : List Output
  failure : Option Error
deriving DecidableEq, Inhabited

/-- The text for the error console. -/
def Execution.report (x : Execution) : String := (x.failure.map Error.report).getD ""

/-- The status a program ends with: one when an error stopped it. -/
def Execution.status (x : Execution) : Nat := if x.failure.isSome then 1 else 0

/-- Something shown before the rest. -/
def Execution.after (shown : List Output) (x : Execution) : Execution :=
  { x with output := shown ++ x.output }

namespace Session

/-- The session in which nothing was run. -/
def start (name : String) (settings : Settings) (accepts : Request → Bool) : Session where
  name
  machine := { settings, accepts, stack := .start ⟨name, ""⟩ }

/-- Turns debug mode on or off. -/
def setDebug (s : Session) (on : Bool) : Session :=
  { s with machine := { s.machine with settings := { s.machine.settings with debug := on } } }

/-- Forgets all names and objects, and what was echoed and not taken. -/
def reset (s : Session) : Session :=
  { s with machine := { s.machine with
      stack := .start s.machine.stack.module.source
      heap := .empty
      echoes := #[] } }

/-- The names of the module. -/
def globals (s : Session) : SymbolTable := s.machine.stack.module.symbols

/-- What was echoed since it was last taken. -/
def takeEchoes (s : Session) : List String × Session :=
  (s.machine.echoes.toList, { s with machine := { s.machine with echoes := #[] } })

/-- Tells the watcher. -/
def note (s : Session) (event : Event) : Session :=
  { s with machine := { s.machine with journal := s.machine.journal.push event } }

/-! ## Three ways to run a text -/

/-- Reads a text and makes it the script of the module. -/
def load (s : Session) (text : String) : Except Error Program × Session :=
  let source : Source := ⟨s.name, text⟩
  match source.tokens with
  | .error e => (.error e, s)
  | .ok tokens =>
    let s := s.note (.lexed tokens.length s.name)
    match source.programOf tokens with
    | .error e => (.error e, s)
    | .ok program =>
      -- only a text that could be read becomes the script of the module
      let s := s.note (.parsed program.statements.length)
      (.ok program, { s with machine := { s.machine with stack := s.machine.stack.setSource source } })

/-- Runs a text and gives the outcome of each of its statements. -/
def run (s : Session) (text : String) : Except Error (List Outcome) × Session :=
  match s.load text with
  | (.error e, s) => (.error e, s)
  | (.ok program, s) =>
    match Machine.executeAll program.statements s.machine with
    | .ok outcomes machine => (.ok outcomes, { s with machine })
    | .error e machine => (.error e, { s with machine })

/-- Runs a text and gives the last value it came to, if there was one. -/
def eval (s : Session) (text : String) : Except Error (Option Value) × Session :=
  match s.run text with
  | (.ok outcomes, s) => (.ok (Outcome.valuesOf outcomes).getLast?, s)
  | (.error e, s) => (.error e, s)

/-- The values of an outcome as debug mode shows them. -/
def valueLines (m : Machine) (outcome : Outcome) : List Output :=
  if m.settings.debug then outcome.values.map fun v => .line (m.heap.display v) else []

/-- What one statement showed on its way from one machine to another: the
boxes, and the echoes, which are thereby taken. -/
def statementOutput (before after : Machine) : List Output :=
  (after.shown.toList.drop before.shown.size).map .box ++ after.echoes.toList.map .line

/-- Runs statements as `execute` does. -/
def executeFrom (m : Machine) : List Stmt → Execution × Machine
  | [] => (⟨[], none⟩, m)
  | stmt :: stmts =>
    match Machine.execute stmt m with
    | .error e m' => (⟨statementOutput m m', some e⟩, { m' with echoes := #[] })
    | .ok outcome m' =>
      let shown := statementOutput m m' ++ valueLines m' outcome
      let (rest, last) := executeFrom { m' with echoes := #[] } stmts
      (rest.after shown, last)

/-- Runs a text and gives what a console is to show, statement by
statement. -/
def execute (s : Session) (text : String) : Execution × Session :=
  match s.load text with
  | (.error e, s) => (⟨[], some e⟩, s)
  | (.ok program, s) =>
    let (execution, machine) := executeFrom s.machine program.statements
    (execution, { s with machine })

end Session

/-- Runs a text by itself with the settings that nothing has changed but
debug mode. Its boxes are not drawn. -/
def runScript (text name : String) (debug : Bool) : Execution :=
  let settings : Settings := { debug }
  (((Session.start name settings fun r => (Style.decode? r.options).isSome).execute text)).1

end HotkeyScript
