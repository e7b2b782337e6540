import HotkeyScript.Command.Basic
import HotkeyScript.Session.Entry
/-!
# Commands — the interactive session

The session is fed line by line. Lines gather into an entry until its
braces balance; between entries a line may be a command of the session
itself. A line that is blank between entries is passed over.
-/

namespace HotkeyScript

/-- An interactive session between two lines: the session, the lines of the
entry under way, and the entries that were run. -/
structure Interactive where
  session : Session
  colour : Bool
  pending : List String
  entries : List String

/-- What a line of an interactive session led to: what is shown, and the
session that goes on, unless the line ended it. -/
structure Reply where
  output : String
  errors : String
  next : Option Interactive

namespace Interactive

/-! ## What is shown -/

/-- The version in the greeting. -/
def version : String := "0.1.0"

/-- The lines of a text, each with its line break. -/
def paragraph (lines : List String) : String := String.join (lines.map (· ++ "\n"))

/-- What is shown at the start. -/
def greeting : String :=
  paragraph
    ["AHK v" ++ version ++ " REPL",
      "Type statements or expressions, or :quit to exit",
      "Commands: :quit (or :q), :reset, :help, :vars, :debug",
      ""]

/-- What is shown at the end. -/
def farewell : String := "Goodbye!\n"

/-- What is shown when help is asked for. -/
def help : String :=
  paragraph
    ["AHK REPL Commands:",
      "  :quit, :q         Exit the REPL",
      "  :reset            Clear all variables and functions",
      "  :help, :h         Show this help message",
      "  :vars, :v         List module variables",
      "  :debug            Toggle debug mode",
      "",
      "Lines with an open '\x7b' continue until the braces balance.",
      "Examples:",
      "  >> x := 42",
      "  >> double(n) \x7b",
      "  ..   return n * 2",
      "  .. \x7d",
      "  >> double(x)"]

/-- The names of the module with their values. -/
def listing (s : Session) : String :=
  if s.globals.isEmpty then "No variables defined\n"
  else paragraph (s.globals.bindings.map fun b => b.name ++ " = " ++ s.machine.heap.display b.value)

/-- The session at its start. -/
def start (settings : Settings) (colour : Bool) : Interactive :=
  ⟨.start entryName settings Request.isDrawable, colour, [], []⟩

/-- Something shown, after which the session goes on. -/
def goOn (output : String) (i : Interactive) : Reply := ⟨output, "", some i⟩

/-! ## Lines -/

/-- What a session itself can be told to do. -/
inductive Order where
  | quit
  | reset
  | help
  | bindings
  | debug
deriving DecidableEq

/-- The order in a line, white space around it left out. -/
def Order.of? (line : String) : Option Order :=
  match line with
  | ":quit" | ":q" => some quit
  | ":reset" => some reset
  | ":help" | ":h" => some help
  | ":vars" | ":v" => some bindings
  | ":debug" => some debug
  | _ => none

/-- Does what the session is told. -/
def obey (i : Interactive) : Order → Reply
  | .quit => ⟨farewell, "", none⟩
  | .reset => goOn "REPL state reset\n" { i with session := i.session.reset }
  | .help => goOn help i
  | .bindings => goOn (listing i.session) i
  | .debug =>
    let on := !i.session.machine.settings.debug
    goOn (if on then "Debug mode on\n" else "Debug mode off\n")
      { i with session := i.session.setDebug on }

/-- Runs an entry. Its boxes are shown first, then its echoes, and then its
value or its error. -/
def enter (i : Interactive) (text : String) : Reply :=
  let (entry, session) := i.session.enter text
  let boxes := session.machine.shown.toList.drop i.session.machine.shown.size
  let shown := String.join (boxes.map (Request.draw i.colour)) ++ paragraph entry.echoes
  let i := { i with session, pending := [], entries := i.entries ++ [text] }
  match entry.failure, entry.value with
  | some e, _ => ⟨shown, paintReport i.colour e.report, some i⟩
  | none, some v => goOn (shown ++ session.machine.heap.display v ++ "\n") i
  | none, none => goOn shown i

/-- Adds a line to the entry under way, and runs the entry if the line
completes it. -/
def gather (i : Interactive) (line : String) : Reply :=
  let lines := i.pending ++ [line]
  let text := "\n".intercalate lines
  if Entry.needsMore text then goOn "" { i with pending := lines } else enter i text

/-- What a line leads to. -/
def step (i : Interactive) (line : String) : Reply :=
  if i.pending.isEmpty then
    let bare := Text.trimmed line
    match Order.of? bare with
    | some order => obey i order
    | none => if bare.isEmpty then goOn "" i else gather i line
  else gather i line

/-- What is shown before and after the lines of a session, and between them
what each led to. The session that was reached says which entries were
run. -/
def feed (i : Interactive) : List String → Console × Interactive
  | [] => (⟨0, farewell, ""⟩, i)
  | line :: lines =>
    let reply := i.step line
    match reply.next with
    | none => (⟨0, reply.output, reply.errors⟩, i)
    | some i =>
      let (rest, last) := feed i lines
      (⟨rest.status, reply.output ++ rest.output, reply.errors ++ rest.errors⟩, last)

end Interactive

/-! ## History -/

/-- Where entries are kept from session to session, and whether they are. -/
structure History where
  path : Option String
  off : Bool
deriving DecidableEq, Inhabited

namespace History

/-- The history that the environment asks for: a file of its own, or one in
the user's directory. -/
def of (env : Environment) (home : Option String) : History where
  path := env.historyFile.text?.orElse fun _ => home.map fun h => userDirectory h ++ "/history"
  off := env.noHistory.text?.isSome

/-- Whether there is a history file after a session that ran entries: one
that was there before, or one that was written now. Without entries nothing
is written, but the directories in front of the file are made. -/
def isThereAfter (h : History) (files : Files) (entries : List String) : Bool :=
  match h.path with
  | none => false
  | some path =>
    if h.off then (files.find path).isThere else files.leaves path !entries.isEmpty

end History

namespace Command

/-- Runs an interactive session in the current directory on the lines of a
text. -/
def interactive (s : Surroundings) (input : String) (debug : Bool) :
    Except LoadFault (Console × Interactive) := do
  let settings ← s.settingsIn "."
  let settings := { settings with debug := settings.debug || debug }
  let lines := (Text.lines input.toList).map String.ofList
  let (console, last) := (Interactive.start settings s.colour).feed lines
  return ({ console with output := Interactive.greeting ++ console.output }, last)

end Command

end HotkeyScript
