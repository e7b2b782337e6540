import HotkeyScript.Command.Interactive
import HotkeyScript.Command.Invocation
import HotkeyScript.Command.Script
/-!
# The program

Reads the files and the variables that a command needs, and writes what the
command shows. What is shown is decided elsewhere.
-/

namespace HotkeyScript.Main

/-- What is found under a path on disk. -/
def look (path : String) : IO Found := do
  try
    let bytes ← IO.FS.readBinFile path
    return match String.fromUTF8? bytes with
      | some s => .text s
      | none => .unreadable
  catch
    | .noFileOrDirectory .. => return .missing
    | _ => return .unreadable

/-- The surroundings in which some paths can be looked at. -/
def surroundings (paths : List String) : IO Surroundings := do
  let home ← IO.getEnv "HOME"
  let found ← (paths ++ home.toList.map userFile).mapM fun path => do return (path, ← look path)
  let names := ["AHK_DEBUG", "AHK_MAX_CALL_DEPTH", "NO_COLOR", "AHK_HISTORY_FILE", "AHK_NO_HISTORY"]
  let given ← names.mapM fun name => do return (name, ← IO.getEnv name)
  let env := Environment.ofLookup fun name => (given.lookup name).bind id
  let terminal ← (← IO.getStdout).isTty
  let colour := terminal && env.noColour.text?.isNone
  return ⟨fun path => (found.lookup path).getD .missing, env, home, colour⟩

/-- Writes to both consoles. -/
def say (output errors : String) : IO Unit := do
  IO.print output
  (← IO.getStdout).flush
  IO.eprint errors

/-- Writes what a command showed, and gives the status to end with. -/
def finish : Except CommandFault Console → IO UInt32
  | .ok c => do
    say c.output c.errors
    return c.status.toUInt32
  | .error e => do
    IO.eprintln ("Error: " ++ e.message)
    return 1

/-- Feeds lines from standard input to a session until it ends. -/
partial def converse (prompts : Bool) (i : Interactive) : IO Interactive := do
  if prompts then
    IO.print (if i.pending.isEmpty then ">> " else ".. ")
    (← IO.getStdout).flush
  let given ← (← IO.getStdin).getLine
  match Text.lines given.toList with
  | [] =>
    say Interactive.farewell ""
    return i
  | line :: _ =>
    let reply := i.step (String.ofList line)
    say reply.output reply.errors
    match reply.next with
    | some i => converse prompts i
    | none => return i

/-- Adds entries to a history file, each on a line of its own. -/
def remember (h : History) (entries : List String) : IO Unit := do
  match h.path with
  | some path =>
    if !h.off && !entries.isEmpty then
      try
        IO.FS.createDirAll (directoryOf path)
        let file ← IO.FS.Handle.mk path .append
        for entry in entries do file.putStrLn (entry.replace "\n" "\\n")
      catch _ => return
  | none => return

/-- Runs an interactive session. -/
def interactive (debug forget : Bool) : IO UInt32 := do
  let s ← surroundings [inDirectory "." directoryFile]
  match s.settingsIn "." with
  | .error _ =>
    IO.eprintln "Error: the settings could not be loaded"
    return 1
  | .ok settings =>
    let start := Interactive.start { settings with debug := settings.debug || debug } s.colour
    say Interactive.greeting ""
    let last ← converse (← (← IO.getStdin).isTty) start
    let history := History.of s.env s.home
    remember { history with off := history.off || forget } last.entries
    return 0

end HotkeyScript.Main

open HotkeyScript Main in
/-- Does what the command line asks for. -/
def main (words : List String) : IO UInt32 := do
  match Invocation.of? words with
  | none =>
    IO.eprint Invocation.usage
    return 2
  | some (.run file debug plain) =>
    let s ← surroundings [file, inDirectory (directoryOf file) directoryFile]
    finish (Command.run s file debug plain)
  | some (.tokens file) => finish (Command.tokens (← surroundings [file]) file)
  | some (.program file) => finish (Command.program (← surroundings [file]) file)
  | some (.interactive debug forget) => interactive debug forget
