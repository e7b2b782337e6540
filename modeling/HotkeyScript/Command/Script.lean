import HotkeyScript.Command.Basic
import HotkeyScript.Dump.Basic
/-!
# Commands — one script

Running a script, and dumping its tokens or its program.
-/

namespace HotkeyScript

namespace Command

/-- Runs the script in a file. -/
def run (s : Surroundings) (file : String) (debug plain : Bool) : Except CommandFault Console := do
  let source ← s.source file
  let settings ← (s.settingsIn (directoryOf file)).mapError (.settings file)
  let settings := { settings with debug := settings.debug || debug }
  let colour := s.colour && !plain && settings.colour
  let (execution, _) := (Session.start file settings Request.isDrawable).execute source.text
  return execution.console colour

/-- Shows a JSON value, or the report of an error. -/
def dump (colour : Bool) : Except Error Json → Console
  | .ok j => ⟨0, j.render ++ "\n", ""⟩
  | .error e => ⟨1, "", paintReport colour e.report⟩

/-- Dumps the tokens of the script in a file. -/
def tokens (s : Surroundings) (file : String) : Except CommandFault Console := do
  let source ← s.source file
  return dump s.colour (source.tokens.map (Dump.tokens .plain))

/-- Dumps the program of the script in a file. -/
def program (s : Surroundings) (file : String) : Except CommandFault Console := do
  let source ← s.source file
  return dump s.colour (source.program.map (Dump.program .plain))

end Command

end HotkeyScript
