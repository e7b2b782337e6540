import HotkeyScript.MessageBox.Drawing
import HotkeyScript.Session.Basic
import HotkeyScript.Settings.Document
/-!
# Commands — what they need and what they show

A command is given the surroundings it runs in, and answers with what it
writes to the two consoles and the status it ends with.
-/

namespace HotkeyScript

/-- The surroundings of a command: the files, the environment, the home
directory if there is one, and whether the terminal shows colours. -/
structure Surroundings where
  look : String → Found
  env : Environment
  home : Option String
  colour : Bool

/-- What a command shows, and the status it ends with. -/
structure Console where
  status : Nat
  output : String
  errors : String
deriving DecidableEq, Inhabited

/-- Why a command could not do its work. -/
inductive CommandFault where
  | source (file : String)
  | settings (file : String) (fault : LoadFault)
deriving DecidableEq, Inhabited

/-- The sentence for a command that could not do its work. -/
def CommandFault.message : CommandFault → String
  | source file => "Failed to read source file: " ++ file
  | settings file _ => "Failed to load configuration for " ++ file

namespace Surroundings

/-- What the user's settings file holds. -/
def userSettings (s : Surroundings) : Found :=
  match s.home with
  | some home => s.look (userFile home)
  | none => .missing

/-- The settings in effect in a directory. -/
def settingsIn (s : Surroundings) (directory : String) : Except LoadFault Settings :=
  Settings.load s.userSettings (s.look (inDirectory directory directoryFile)) s.env

/-- The source in a file. -/
def source (s : Surroundings) (file : String) : Except CommandFault Source :=
  match (s.look file).text? with
  | some text => .ok ⟨file, text⟩
  | none => .error (.source file)

end Surroundings

/-- A message box as the terminal shows it; one whose options mean nothing is
not shown. -/
def Request.draw (colour : Bool) (r : Request) : String :=
  match Style.decode? r.options with
  | some style => Drawing.draw colour r style
  | none => ""

/-- Whether the terminal shows a message box. -/
def Request.isDrawable (r : Request) : Bool := (Style.decode? r.options).isSome

/-- A thing to show as the terminal shows it. -/
def Output.render (colour : Bool) : Output → String
  | box r => r.draw colour
  | line s => s ++ "\n"

/-- What a script showed. -/
def Execution.console (colour : Bool) (x : Execution) : Console where
  status := x.status
  output := String.join (x.output.map (Output.render colour))
  errors := paintReport colour x.report

end HotkeyScript
