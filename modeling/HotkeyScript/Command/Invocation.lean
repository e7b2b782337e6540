/-!
# Commands — the words on the command line

The first word names the command. Options may stand before or behind the
file.
-/

namespace HotkeyScript

/-- What the command line asks for. -/
inductive Invocation where
  | run (file : String) (debug plain : Bool)
  | tokens (file : String)
  | program (file : String)
  | interactive (debug forget : Bool)
deriving DecidableEq, Inhabited

namespace Invocation

/-- How the program is used. -/
def usage : String :=
  "usage: ahk run FILE [-d|--debug] [--no-color]\n" ++
  "       ahk tokens FILE\n" ++
  "       ahk ast FILE\n" ++
  "       ahk repl [-d|--debug] [--no-history]\n"

/-- Whether a word turns debug mode on. -/
def isDebug (word : String) : Bool := word == "-d" || word == "--debug"

/-- What some words ask for, if it is anything. -/
def of? : List String → Option Invocation
  | [] => none
  | command :: words =>
    let options := words.filter (·.startsWith "-")
    let files := words.filter fun w => !w.startsWith "-"
    let among (known : List String) : Bool := options.all known.contains
    match command, files with
    | "run", [file] | "r", [file] =>
      if among ["-d", "--debug", "--no-color"] then
        some (run file (options.any isDebug) (options.contains "--no-color"))
      else none
    | "tokens", [file] => if options.isEmpty then some (tokens file) else none
    | "ast", [file] => if options.isEmpty then some (program file) else none
    | "repl", [] =>
      if among ["-d", "--debug", "--no-history"] then
        some (interactive (options.any isDebug) (options.contains "--no-history"))
      else none
    | _, _ => none

example : of? ["run", "a.ahk", "-d"] = some (run "a.ahk" true false) := by decide +kernel

end Invocation

end HotkeyScript
