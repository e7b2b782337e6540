import HotkeyScript.Text.Source
/-!
# Terminal — making text stand out

Emphasis is a pair of escape sequences around a text. Where colours are off
a text stays as it is.
-/

namespace HotkeyScript

/-- The ways to make a text stand out. -/
inductive Emphasis where
  | bold
  /-- bold and red -/
  | alarm
deriving DecidableEq, Inhabited

/-- The sequence that starts an emphasis. -/
def Emphasis.begin : Emphasis → String
  | bold => "\x1b[1m"
  | alarm => "\x1b[1;31m"

/-- The sequence that ends every emphasis. -/
def Emphasis.reset : String := "\x1b[0m"

/-- A text with an emphasis. Where the text itself ends every emphasis, this
one starts again. -/
def paint (colour : Bool) (e : Emphasis) (s : String) : String :=
  if colour then e.begin ++ s.replace Emphasis.reset (Emphasis.reset ++ e.begin) ++ Emphasis.reset
  else s

/-- The lines of a report with their emphasis: the last line is an alarm,
and a heading before it is bold. -/
def paintLines (colour : Bool) : List String → List String
  | [] => []
  | [last] => [paint colour .alarm last]
  | line :: lines =>
    (if line.startsWith "Traceback" then paint colour .bold line else line) ::
      paintLines colour lines

/-- A report as a terminal shows it. -/
def paintReport (colour : Bool) (report : String) : String :=
  let lines := (Text.lines report.toList).map String.ofList
  String.join ((paintLines colour lines).map (· ++ "\n"))

end HotkeyScript
