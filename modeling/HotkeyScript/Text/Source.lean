import HotkeyScript.Text.Blank
/-!
# Text — scripts and their lines

A source is a script's name with its text. A line ends with a line feed;
a carriage return just before the line feed belongs to the break and not
to the line, so a text read with either kind of break has the same lines.
-/

namespace HotkeyScript

namespace Text

/-- The lines of a text, without their breaks. What follows the last
break is a line only when it is not empty. -/
def lines : List Char → List (List Char)
  | [] => []
  | '\n' :: cs => [] :: lines cs
  | '\r' :: '\n' :: cs => [] :: lines cs
  | c :: cs =>
    match lines cs with
    | [] => [[c]]
    | l :: ls => (c :: l) :: ls

end Text

/-- A script: the name shown in reports, and its text. -/
structure Source where
  name : String
  text : String
deriving DecidableEq, Inhabited

/-- The line of that number, counted from one, without the white space
around it; empty where there is no such line. -/
def Source.lineText (source : Source) (line : Nat) : String :=
  match line with
  | 0 => ""
  | n + 1 => String.ofList (Text.trim ((Text.lines source.text.toList)[n]?.getD []))

end HotkeyScript
