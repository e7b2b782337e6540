import HotkeyScript.Decimal.Read
import HotkeyScript.Number.Basic
/-!
# Numbers — reading literals

Number tokens come in three forms. The free text of a command argument
is read more generously: it has to start with a digit, `0x` makes it
hexadecimal and a point makes it a float.
-/

namespace HotkeyScript

/-- How a number literal is written. -/
inductive Form where
  | decimal
  | hexadecimal
  | float
deriving DecidableEq, Inhabited

namespace Number

/-- The number a text denotes in a form; `none` when it is malformed or
an integer does not fit into a word. -/
def read? : Form → List Char → Option Number
  | .decimal, cs => (Decimal.integer? 10 cs).bind fun n => (word? n).map Number.decimal
  | .float, cs => (Decimal.float? cs).map Number.float
  | .hexadecimal, '0' :: 'x' :: cs =>
    (Decimal.integer? 16 cs).bind fun n => (word? n).map Number.hexadecimal
  | .hexadecimal, _ => none

/-- The form that a command argument is read in. -/
def formOf (cs : List Char) : Form :=
  match cs with
  | '0' :: 'x' :: _ => .hexadecimal
  | _ => if cs.contains '.' then .float else .decimal

/-- The number in a command argument, if its text is one. -/
def ofArgument? (cs : List Char) : Option Number :=
  match cs with
  | c :: _ => if c.isDigit then read? (formOf cs) cs else none
  | [] => none

end Number

end HotkeyScript
