import HotkeyScript.Decimal.Layout
import HotkeyScript.MessageBox.Request
import HotkeyScript.Terminal.Paint
/-!
# Message boxes — drawing

A box is drawn as a frame of line characters with the title above a rule,
then the text, an empty row, the buttons, and the timeout if there is one.
All rows are padded to the widest, counted in characters.
-/

namespace HotkeyScript

/-- The sign for an icon. -/
def Icon.sign : Icon → String
  | hand => "(x)"
  | question => "(?)"
  | exclamation => "(!)"
  | asterisk => "(i)"

namespace Drawing

/-- The rows of a text: it is cut at every line feed, so there is at least
one row. -/
def rows : List Char → List (List Char)
  | [] => [[]]
  | c :: cs =>
    if c = '\n' then [] :: rows cs
    else
      match rows cs with
      | [] => [[c]]
      | r :: rs => (c :: r) :: rs

/-- The rows of a text beside an icon, which stands in the first row. -/
def textRows (icon : Option Icon) (text : String) : List String :=
  let lines := (rows text.toList).map String.ofList
  match icon, lines with
  | none, lines => lines
  | some _, [] => []
  | some icon, first :: rest => (icon.sign ++ " " ++ first) :: rest.map ("    " ++ ·)

/-- The labels of buttons counted from `i`, the default one in brackets. -/
def buttons (default : Nat) : Nat → List String → List String
  | _, [] => []
  | i, label :: labels =>
    (if i = default then "[" ++ label ++ "]" else " " ++ label ++ " ") ::
      buttons default (i + 1) labels

/-- The row that tells when a box closes. -/
def timeoutRows : Option Float → List String
  | none => []
  | some seconds => ["(closes after " ++ Decimal.duration.render seconds ++ "s)"]

/-- The rows below the rule. -/
def body (r : Request) (s : Style) : List String :=
  textRows s.icon r.text ++ ["", " ".intercalate (buttons s.default 0 s.buttons.labels)] ++
    timeoutRows r.timeout

/-- The number of characters in the longest of some rows. -/
def width (rows : List String) : Nat := (rows.map String.length).foldr max 0

/-- A row filled up with spaces to a width. -/
def pad (width : Nat) (row : String) : String :=
  row ++ String.ofList (List.replicate (width - row.length) ' ')

/-- A horizontal line of the frame between two corners. -/
def line (left right : Char) (width : Nat) : String :=
  String.ofList (left :: List.replicate (width + 2) '─' ++ [right, '\n'])

/-- A row between the sides of the frame. -/
def framed (row : String) : String := "│ " ++ row ++ " │\n"

/-- A box as text, its title bold where colours are on. -/
def draw (colour : Bool) (r : Request) (s : Style) : String :=
  let body := body r s
  let width := width (r.title :: body)
  line '┌' '┐' width ++ framed (paint colour .bold (pad width r.title)) ++ line '├' '┤' width ++
    String.join (body.map fun row => framed (pad width row)) ++ line '└' '┘' width

end Drawing

end HotkeyScript
