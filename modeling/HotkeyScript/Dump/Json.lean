import HotkeyScript.Decimal.Layout
/-!
# Dumps — JSON texts

A JSON value and its text over several lines, two spaces to a level. A
float that is not finite has no JSON text and is written as `null`.
-/

namespace HotkeyScript

/-- A JSON value; an object's fields are in the order they are written. -/
inductive Json where
  | null
  | boolean (b : Bool)
  | integer (n : Int)
  | float (x : Float)
  | text (s : String)
  | array (items : List Json)
  | object (fields : List (String × Json))
deriving Inhabited

namespace Json

/-- A value, or `null` where there is none. -/
def ofOption {α : Type} (f : α → Json) : Option α → Json
  | none => null
  | some a => f a

/-- A character below the space by its code: `\u` and four digits. -/
def escapeCode (c : Char) : String :=
  let digits := Nat.toDigits 16 c.toNat
  "\\u" ++ String.ofList (List.replicate (4 - digits.length) '0' ++ digits)

/-- A character inside quotes. -/
def escape (c : Char) : String :=
  match c with
  | '"' => "\\\""
  | '\\' => "\\\\"
  | '\x08' => "\\b"
  | '\x0c' => "\\f"
  | '\n' => "\\n"
  | '\r' => "\\r"
  | '\t' => "\\t"
  | c => if c.toNat < 0x20 then escapeCode c else c.toString

/-- A text between quotes. -/
def quote (s : String) : String := "\"" ++ String.join (s.toList.map escape) ++ "\""

/-- A new line at a level. -/
def newLine (level : Nat) : String := "\n" ++ String.ofList (List.replicate (2 * level) ' ')

/-- Items between brackets, each on a line of its own. -/
def bracketed (opening closing : String) (level : Nat) (items : List String) : String :=
  if items.isEmpty then opening ++ closing
  else
    opening ++ ",".intercalate (items.map (newLine (level + 1) ++ ·)) ++ newLine level ++ closing

mutual

/-- The text of a value that begins at a level. -/
def renderAt (level : Nat) : Json → String
  | null => "null"
  | boolean b => if b then "true" else "false"
  | integer n => toString n
  | float x => if Decimal.isFinite x then Decimal.json.render x else "null"
  | text s => quote s
  | array items => bracketed "[" "]" level (renderItems (level + 1) items)
  | object fields => bracketed "\x7b" "\x7d" level (renderFields (level + 1) fields)

/-- The texts of an array's items. -/
def renderItems (level : Nat) : List Json → List String
  | [] => []
  | j :: js => renderAt level j :: renderItems level js

/-- The texts of an object's fields. -/
def renderFields (level : Nat) : List (String × Json) → List String
  | [] => []
  | (name, j) :: fields => (quote name ++ ": " ++ renderAt level j) :: renderFields level fields

end

/-- The text of a value. -/
def render (j : Json) : String := renderAt 0 j

example : (array [integer 1, object [("a", null)], array []]).render =
    "[\n  1,\n  \x7b\n    \"a\": null\n  \x7d,\n  []\n]" := by decide +kernel

end Json

end HotkeyScript
