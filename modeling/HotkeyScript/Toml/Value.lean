/-!
# TOML — values

A TOML value, and tables as lists of keys with values.
-/

namespace HotkeyScript.Toml

/-- A value. Of a date or a time only the text is kept. -/
inductive Value where
  | text (s : String)
  | integer (n : Int)
  | float (x : Float)
  | boolean (b : Bool)
  | moment (s : String)
  | array (items : List Value)
  | table (entries : List (String × Value))
deriving Inhabited

/-- The entries of a table, each key once. -/
abbrev Table : Type := List (String × Value)

/-- A way to read the front of a text: what was read, and what is left. -/
abbrev Read (α : Type) : Type := List Char → Option (α × List Char)

/-- A space or a tab. -/
def isGap (c : Char) : Bool := c == ' ' || c == '\t'

/-- The text behind the spaces and tabs in front. -/
def skipGap (cs : List Char) : List Char := cs.dropWhile isGap

/-- A character that comments and quoted texts may hold: a tab, or any that
is no control character. -/
def isPlain (c : Char) : Bool := c == '\t' || (c.toNat ≥ 0x20 && c.toNat != 0x7F)

/-- The text behind a line break in front. -/
def lineBreak? : List Char → Option (List Char)
  | '\n' :: cs => some cs
  | '\r' :: '\n' :: cs => some cs
  | _ => none

end HotkeyScript.Toml
