/-!
# TOML — writing texts

Of the four ways to write a text the plainest that will do is taken:
between quotation marks when nothing has to be escaped, then between
apostrophes, then between triple marks of either kind, and with escapes
where nothing else will do. A tab alone forces no way on a text.
-/

namespace HotkeyScript.Toml

/-- The greatest number of times a character stands in a row; `run` is how
often it stood just before, and `best` the greatest number so far. -/
def longestRun (mark : Char) (run best : Nat) : List Char → Nat
  | [] => best
  | c :: cs =>
    if c = mark then longestRun mark (run + 1) (max best (run + 1)) cs
    else longestRun mark 0 best cs

/-- What matters about a text for how it can be written. -/
structure Traits where
  /-- a control character other than a tab or a line feed -/
  control : Bool
  backslash : Bool
  lineFeed : Bool
  /-- the most quotation marks in a row -/
  quotes : Nat
  /-- the most apostrophes in a row -/
  apostrophes : Nat

/-- A control character that only an escape can stand for. -/
def isControl (c : Char) : Bool :=
  c != '\t' && c != '\n' && (c.toNat < 0x20 || c.toNat == 0x7F)

/-- What matters about a text. -/
def Traits.of (cs : List Char) : Traits where
  control := cs.any isControl
  backslash := cs.contains '\\'
  lineFeed := cs.contains '\n'
  quotes := longestRun '"' 0 0 cs
  apostrophes := longestRun '\x27' 0 0 cs

/-! ## Choosing a way -/

/-- A way to write a text. -/
inductive Way where
  | basic
  | literal
  | longBasic
  | longLiteral
deriving DecidableEq, Inhabited

/-- The way to write a text. -/
def Traits.way (t : Traits) : Way :=
  if !t.control && !t.backslash && t.quotes == 0 && !t.lineFeed then .basic
  else if !t.control && t.apostrophes == 0 && !t.lineFeed then .literal
  else if !t.control && !t.backslash && t.quotes ≤ 2 then .longBasic
  else if !t.control && t.apostrophes ≤ 2 then .longLiteral
  else if t.lineFeed then .longBasic
  else .basic

/-! ## Writing -/

/-- A control character by its code: `\u` and four digits. -/
def code (c : Char) : List Char :=
  let digits := (Nat.toDigits 16 c.toNat).map Char.toUpper
  ['\\', 'u'] ++ List.replicate (4 - digits.length) '0' ++ digits

/-- A text with escapes, in which `allowed` quotation marks may stand in a
row; `run` have just been written. Line feeds are escaped unless `long`. -/
def escape (long : Bool) (allowed : Nat) (run : Nat) : List Char → List Char
  | [] => []
  | '"' :: cs =>
    if run < allowed then '"' :: escape long allowed (run + 1) cs
    else '\\' :: '"' :: escape long allowed 0 cs
  | c :: cs =>
    let written := match c with
      | '\x08' => ['\\', 'b']
      | '\t' => ['\\', 't']
      | '\n' => if long then ['\n'] else ['\\', 'n']
      | '\x0c' => ['\\', 'f']
      | '\r' => ['\\', 'r']
      | '\\' => ['\\', '\\']
      | c => if isControl c then code c else [c]
    written ++ escape long allowed 0 cs

/-- A text between the marks of a way. Between triple marks a text with a
line feed begins on a line of its own. -/
def write (s : String) : String :=
  let cs := s.toList
  let t := Traits.of cs
  let start := if t.lineFeed then "\n" else ""
  match t.way with
  | .basic => "\"" ++ String.ofList (escape false 0 0 cs) ++ "\""
  | .literal => "'" ++ s ++ "'"
  | .longBasic => "\"\"\"" ++ start ++ String.ofList (escape true 2 0 cs) ++ "\"\"\""
  | .longLiteral => "'''" ++ start ++ s ++ "'''"

end HotkeyScript.Toml
