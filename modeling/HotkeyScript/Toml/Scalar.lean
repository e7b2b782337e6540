import HotkeyScript.Decimal.Read
import HotkeyScript.Toml.Value
/-!
# TOML — numbers, dates and booleans

Digits may be parted by single underscores. A decimal integer or the whole
part of a float has no needless zero in front, and no integer leaves the
range of a 64-bit word. A date needs a day that its month has.
-/

namespace HotkeyScript.Toml

/-! ## Integers -/

/-- Digits, an underscore between two of them left out. -/
def moreDigits (isDigit : Char → Bool) : List Char → List Char × List Char
  | [] => ([], [])
  | '_' :: d :: cs =>
    if isDigit d then
      let (ds, rest) := moreDigits isDigit cs
      (d :: ds, rest)
    else ([], '_' :: d :: cs)
  | d :: cs =>
    if isDigit d then
      let (ds, rest) := moreDigits isDigit cs
      (d :: ds, rest)
    else ([], d :: cs)

/-- One or more digits. -/
def digits (isDigit : Char → Bool) : Read (List Char)
  | [] => none
  | d :: cs =>
    if isDigit d then
      let (ds, rest) := moreDigits isDigit cs
      some (d :: ds, rest)
    else none

/-- A digit in base sixteen. -/
def isHexDigit (c : Char) : Bool := (Decimal.digit? c).isSome

/-- A sign, which may be missing. -/
def sign : List Char → List Char × List Char
  | '+' :: cs => ([], cs)
  | '-' :: cs => (['-'], cs)
  | cs => ([], cs)

/-- A decimal integer as text, its plus sign and underscores left out. After
a zero in front no digit is read. -/
def decimalText : Read (List Char) := fun cs =>
  let (s, cs) := sign cs
  match cs with
  | '0' :: rest => some (s ++ ['0'], rest)
  | cs => (digits Char.isDigit cs).map fun r => (s ++ r.1, r.2)

/-- An integer, if it fits into a word. -/
def word (base : Nat) (digits rest : List Char) : Option (Value × List Char) := do
  let n ← Decimal.integer? base digits
  if Int64.minValue.toInt ≤ n ∧ n ≤ Int64.maxValue.toInt then return (.integer n, rest) else none

/-- An integer. -/
def integer : Read Value
  | '0' :: 'x' :: cs => (digits isHexDigit cs).bind fun r => word 16 r.1 r.2
  | '0' :: 'o' :: cs => (digits (fun c => '0' ≤ c && c ≤ '7') cs).bind fun r => word 8 r.1 r.2
  | '0' :: 'b' :: cs => (digits (fun c => c == '0' || c == '1') cs).bind fun r => word 2 r.1 r.2
  | cs => (decimalText cs).bind fun r => word 10 r.1 r.2

/-! ## Floats -/

/-- A point and digits. -/
def fraction : Read (List Char)
  | '.' :: cs => (digits Char.isDigit cs).map fun r => ('.' :: r.1, r.2)
  | _ => none

/-- An exponent. -/
def exponent : Read (List Char)
  | 'e' :: cs | 'E' :: cs =>
    let (s, cs) := sign cs
    (digits Char.isDigit cs).map fun r => ('e' :: s ++ r.1, r.2)
  | _ => none

/-- A float of digits. One past the range of floats is refused. -/
def finiteFloat : Read Value := fun cs => do
  let (whole, cs) ← decimalText cs
  let (tail, cs) ← match fraction cs with
    | none => exponent cs
    | some (part, cs) =>
      match exponent cs with
      | none => some (part, cs)
      | some (power, cs) => some (part ++ power, cs)
  let x ← Decimal.float? (whole ++ tail)
  if x == 1.0 / 0.0 then none else return (.float x, cs)

/-- An infinity or not-a-number. -/
def specialFloat : Read Value := fun cs =>
  let (s, rest) := sign cs
  match rest with
  | 'i' :: 'n' :: 'f' :: rest => some (.float (if s.isEmpty then 1.0 / 0.0 else -1.0 / 0.0), rest)
  | 'n' :: 'a' :: 'n' :: rest => some (.float (0.0 / 0.0), rest)
  | _ => none

/-! ## Dates and times -/

/-- The number that two digits denote. -/
def pair (a b : Char) : Option Nat := Decimal.natural? 10 [a, b]

/-- The number of days in a month. -/
def daysIn (year month : Nat) : Nat :=
  if month = 2 then
    if year % 4 = 0 ∧ (year % 100 ≠ 0 ∨ year % 400 = 0) then 29 else 28
  else if month = 4 ∨ month = 6 ∨ month = 9 ∨ month = 11 then 30 else 31

/-- A date: year, month and day. -/
def date : List Char → Option (List Char)
  | a :: b :: c :: d :: '-' :: e :: f :: '-' :: g :: h :: rest => do
    let year ← Decimal.natural? 10 [a, b, c, d]
    let month ← pair e f
    let day ← pair g h
    if 1 ≤ month ∧ month ≤ 12 ∧ 1 ≤ day ∧ day ≤ daysIn year month then return rest else none
  | _ => none

/-- The text behind a fraction of a second, if there is one in front. -/
def skipFraction (cs : List Char) : List Char :=
  match cs with
  | '.' :: d :: rest => if d.isDigit then rest.dropWhile Char.isDigit else cs
  | _ => cs

/-- A time of day; a minute may have a leap second. -/
def time : List Char → Option (List Char)
  | a :: b :: ':' :: c :: d :: ':' :: e :: f :: rest => do
    let hour ← pair a b
    let minute ← pair c d
    let second ← pair e f
    if hour ≤ 23 ∧ minute ≤ 59 ∧ second ≤ 60 then return skipFraction rest else none
  | _ => none

/-- The text behind an offset from universal time, if there is one. -/
def skipOffset (cs : List Char) : Option (List Char) :=
  match cs with
  | 'Z' :: rest | 'z' :: rest => some rest
  | s :: a :: b :: ':' :: c :: d :: rest =>
    if s = '+' ∨ s = '-' then do
      let hour ← pair a b
      let minute ← pair c d
      if hour ≤ 23 ∧ minute ≤ 59 then return rest else none
    else some cs
  | cs => some cs

/-- The text behind a date, with a time behind it or not, or behind a
time. -/
def momentEnd (cs : List Char) : Option (List Char) :=
  match date cs with
  | some (c :: rest) =>
    if c = 'T' ∨ c = 't' ∨ c = ' ' then
      match time rest with
      | some rest => skipOffset rest
      | none => some (c :: rest)
    else some (c :: rest)
  | some [] => some []
  | none => time cs

/-- A date, a time, or both. -/
def moment : Read Value := fun cs =>
  (momentEnd cs).map fun rest =>
    (.moment (String.ofList (cs.take (cs.length - rest.length))), rest)

/-! ## All scalars -/

/-- A truth value. -/
def boolean : Read Value
  | 't' :: 'r' :: 'u' :: 'e' :: rest => some (.boolean true, rest)
  | 'f' :: 'a' :: 'l' :: 's' :: 'e' :: rest => some (.boolean false, rest)
  | _ => none

/-- A value that is no text and holds no other values. -/
def scalar : Read Value := fun cs =>
  boolean cs <|> moment cs <|> finiteFloat cs <|> integer cs <|> specialFloat cs

end HotkeyScript.Toml
