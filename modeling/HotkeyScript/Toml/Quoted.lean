import HotkeyScript.Decimal.Read
import HotkeyScript.Toml.Value
/-!
# TOML — quoted texts

There are four ways to write a text: between single or triple quotation
marks, with escapes, and between single or triple apostrophes, without. A
text between triple marks may have line breaks, and may end in up to two
marks of its kind.
-/

namespace HotkeyScript.Toml

/-- The character whose code has these hexadecimal digits. -/
def charOfCode? (digits : List Char) : Option Char := do
  let n ← Decimal.natural? 16 digits
  if h : n.isValidChar then return Char.ofNatAux n h
  else none

/-- Puts a character in front of what is read. -/
def push (c : Char) (read : Option (List Char × List Char)) : Option (List Char × List Char) :=
  read.map fun r => (c :: r.1, r.2)

/-- The character for a one-letter escape. -/
def escaped? : Char → Option Char
  | 'b' => some '\x08'
  | 't' => some '\t'
  | 'n' => some '\n'
  | 'f' => some '\x0c'
  | 'r' => some '\r'
  | '"' => some '"'
  | '\\' => some '\\'
  | _ => none

/-- The rest of a text between quotation marks. -/
def basicRest : Read (List Char)
  | [] => none
  | '"' :: cs => some ([], cs)
  | '\\' :: 'u' :: a :: b :: c :: d :: cs => do
    let code ← charOfCode? [a, b, c, d]
    push code (basicRest cs)
  | '\\' :: 'U' :: a :: b :: c :: d :: e :: f :: g :: h :: cs => do
    let code ← charOfCode? [a, b, c, d, e, f, g, h]
    push code (basicRest cs)
  | '\\' :: e :: cs => do
    let c ← escaped? e
    push c (basicRest cs)
  | c :: cs => if isPlain c ∧ c ≠ '\\' then push c (basicRest cs) else none

/-- The rest of a text between apostrophes. -/
def literalRest : Read (List Char)
  | [] => none
  | '\x27' :: cs => some ([], cs)
  | c :: cs => if isPlain c then push c (literalRest cs) else none

/-- The rest of a text between triple quotation marks. A backslash at the end
of a line joins it with the next text; `joining` says that such a backslash
was read and no other text since. -/
def longBasicRest (joining : Bool) : Read (List Char)
  | [] => none
  | '"' :: '"' :: '"' :: '"' :: '"' :: cs => some (['"', '"'], cs)
  | '"' :: '"' :: '"' :: '"' :: cs => some (['"'], cs)
  | '"' :: '"' :: '"' :: cs => some ([], cs)
  | '\r' :: '\n' :: cs =>
    if joining then longBasicRest true cs else push '\n' (longBasicRest false cs)
  | '\\' :: 'u' :: a :: b :: c :: d :: cs => do
    let code ← charOfCode? [a, b, c, d]
    push code (longBasicRest false cs)
  | '\\' :: 'U' :: a :: b :: c :: d :: e :: f :: g :: h :: cs => do
    let code ← charOfCode? [a, b, c, d, e, f, g, h]
    push code (longBasicRest false cs)
  | '\\' :: e :: cs =>
    if (lineBreak? (skipGap (e :: cs))).isSome then longBasicRest true (e :: cs)
    else do
      let c ← escaped? e
      push c (longBasicRest false cs)
  | c :: cs =>
    if joining ∧ (isGap c ∨ c = '\n') then longBasicRest true cs
    else if (isPlain c ∨ c = '\n') ∧ c ≠ '\\' then push c (longBasicRest false cs)
    else none

/-- The rest of a text between triple apostrophes. -/
def longLiteralRest : Read (List Char)
  | [] => none
  | '\x27' :: '\x27' :: '\x27' :: '\x27' :: '\x27' :: cs => some (['\x27', '\x27'], cs)
  | '\x27' :: '\x27' :: '\x27' :: '\x27' :: cs => some (['\x27'], cs)
  | '\x27' :: '\x27' :: '\x27' :: cs => some ([], cs)
  | '\r' :: '\n' :: cs => push '\n' (longLiteralRest cs)
  | c :: cs => if isPlain c ∨ c = '\n' then push c (longLiteralRest cs) else none

/-- A text on one line. -/
def shortText : Read String
  | '"' :: cs => (basicRest cs).map fun r => (String.ofList r.1, r.2)
  | '\x27' :: cs => (literalRest cs).map fun r => (String.ofList r.1, r.2)
  | _ => none

/-- A text in any of the four ways. A line break right behind the opening
triple marks does not count. -/
def text : Read String
  | '"' :: '"' :: '"' :: cs =>
    (longBasicRest false ((lineBreak? cs).getD cs)).map fun r => (String.ofList r.1, r.2)
  | '\x27' :: '\x27' :: '\x27' :: cs =>
    (longLiteralRest ((lineBreak? cs).getD cs)).map fun r => (String.ofList r.1, r.2)
  | cs => shortText cs

end HotkeyScript.Toml
