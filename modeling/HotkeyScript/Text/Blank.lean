/-!
# Text — white space

`isWhite` is the Unicode property White_Space: twenty-five characters,
six of them in ASCII. Trimming removes them from both ends of a text.
Which characters separate tokens is a narrower question, answered by
`isBlank`.
-/

namespace HotkeyScript.Text

/-- The Unicode property White_Space. -/
def isWhite (c : Char) : Bool :=
  let n := c.toNat
  (0x9 ≤ n && n ≤ 0xD) || n == 0x20 || n == 0x85 || n == 0xA0 || n == 0x1680 ||
  (0x2000 ≤ n && n ≤ 0x200A) || n == 0x2028 || n == 0x2029 || n == 0x202F ||
  n == 0x205F || n == 0x3000

/-- A text without the white space at its end. -/
def trimEnd (cs : List Char) : List Char := (cs.reverse.dropWhile isWhite).reverse

/-- A text without the white space at either end. -/
def trim (cs : List Char) : List Char := trimEnd (cs.dropWhile isWhite)

/-- `trim` on strings. -/
def trimmed (s : String) : String := String.ofList (trim s.toList)

end HotkeyScript.Text
