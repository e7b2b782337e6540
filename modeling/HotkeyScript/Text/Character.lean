/-!
# Text — character classes of scripts

Names are ASCII letters, digits and four symbols, and do not start with a
digit. Blanks separate tokens within a line; a carriage return counts as
one, so that both kinds of line break end a line alike.
-/

namespace HotkeyScript.Text

/-- A space, a tab or a carriage return. -/
def isBlank (c : Char) : Bool := c == ' ' || c == '\t' || c == '\r'

/-- A space or a tab: what has to stand before the `;` of a comment that
follows other text. -/
def isGap (c : Char) : Bool := c == ' ' || c == '\t'

/-- The symbols that names may contain. -/
def isNameSymbol (c : Char) : Bool := c == '@' || c == '#' || c == '_' || c == '$'

/-- A character a name may start with. -/
def isNameStart (c : Char) : Bool := c.isAlpha || isNameSymbol c

/-- A character a name may contain. -/
def isNameChar (c : Char) : Bool := c.isAlphanum || isNameSymbol c

/-- A character that belongs to a number literal when it stands in one:
a digit, a hexadecimal letter, the point or the `x`. -/
def isNumberChar (c : Char) : Bool :=
  c.isDigit || ('a' ≤ c && c ≤ 'f') || ('A' ≤ c && c ≤ 'F') || c == '.' || c == 'x'

/-- The text up to the end of the line. -/
def thisLine (cs : List Char) : List Char := cs.takeWhile (· != '\n')

/-- The text from the end of the line on. -/
def fromLineEnd (cs : List Char) : List Char := cs.dropWhile (· != '\n')

/-- A text without the carriage returns at its end. -/
def dropReturns (cs : List Char) : List Char := (cs.reverse.dropWhile (· == '\r')).reverse

/-- Behind the first character that a class does not have, less is left. -/
theorem length_lt_of_dropWhile {p : Char → Bool} {cs rest : List Char} {c : Char}
    (h : cs.dropWhile p = c :: rest) : rest.length < cs.length := by
  have hle := (List.dropWhile_sublist p (l := cs)).length_le
  rw [h, List.length_cons] at hle
  exact hle

end HotkeyScript.Text
