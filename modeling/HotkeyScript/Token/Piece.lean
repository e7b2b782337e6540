import HotkeyScript.Text.Blank
import HotkeyScript.Text.Character
import HotkeyScript.Text.Escape
import HotkeyScript.Token.Kind
/-!
# Tokens — cutting a script into pieces

A script is cut into pieces without loss: each piece carries the text it
was cut from, and `Piece.textOf_cut` says that these texts concatenate to
the script. A gap is text that no token stands for: blanks, a comment after a
`;`, the inside of a block comment. Positions are assigned afterwards, in
`Token.Tokenize`, so that what a token is and where it stands are settled
apart.

One scan takes one character off the rest of the script together with
whatever belongs to it, and the tokens of one scan share the answer to
whether a blank came before.
-/

namespace HotkeyScript

open Text

/-! ## Pieces and faults -/

/-- A stretch of a script. -/
inductive Piece where
  | gap (text : List Char)
  | token (kind : TokenKind) (lexeme : List Char) (text : List Char) (spaced : Bool)
deriving DecidableEq, Inhabited

/-- The text a piece was cut from. -/
def Piece.text : Piece → List Char
  | gap text => text
  | token _ _ text _ => text

/-- The text a row of pieces was cut from. -/
def Piece.textOf (ps : List Piece) : List Char := ps.flatMap Piece.text

@[simp] theorem Piece.textOf_nil : Piece.textOf [] = [] := rfl

@[simp] theorem Piece.textOf_cons (p : Piece) (ps : List Piece) :
    Piece.textOf (p :: ps) = p.text ++ Piece.textOf ps := rfl

@[simp] theorem Piece.textOf_append (ps qs : List Piece) :
    Piece.textOf (ps ++ qs) = Piece.textOf ps ++ Piece.textOf qs := List.flatMap_append

/-- Why a script cannot be cut into tokens. -/
inductive LexicalFault where
  | illegal (c : Char)
  | unclosedString
  | unclosedComment
deriving DecidableEq, Inhabited

/-- The sentence a report ends with. -/
def LexicalFault.message : LexicalFault → String
  | illegal c => "'" ++ String.singleton c ++ "'"
  | unclosedString => "Expected '\"'"
  | unclosedComment => "Expected '*/'"

/-- A fault with the text in front of it and the text it marks. -/
structure Cut where
  fault : LexicalFault
  before : List Char
  marked : List Char
deriving DecidableEq, Inhabited

/-- The same fault seen from further in front. -/
def Cut.shift (cs : List Char) (cut : Cut) : Cut := { cut with before := cs ++ cut.before }

/-! ## Marks and comments -/

/-- What one scan yields: its pieces and the rest of the script. -/
structure Scan where
  pieces : List Piece
  rest : List Char
deriving DecidableEq, Inhabited

namespace Scan

/-- A scan of one token whose lexeme is its text. -/
def plain (kind : TokenKind) (text : List Char) (spaced : Bool) (rest : List Char) : Scan :=
  ⟨[.token kind text text spaced], rest⟩

/-- The tokens of one character. -/
def punctuation? : Char → Option TokenKind
  | '\n' => some .lineEnd
  | '(' => some .leftParen
  | ')' => some .rightParen
  | '[' => some .leftBracket
  | ']' => some .rightBracket
  | '{' => some .leftBrace
  | '}' => some .rightBrace
  | ',' => some .comma
  | '+' => some .plus
  | '-' => some .minus
  | '.' => some .dot
  | '%' => some .percent
  | '?' => some .question
  | _ => none

/-- A comment, from its `;` to the end of the line. -/
def comment (cs : List Char) : Scan := ⟨[.gap (';' :: thisLine cs)], fromLineEnd cs⟩

/-- `*/`, or a `*` alone. -/
def star (spaced : Bool) : List Char → Scan
  | '/' :: cs => plain .closeComment ['*', '/'] spaced cs
  | cs => plain .times ['*'] spaced cs

/-- Whether only white space is left on the line. -/
def restIsWhite (cs : List Char) : Bool := (thisLine cs).all isWhite

/-- Whether `*/` stands here with only white space after it on its line. -/
def closesHere : List Char → Bool
  | '*' :: '/' :: cs => restIsWhite cs
  | _ => false

/-- The inside of a block comment, up to the `*/` that is alone on its
line, and what follows that `*/`. `fresh` holds while only blanks have
been seen on the line. -/
def interior? (fresh : Bool) : List Char → Option (List Char × List Char)
  | [] => none
  | c :: cs =>
    -- `c` is the star of `*/` here, and its slash is the head of `cs`
    if fresh && closesHere (c :: cs) then some ([], cs.tail)
    else (interior? (c == '\n' || (fresh && isBlank c)) cs).map fun r => (c :: r.1, r.2)

/-- A `/`: at the start of a line, and alone on it, `/*` opens a block
comment; elsewhere it is a token of its own. -/
def slash (lineStart spaced : Bool) : List Char → Except Cut Scan
  | '*' :: cs =>
    if lineStart && restIsWhite cs then
      match interior? false cs with
      | some (inside, rest) =>
        .ok ⟨[.token .openComment ['/', '*'] ['/', '*'] spaced, .gap inside,
          .token .closeComment ['*', '/'] ['*', '/'] spaced], rest⟩
      | none => .error ⟨.unclosedComment, '/' :: '*' :: cs, []⟩
    else .ok (plain .openComment ['/', '*'] spaced cs)
  | cs => .ok (plain .divide ['/'] spaced cs)

/-- `:=`, or a `:` that is not the last character of the script. -/
def colon (spaced : Bool) : List Char → Except Cut Scan
  | '=' :: cs => .ok (plain .assign [':', '='] spaced cs)
  | [] => .error ⟨.illegal ':', [], [':']⟩
  | cs => .ok (plain .colon [':'] spaced cs)

/-- A `=` takes the rest of the line as raw text. -/
def equals (spaced : Bool) (cs : List Char) : Scan :=
  ⟨[.token .equals ['='] ['='] spaced,
    .token .raw (unescape (dropReturns (thisLine cs))) (thisLine cs) spaced], fromLineEnd cs⟩

/-! ## Strings and numbers -/

/-- The inside of a quoted string, with `""` read as one quote, then the
text up to and with the closing quote, then what follows. A string does not
go past the end of its line. -/
def string? : List Char → Option (List Char × List Char × List Char)
  | '"' :: '"' :: cs => (string? cs).map fun (value, text, rest) => ('"' :: value, '"' :: '"' :: text, rest)
  | '"' :: cs => some ([], ['"'], cs)
  | c :: cs =>
    if c = '\n' then none
    else (string? cs).map fun (value, text, rest) => (c :: value, c :: text, rest)
  | [] => none

/-- A quoted string; escapes are resolved after the quotes. -/
def quote (spaced : Bool) (cs : List Char) : Except Cut Scan :=
  match string? cs with
  | some (value, text, rest) => .ok ⟨[.token .quoted (unescape value) ('"' :: text) spaced], rest⟩
  | none => .error ⟨.unclosedString, [], '"' :: thisLine cs⟩

/-- What a number literal is so far. -/
inductive Shape where
  | zero
  | integer
  | fraction
  | hexadecimal
deriving DecidableEq, Inhabited

/-- The shape after one more character: a point needs a digit behind it and
none before it, an `x` stands right behind a single zero, and hexadecimal
letters stand behind that `x`. -/
def Shape.next? (shape : Shape) (c : Char) (following : Option Char) : Option Shape :=
  if c.isDigit then some (if shape = .zero then .integer else shape)
  else if c = '.' then
    if (shape = .zero ∨ shape = .integer) ∧ following.any Char.isDigit then some .fraction else none
  else if c = 'x' then (if shape = .zero then some .hexadecimal else none)
  else if shape = .hexadecimal then some .hexadecimal
  else none

/-- The token kind of a finished literal. -/
def Shape.kind : Shape → TokenKind
  | zero | integer => .decimal
  | fraction => .float
  | hexadecimal => .hexadecimal

/-- The rest of a number literal: its final shape, its text and what
follows, or the text up to a character that cannot stand there. -/
def digits (shape : Shape) : List Char → Except (List Char × Char) (Shape × List Char × List Char)
  | [] => .ok (shape, [], [])
  | c :: cs =>
    if isNumberChar c then
      match shape.next? c cs.head? with
      | none => .error ([], c)
      | some shape =>
        match digits shape cs with
        | .ok (final, text, rest) => .ok (final, c :: text, rest)
        | .error (before, d) => .error (c :: before, d)
    else .ok (shape, [], c :: cs)

/-- A number literal that starts with the digit `c`. `0x` alone is refused
at its start, naming the `x`. -/
def number (spaced : Bool) (c : Char) (cs : List Char) : Except Cut Scan :=
  match digits (if c = '0' then .zero else .integer) cs with
  | .error (before, d) => .error ⟨.illegal d, c :: before, [d]⟩
  | .ok (shape, text, rest) =>
    -- an `x` with no digit behind it
    if shape = .hexadecimal ∧ text = ['x'] then .error ⟨.illegal 'x', [], [c]⟩
    else .ok (plain shape.kind (c :: text) spaced rest)

/-! ## Commands and words

A command takes the rest of its line as raw text, unless the line is empty
or a `%` with a gap behind it says that an expression follows. -/

/-- Puts a character in front of the first text of a list. -/
def extendFirst (c : Char) : List (List Char) → List (List Char)
  | [] => [[c]]
  | s :: ss => (c :: s) :: ss

/-- The raw arguments of a command, split at commas, then the comment that
ends them, then what follows. A `;` starts a comment when a gap, or nothing,
is in front of it. -/
def arguments (afterGap : Bool) : List Char → List (List Char) × List Char × List Char
  | [] => ([[]], [], [])
  | c :: cs =>
    if c = '\n' then ([[]], [], c :: cs)
    -- a `;` with other text right in front of it belongs to the argument
    else if c = ';' ∧ afterGap then ([[]], c :: thisLine cs, fromLineEnd cs)
    else if c = ',' then
      let (args, tail, rest) := arguments false cs
      ([] :: args, tail, rest)
    else
      let (args, tail, rest) := arguments (isGap c) cs
      (extendFirst c args, tail, rest)

/-- The pieces of raw arguments, with commas between them. The last one
loses the carriage returns at its end, and its text includes the comment. -/
def argumentPieces (spaced : Bool) (tail : List Char) : List (List Char) → List Piece
  | [] => []
  | [arg] => [.token .raw (unescape (dropReturns arg)) (arg ++ tail) spaced]
  | arg :: args =>
    .token .raw (unescape arg) arg spaced :: .token .comma [','] [','] spaced ::
      argumentPieces spaced tail args

/-- Whether the rest of the line is read as tokens: nothing is there, or a
`%` with a gap after it. -/
def readsExpression : List Char → Bool
  | [] => true
  | '\n' :: _ => true
  | '%' :: c :: _ => isGap c
  | _ => false

/-- The comma that may stand before the first raw argument. -/
def leadingComma (spaced : Bool) : List Char → List Piece
  | ',' :: _ => [.token .comma [','] [','] spaced]
  | _ => []

/-- A line without that comma. -/
def withoutComma : List Char → List Char
  | ',' :: cs => cs
  | cs => cs

/-- What follows a command's name. -/
def afterCommand (spaced : Bool) (cs : List Char) : Scan :=
  let blanks := cs.takeWhile isBlank
  let line := cs.dropWhile isBlank
  if readsExpression line then ⟨[.gap blanks], line⟩
  else
    let (args, tail, rest) := arguments true (withoutComma line)
    ⟨.gap blanks :: leadingComma spaced line ++ argumentPieces spaced tail args, rest⟩

/-- A word: an identifier, a keyword, or a command with its arguments. -/
def word (spaced : Bool) (c : Char) (cs : List Char) : Scan :=
  let name := c :: cs.takeWhile isNameChar
  let rest := cs.dropWhile isNameChar
  let kind := (TokenKind.ofWord? (String.ofList name)).getD .identifier
  if kind = .command then
    let args := afterCommand spaced rest
    ⟨.token kind name name spaced :: args.pieces, args.rest⟩
  else plain kind name spaced rest

/-! ## One scan -/

/-- One scan from a character that is no blank. -/
def next (lineStart spaced : Bool) (c : Char) (cs : List Char) : Except Cut Scan :=
  match punctuation? c with
  | some kind => .ok (plain kind [c] spaced cs)
  | none =>
    if c = ';' then .ok (comment cs)
    else if c = '*' then .ok (star spaced cs)
    else if c = '/' then slash lineStart spaced cs
    else if c = ':' then colon spaced cs
    else if c = '=' then .ok (equals spaced cs)
    else if c = '"' then quote spaced cs
    else if c.isDigit then number spaced c cs
    else if isNameStart c then .ok (word spaced c cs)
    else .ok (plain .unknown [c] spaced cs)

/-- Whether the next token stands first on its line. -/
def startsLine (scan : Scan) (before : Bool) : Bool :=
  scan.pieces.foldl (fun b p => match p with
    | .gap _ => b
    | .token kind _ _ _ => kind == .lineEnd) before

end Scan

end HotkeyScript
