import HotkeyScript.Text.Position
/-!
# Tokens — kinds and tokens

The vocabulary of scripts. A kind has a label, used in dumps, and a phrase,
used where a reader is told what stands there. A token is a kind with its
lexeme, its span and whether a blank came before it.
-/

namespace HotkeyScript

/-- What a token is. -/
inductive TokenKind where
  | identifier
  | decimal
  | hexadecimal
  | float
  | boolean
  | quoted
  /-- raw text: what follows `=`, or an argument of a command -/
  | raw
  | globalWord
  | andWord
  | orWord
  | notWord
  | ifWord
  | elseWord
  | returnWord
  | command
  | assign
  | equals
  | plus
  | minus
  | times
  | divide
  | dot
  | percent
  | question
  | leftParen
  | rightParen
  | leftBracket
  | rightBracket
  | leftBrace
  | rightBrace
  | comma
  | colon
  | openComment
  | closeComment
  | fileStart
  | lineEnd
  | fileEnd
  | unknown
deriving DecidableEq, Inhabited

namespace TokenKind

/-- The label of a kind in dumps. -/
def label : TokenKind → String
  | identifier => "Identifier"
  | decimal => "Decimal"
  | hexadecimal => "Hexadecimal"
  | float => "Float"
  | boolean => "Boolean"
  | quoted => "String"
  | raw => "UnquotedString"
  | globalWord => "Global"
  | andWord => "And"
  | orWord => "Or"
  | notWord => "Not"
  | ifWord => "If"
  | elseWord => "Else"
  | returnWord => "Return"
  | command => "Command"
  | assign => "Assignment"
  | equals => "LegacyAssignment"
  | plus => "Plus"
  | minus => "Minus"
  | times => "Multiply"
  | divide => "Divide"
  | dot => "Dot"
  | percent => "Percent"
  | question => "QuestionMark"
  | leftParen => "LParen"
  | rightParen => "RParen"
  | leftBracket => "LSquare"
  | rightBracket => "RSquare"
  | leftBrace => "LCurve"
  | rightBrace => "RCurve"
  | comma => "Comma"
  | colon => "Colon"
  | openComment => "BlockCommentStart"
  | closeComment => "BlockCommentEnd"
  | fileStart => "Sof"
  | lineEnd => "Eol"
  | fileEnd => "Eof"
  | unknown => "Unknown"

/-- The phrase for a kind. -/
def phrase : TokenKind → String
  | identifier => "identifier"
  | decimal => "integer"
  | hexadecimal => "hexadecimal"
  | float => "float"
  | boolean => "boolean"
  | quoted => "string"
  | raw => "text"
  | globalWord => "global"
  | andWord => "and"
  | orWord => "or"
  | notWord => "not"
  | ifWord => "if"
  | elseWord => "else"
  | returnWord => "return"
  | command => "command"
  | assign => ":="
  | equals => "="
  | plus => "+"
  | minus => "-"
  | times => "*"
  | divide => "/"
  | dot => "."
  | percent => "%"
  | question => "?"
  | leftParen => "("
  | rightParen => ")"
  | leftBracket => "["
  | rightBracket => "]"
  | leftBrace => "\x7b"
  | rightBrace => "\x7d"
  | comma => ","
  | colon => ":"
  | openComment => "/*"
  | closeComment => "*/"
  | fileStart => "start of file"
  | lineEnd => "end of line"
  | fileEnd => "end of file"
  | unknown => "unknown character"

/-- Whether a token of this kind is a number literal. -/
def isNumber : TokenKind → Bool
  | decimal | hexadecimal | float => true
  | _ => false

/-- Whether a token of this kind ends a statement's line. -/
def isLineEnd : TokenKind → Bool
  | lineEnd | fileEnd => true
  | _ => false

/-- The kind of a word that is not an identifier. Words match exactly,
case included. -/
def ofWord? : String → Option TokenKind
  | "global" => some globalWord
  | "and" => some andWord
  | "or" => some orWord
  | "not" => some notWord
  | "if" => some ifWord
  | "else" => some elseWord
  | "return" => some returnWord
  | "true" | "false" => some boolean
  | "MsgBox" => some command
  | _ => none

end TokenKind

/-- A unit of a script. The lexeme of quoted and raw text has its escapes
resolved; every other lexeme is the text at the span. -/
structure Token where
  kind : TokenKind
  lexeme : String
  span : Span
  spaced : Bool
deriving DecidableEq, Inhabited

end HotkeyScript
