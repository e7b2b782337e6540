import HotkeyScript.Token.Kind
/-!
# Programs — mistakes of grammar

What a reader of tokens can object to. A mistake is reported at the token
where it was noticed, or at the end of the script.
-/

namespace HotkeyScript

/-- The numbers among a message box's raw arguments. -/
inductive BoxNumber where
  | options
  | timeout
deriving DecidableEq, Inhabited

/-- An objection to a row of tokens. -/
inductive Mistake where
  | lineEnd
  | openBrace
  | closeBrace
  | nameAfterGlobal
  | assignment
  | textAfterEquals
  | openParen
  | closeParen
  | notAssignable
  | colon
  | atom
  | emptyBrackets
  | closeBracket
  | commaOrBracket
  | commaOrBrace
  | closeComment
  | numberRange (lexeme : String)
  | tooManyBoxArguments
  | boxNumber (which : BoxNumber)
  | nestedTooDeeply
deriving DecidableEq, Inhabited

/-- The most arguments a message box takes. -/
def maxBoxArguments : Nat := 4

/-- The sentence a report ends with. -/
def Mistake.message : Mistake → String
  | lineEnd => "Expected end of line."
  | openBrace => "Expected '\x7b'."
  | closeBrace => "Expected '\x7d'."
  | nameAfterGlobal => "Expected a variable name after 'global'."
  | assignment => "Expected ':='."
  | textAfterEquals => "Expected text after '='."
  | openParen => "Expected '('."
  | closeParen => "Expected ')'."
  | notAssignable => "Cannot assign this type to anything."
  | colon => "Expected ':'."
  | atom => "Expected int, float, hexadecimal, string, an object or a comment."
  | emptyBrackets => "Expected a key inside '[]'."
  | closeBracket => "Expected ']'."
  | commaOrBracket => "Expected ',' or ']'."
  | commaOrBrace => "Expected ',' or '\x7d'."
  | closeComment => "Expected '*/'."
  | numberRange lexeme => "Number '" ++ lexeme ++ "' is out of range."
  | tooManyBoxArguments => "MsgBox accepts at most " ++ toString maxBoxArguments ++ " arguments."
  | boxNumber .options => "Expected a number for the MsgBox options."
  | boxNumber .timeout => "Expected a number for the MsgBox timeout."
  | nestedTooDeeply => "Expression nested too deeply."

/-- A mistake and the token it was noticed at, which is `none` at the end
of the script. -/
structure Failure where
  mistake : Mistake
  token? : Option Token
deriving DecidableEq, Inhabited

end HotkeyScript
