/-!
# Value — kinds and operators

The six kinds of values with their names, and the operators with the words
that reports use for them.
-/

namespace HotkeyScript

/-- What a value is. -/
inductive Kind where
  | number
  | text
  | boolean
  | array
  | table
  | function
deriving DecidableEq, Inhabited

/-- The name of a kind in reports. -/
def Kind.name : Kind → String
  | .number => "number"
  | .text => "string"
  | .boolean => "boolean"
  | .array => "array"
  | .table => "associative array"
  | .function => "function"

/-- The four operations on numbers. -/
inductive Arith where
  | add
  | sub
  | mul
  | div
deriving DecidableEq, Inhabited

/-- How an operation is written. -/
def Arith.symbol : Arith → String
  | .add => "+"
  | .sub => "-"
  | .mul => "*"
  | .div => "/"

/-- What an operation is called. -/
def Arith.noun : Arith → String
  | .add => "addition"
  | .sub => "subtraction"
  | .mul => "multiplication"
  | .div => "division"

/-- The two signs that stand before a number. -/
inductive Sign where
  | plus
  | minus
deriving DecidableEq, Inhabited

/-- How a sign is written. -/
def Sign.symbol : Sign → String
  | .plus => "+"
  | .minus => "-"

end HotkeyScript
