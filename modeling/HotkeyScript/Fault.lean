import HotkeyScript.Value.Kind
/-!
# Faults

What can go wrong while a program runs, independent of where. The wording
of each is in `Fault.message`.
-/

namespace HotkeyScript

/-- A cause of failure at run time. -/
inductive Fault where
  | divisionByZero
  /-- a hexadecimal number met a number of another kind -/
  | mixedHexadecimal (op : Arith)
  | concatenation
  | mismatch (op : Arith) (left right : Kind)
  | signedNonNumber (sign : Sign) (found : Kind)
  | overflow
  | undefined (name : String)
  | notObject (shown : String)
  | keyNotFound (shown : String)
  | invalidKey (found : Kind)
  | indexOutOfRange
  | invalidIndex
  | notFunction (name : String)
  | argumentCount (name : String) (expected given : Nat)
  | invalidParameter
  | returnOutsideFunction
  | callDepth (limit : Nat)
  | unsupportedBox (options : Int64)
deriving DecidableEq, Inhabited

/-- The sentence a report ends with. -/
def Fault.message : Fault → String
  | divisionByZero => "Division by zero not allowed."
  | mixedHexadecimal op => "Invalid Hexadecimal " ++ op.noun
  | concatenation =>
    "Invalid String concatenation. A string can only be concatenated with another string."
  | mismatch op left right =>
    "Illegal operation: cannot apply '" ++ op.symbol ++ "' to " ++ left.name ++ " and " ++
      right.name ++ "."
  | signedNonNumber sign found =>
    "Unary '" ++ sign.symbol ++ "' expects a number, found " ++ found.name ++ "."
  | overflow => "Integer overflow."
  | undefined name => "'" ++ name ++ "' is not defined."
  | notObject shown => shown ++ " is not an object."
  | keyNotFound shown => "Key '" ++ shown ++ "' not found in object."
  | invalidKey found => found.name ++ " cannot be used as an object key."
  | indexOutOfRange => "Index out of range."
  | invalidIndex => "Expected an integer for an array index."
  | notFunction name => "'" ++ name ++ "' is not a function."
  | argumentCount name expected given =>
    "Parameter mismatch: '" ++ name ++ "' expects " ++ toString expected ++
      " argument(s) but " ++ toString given ++ " were given."
  | invalidParameter => "Function parameters must be plain identifiers."
  | returnOutsideFunction => "'return' is only allowed inside a function."
  | callDepth limit => "Maximum call depth of " ++ toString limit ++ " exceeded."
  | unsupportedBox options => "Unsupported MsgBox option " ++ toString options.toInt ++ "."

end HotkeyScript
