import HotkeyScript.Fault
import HotkeyScript.Number.Basic
/-!
# Numbers — checked arithmetic

Integer operations give the exact result or overflow. Decimal division
gives a float; hexadecimal division truncates toward zero. A hexadecimal
number combines with another hexadecimal number only, and that is checked
first, before a zero divisor.
-/

namespace HotkeyScript

/-- An integer result that has to fit into a word. -/
def checked (n : Int) : Except Fault Int64 :=
  match word? n with
  | some w => .ok w
  | none => .error .overflow

namespace Number

/-- The exact integer result of an operation; division truncates. -/
def exact (op : Arith) (a b : Int) : Int :=
  match op with
  | .add => a + b
  | .sub => a - b
  | .mul => a * b
  | .div => a.tdiv b

/-- The float result of an operation. -/
def approximate (op : Arith) (a b : Float) : Float :=
  match op with
  | .add => a + b
  | .sub => a - b
  | .mul => a * b
  | .div => a / b

/-- `a op b`. -/
def apply (op : Arith) (a b : Number) : Except Fault Number :=
  if a.isHexadecimal != b.isHexadecimal then .error (.mixedHexadecimal op)
  else if op = .div ∧ b.isZero then .error .divisionByZero
  else
    match a, b with
    | hexadecimal m, hexadecimal n => hexadecimal <$> checked (exact op m.toInt n.toInt)
    | decimal m, decimal n =>
      if op = .div then .ok (float (a.toFloat / b.toFloat))
      else decimal <$> checked (exact op m.toInt n.toInt)
    | _, _ => .ok (float (approximate op a.toFloat b.toFloat))

/-- The number with the opposite sign. -/
def negate : Number → Except Fault Number
  | decimal n => decimal <$> checked (-n.toInt)
  | hexadecimal n => hexadecimal <$> checked (-n.toInt)
  | float x => .ok (float (-x))

end Number

end HotkeyScript
