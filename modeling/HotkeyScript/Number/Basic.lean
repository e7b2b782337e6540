import HotkeyScript.Decimal.Layout
/-!
# Numbers

A number is a 64-bit integer written in decimal, one written in
hexadecimal, or a float. The two integer kinds never mix in arithmetic, but
as keys and indices they denote the same integer.
-/

namespace HotkeyScript

/-- A number and the way it is written. -/
inductive Number where
  | decimal (n : Int64)
  | hexadecimal (n : Int64)
  | float (x : Float)
deriving DecidableEq, Inhabited

/-- An integer as a word, when it fits into one. -/
def word? (n : Int) : Option Int64 :=
  if Int64.minValue.toInt ≤ n ∧ n ≤ Int64.maxValue.toInt then some (Int64.ofInt n) else none

namespace Number

/-- Equality as the language has it: the same kind and the same payload,
where a float compares by value, so that `0.0` equals `-0.0` and
not-a-number equals nothing. -/
instance : BEq Number where
  beq
    | decimal a, decimal b => a == b
    | hexadecimal a, hexadecimal b => a == b
    | float a, float b => a == b
    | _, _ => false

/-- The number as a float, the nearest one for an integer. -/
def toFloat : Number → Float
  | decimal n | hexadecimal n => Float.ofInt n.toInt
  | float x => x

/-- The integer of a number that is not a float. -/
def integer? : Number → Option Int64
  | decimal n | hexadecimal n => some n
  | float _ => none

/-- The integer a float is equal to, if there is one. -/
def whole? (x : Float) : Option Int :=
  if Decimal.isFinite x then
    let b := Decimal.Binary.ofBits x.toBits
    let unit := Nat.pow 2 (-b.exponent).toNat
    let scaled := b.mantissa * Nat.pow 2 b.exponent.toNat
    if scaled % unit = 0 then
      some (if Decimal.isNegative x then -(scaled / unit : Nat) else (scaled / unit : Nat))
    else none
  else none

/-- The integer that a number denotes as an index: a float qualifies when it
is whole and fits into a word. -/
def index? : Number → Option Int64
  | decimal n | hexadecimal n => some n
  | float x => (whole? x).bind word?

/-- Whether a number is zero, of either sign. -/
def isZero : Number → Bool
  | decimal n | hexadecimal n => n == 0
  | float x => x == 0.0

/-- Whether a number is written in hexadecimal. -/
def isHexadecimal : Number → Bool
  | hexadecimal _ => true
  | _ => false

/-- How a number is shown. A negative hexadecimal number has its sign in
front of the `0x`. -/
def render : Number → String
  | decimal n => toString n.toInt
  | hexadecimal n =>
    let digits := String.ofList (Nat.toDigits 16 n.toInt.natAbs)
    if n.toInt < 0 then "-0x" ++ digits else "0x" ++ digits
  | float x => Decimal.script.render x

end Number

end HotkeyScript
