/-!
# Decimal — reading floats and integers

The texts a float is read from: an optional sign, then `inf`, `infinity` or
`nan` in any case, or digits with at most one point and at least one digit
beside it, and an optional exponent. Integers are read in a base with an
optional sign.
-/

namespace HotkeyScript.Decimal

/-- The value of a digit in base sixteen; capitals count too. -/
def digit? (c : Char) : Option Nat :=
  if '0' ≤ c ∧ c ≤ '9' then some (c.toNat - '0'.toNat)
  else if 'a' ≤ c ∧ c ≤ 'f' then some (c.toNat - 'a'.toNat + 10)
  else if 'A' ≤ c ∧ c ≤ 'F' then some (c.toNat - 'A'.toNat + 10)
  else none

/-- The natural number that digits in `base` denote after `value`. -/
def accumulate (base : Nat) : Nat → List Char → Option Nat
  | value, [] => some value
  | value, c :: cs =>
    match digit? c with
    | some d => if d < base then accumulate base (value * base + d) cs else none
    | none => none

/-- One or more digits in a base up to sixteen. -/
def natural? (base : Nat) (cs : List Char) : Option Nat :=
  if cs.isEmpty then none else accumulate base 0 cs

/-- Digits in a base, after at most one sign. -/
def integer? (base : Nat) : List Char → Option Int
  | '-' :: cs => (natural? base cs).map fun n => -(n : Int)
  | '+' :: cs => (natural? base cs).map Int.ofNat
  | cs => (natural? base cs).map Int.ofNat

/-- The float nearest to `m * 10 ^ e`. Past the range of floats the answer
is known without computing the power. -/
def ofScaled (m : Nat) (e : Int) : Float :=
  if m = 0 then 0.0 else
    let lead := (Nat.toDigits 10 m).length + e
    if lead > 400 then 1.0 / 0.0
    else if lead < -400 then 0.0
    else Float.ofScientific m (e < 0) e.natAbs

/-- The exponent part: nothing, or `e` and an integer. -/
def exponent? : List Char → Option Int
  | [] => some 0
  | c :: cs => if c = 'e' ∨ c = 'E' then integer? 10 cs else none

/-- A float without its sign. -/
def magnitude? (cs : List Char) : Option Float :=
  let word := (String.ofList cs).toLower
  if word = "inf" ∨ word = "infinity" then some (1.0 / 0.0)
  else if word = "nan" then some (0.0 / 0.0)
  else
    let whole := cs.takeWhile Char.isDigit
    let rest := cs.dropWhile Char.isDigit
    let (part, tail) := match rest with
      | '.' :: ds => (ds.takeWhile Char.isDigit, ds.dropWhile Char.isDigit)
      | ds => ([], ds)
    if whole.isEmpty && part.isEmpty then none else
      match accumulate 10 0 (whole ++ part), exponent? tail with
      | some m, some e => some (ofScaled m (e - part.length))
      | _, _ => none

/-- The float that a text denotes. -/
def float? : List Char → Option Float
  | '-' :: cs => (magnitude? cs).map fun x => -x
  | '+' :: cs => magnitude? cs
  | cs => magnitude? cs

end HotkeyScript.Decimal
