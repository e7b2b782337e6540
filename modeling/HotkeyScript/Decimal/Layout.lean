import HotkeyScript.Decimal.Shortest
/-!
# Decimal — laying out a float's digits

A layout says when a float is written positionally, whether an integral
value keeps `.0`, and which way a tie between digits goes. The exponent
form has a point only when there is more than one digit.
-/

namespace HotkeyScript.Decimal

/-- How a float is written. `plain e` says whether a value whose leading
digit has weight `10 ^ e` is written positionally. -/
structure Layout where
  plain : Int → Bool
  pointZero : Bool
  tie : Tie

/-- Whether the sign bit is set, which it is for `-0.0` too. -/
def isNegative (x : Float) : Bool := x.toBits >>> 63 == 1

/-- Neither an infinity nor not-a-number. -/
def isFinite (x : Float) : Bool := (x.toBits >>> 52) &&& 0x7FF != 0x7FF

/-- That many zeros. -/
def zeros (n : Nat) : String := String.ofList (List.replicate n '0')

/-- A decimal without its sign. -/
def Layout.scaled (layout : Layout) (d : Scaled) : String :=
  let ds := Nat.toDigits 10 d.digits
  let lead : Int := if d.digits = 0 then 0 else (ds.length : Int) + d.exponent - 1
  if layout.plain lead then
    if d.exponent ≥ 0 then
      String.ofList ds ++ zeros d.exponent.toNat ++ (if layout.pointZero then ".0" else "")
    else if lead ≥ 0 then
      String.ofList (ds.take (lead.toNat + 1)) ++ "." ++ String.ofList (ds.drop (lead.toNat + 1))
    else
      "0." ++ zeros (-lead - 1).toNat ++ String.ofList ds
  else
    let tail := ds.drop 1
    String.ofList (ds.take 1) ++ (if tail.isEmpty then "" else "." ++ String.ofList tail) ++
      "e" ++ toString lead

/-- The text of a float: its sign, then `inf` or its shortest digits; `NaN`
has no sign. -/
def Layout.render (layout : Layout) (x : Float) : String :=
  if isFinite x then
    let body := layout.scaled ((Binary.ofBits x.toBits).shortest layout.tie)
    if isNegative x then "-" ++ body else body
  else if x.isNaN then "NaN"
  else if isNegative x then "-inf" else "inf"

/-- A script's float: positional from `0.0001` up to below `10 ^ 16`, always
with a point there, and of two equally near texts the larger. -/
def script : Layout := ⟨fun e => -4 ≤ e && e < 16, true, .up⟩

/-- A duration: always positional, with no point after a whole number. -/
def duration : Layout := ⟨fun _ => true, false, .up⟩

/-- A float in a JSON text: positional from `0.00001` up to below `10 ^ 16`,
and of two equally near texts the one whose last digit is even. -/
def json : Layout := ⟨fun e => -5 ≤ e && e < 16, true, .even⟩

example : script.render 0.1 = "0.1" := by decide +kernel
example : script.render 10000000000000000.0 = "1e16" := by decide +kernel
example : script.render (-0.00001) = "-1e-5" := by decide +kernel
example : duration.render 150.0 = "150" := by decide +kernel

end HotkeyScript.Decimal
