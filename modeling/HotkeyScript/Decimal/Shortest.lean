/-!
# Decimal — the fewest digits that read back

A finite binary64 value is m · 2^q. The reals that round to it form an
interval, and `Binary.readsBack` decides in exact arithmetic whether a
decimal lies in it. `Binary.shortest` takes the coarsest grid 10^g on which
one of the value's two neighbours reads back, and of two such neighbours
the nearer one; a tie goes as the caller says.
-/

namespace HotkeyScript.Decimal

/-! ## Values and decimals -/

/-- A finite binary64 value without its sign, `mantissa * 2 ^ exponent`.
`narrow` holds when the gap to the value below is half the gap above. -/
structure Binary where
  mantissa : Nat
  exponent : Int
  narrow : Bool
deriving DecidableEq

/-- The magnitude that the bits of a finite value encode. -/
def Binary.ofBits (bits : UInt64) : Binary :=
  let e := ((bits >>> 52) &&& 0x7FF).toNat
  let f := (bits &&& 0xFFFFFFFFFFFFF).toNat
  if e = 0 then ⟨f, -1074, false⟩ else ⟨0x10000000000000 + f, (e : Int) - 1075, f = 0 && e > 1⟩

/-- The decimal `digits * 10 ^ exponent`. -/
structure Scaled where
  digits : Nat
  exponent : Int
deriving DecidableEq

/-! ## Grids -/

/-- Which of two equally near decimals is taken. -/
inductive Tie where
  | even
  | up

/-- Compares `a * 10 ^ i` with `n * 2 ^ j`, exactly. -/
def compareScaled (a : Nat) (i : Int) (n : Nat) (j : Int) : Ordering :=
  compare (a * Nat.pow 10 i.toNat * Nat.pow 2 (-j).toNat)
    (n * Nat.pow 2 j.toNat * Nat.pow 10 (-i).toNat)

/-- Whether `d` is among the reals that round to `x`: between the halfway
points to its neighbours, ends included when the mantissa is even. -/
def Binary.readsBack (x : Binary) (d : Scaled) : Bool :=
  -- in quarters of the last place, so that both halfway points are integers
  let low := if x.narrow then 4 * x.mantissa - 1 else 4 * x.mantissa - 2
  let high := 4 * x.mantissa + 2
  let closed := x.mantissa % 2 == 0
  let fromLow := compareScaled d.digits d.exponent low (x.exponent - 2)
  let fromHigh := compareScaled d.digits d.exponent high (x.exponent - 2)
  (fromLow == .gt || (closed && fromLow == .eq)) && (fromHigh == .lt || (closed && fromHigh == .eq))

/-- The least `k` with `x < 10 ^ k`, for a value other than zero: an
estimate from the binary logarithm, corrected by exact comparison. -/
def Binary.scale (x : Binary) : Int :=
  let estimate := ((Nat.log2 x.mantissa : Int) + x.exponent) * 30103 / 100000
  let candidates := [estimate - 1, estimate, estimate + 1, estimate + 2]
  (candidates.find? fun k => compareScaled 1 k x.mantissa x.exponent == .gt).getD (estimate + 3)

/-- The neighbour below on the grid `10 ^ g`, in units of the grid. -/
def Binary.below (x : Binary) (g : Int) : Nat :=
  x.mantissa * Nat.pow 2 x.exponent.toNat * Nat.pow 10 (-g).toNat /
    (Nat.pow 2 (-x.exponent).toNat * Nat.pow 10 g.toNat)

/-- The neighbour on the grid `10 ^ g` that reads back; of two the nearer. -/
def Binary.onGrid? (x : Binary) (tie : Tie) (g : Int) : Option Scaled :=
  let low := x.below g
  match x.readsBack ⟨low, g⟩, x.readsBack ⟨low + 1, g⟩ with
  | false, false => none
  | true, false => some ⟨low, g⟩
  | false, true => some ⟨low + 1, g⟩
  | true, true =>
    -- the midpoint of the two neighbours against the value, both doubled
    match compareScaled (2 * low + 1) g (2 * x.mantissa) x.exponent, tie with
    | .gt, _ => some ⟨low, g⟩
    | .lt, _ => some ⟨low + 1, g⟩
    | .eq, .up => some ⟨low + 1, g⟩
    | .eq, .even => some ⟨if low % 2 = 0 then low else low + 1, g⟩

/-- The value written out in full, which always reads back. -/
def Binary.exact (x : Binary) : Scaled :=
  ⟨x.mantissa * Nat.pow 2 x.exponent.toNat * Nat.pow 5 (-x.exponent).toNat,
    if x.exponent < 0 then x.exponent else 0⟩

/-- Moves factors of ten from the digits to the exponent, at most `n`. -/
def Scaled.strip : Nat → Scaled → Scaled
  | 0, d => d
  | n + 1, d => if d.digits ≠ 0 ∧ d.digits % 10 = 0 then strip n ⟨d.digits / 10, d.exponent + 1⟩ else d

/-- The shortest decimal that reads back as `x`, without trailing zeros.
Seventeen digits suffice for every finite value other than zero. -/
def Binary.shortest (x : Binary) (tie : Tie) : Scaled :=
  if x.mantissa = 0 then ⟨0, 0⟩ else
    let k := x.scale
    let found := (List.range 17).findSome? fun n => x.onGrid? tie (k - (n + 1 : Nat))
    let d := found.getD x.exact
    d.strip (Nat.log2 d.digits + 1)

end HotkeyScript.Decimal
