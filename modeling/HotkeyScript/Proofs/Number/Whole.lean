import HotkeyScript.Number.Basic
import Mathlib.Algebra.Order.Field.Rat
import Mathlib.Data.Nat.Cast.Field
/-!
# Numbers — the rational numbers that floats are

A float that is neither an infinity nor not-a-number is a rational number, its mantissa
times a power of two (`Decimal.rational?`). `Number.whole?` finds the integer among
these, whatever the exponent (`Number.whole?_eq_some_iff`), and `word?` the integers that
fit into a word (`word?_eq_some_iff`).
-/

namespace HotkeyScript

namespace Decimal

/-- The magnitude of a finite binary value. -/
def Binary.magnitude (b : Binary) : Rat := b.mantissa * 2 ^ b.exponent

/-- The rational number that a float is, unless it is an infinity or not-a-number. -/
def rational? (x : Float) : Option Rat :=
  if isFinite x then
    let magnitude := (Binary.ofBits x.toBits).magnitude
    some (if isNegative x then -magnitude else magnitude)
  else none

/-- A magnitude is a fraction of naturals: one of the two powers is of exponent zero. -/
theorem Binary.magnitude_eq (b : Binary) :
    b.magnitude =
      (b.mantissa * Nat.pow 2 b.exponent.toNat : Nat) / (Nat.pow 2 (-b.exponent).toNat : Nat) := by
  have hpow (n : Nat) : ((Nat.pow 2 n : Nat) : Rat) = 2 ^ n := Nat.cast_pow 2 n
  rw [magnitude, Nat.cast_mul, hpow, hpow]
  rcases Int.le_total 0 b.exponent with hpos | hneg
  · obtain ⟨n, hn⟩ := Int.eq_ofNat_of_zero_le hpos
    have hzero : (-b.exponent).toNat = 0 := by omega
    have hexp : b.exponent.toNat = n := by omega
    rw [hzero, hexp, hn, pow_zero, div_one]
    exact congrArg _ (Rat.zpow_natCast 2 n)
  · obtain ⟨n, hn⟩ := Int.eq_ofNat_of_zero_le (Int.neg_nonneg_of_nonpos hneg)
    have hzero : b.exponent.toNat = 0 := by omega
    have hexp : (-b.exponent).toNat = n := by omega
    have hbexp : b.exponent = -(n : Int) := by omega
    rw [hzero, hexp, hbexp, pow_zero, mul_one, Rat.zpow_neg, Rat.zpow_natCast, Rat.div_def]

end Decimal

/-! ## Whole floats -/

/-- A fraction of naturals is an integer when the denominator divides, and then it is
the quotient. -/
theorem natCast_div_eq_intCast_iff {a u : Nat} (hu : u ≠ 0) (n : Int) :
    (a : Rat) / u = n ↔ a % u = 0 ∧ ((a / u : Nat) : Int) = n := by
  have hu' : (u : Rat) ≠ 0 := Nat.cast_ne_zero.2 hu
  constructor
  · intro h
    have hmul : (a : Int) = n * u := by
      have := (div_eq_iff hu').1 h
      exact_mod_cast this
    have hdvd : u ∣ a := Int.natCast_dvd_natCast.1 ⟨n, by rw [hmul, Int.mul_comm]⟩
    refine ⟨Nat.mod_eq_zero_of_dvd hdvd, ?_⟩
    rw [Int.natCast_ediv, hmul]
    exact Int.mul_ediv_cancel n (Int.natCast_ne_zero.2 hu)
  · rintro ⟨hmod, rfl⟩
    rw [Int.cast_natCast, Nat.cast_div (Nat.dvd_of_mod_eq_zero hmod) hu']

/-- **The integer of a float is the rational number that it is.** -/
theorem Number.whole?_eq_some_iff {x : Float} {n : Int} :
    Number.whole? x = some n ↔ Decimal.rational? x = some (n : Rat) := by
  unfold whole? Decimal.rational?
  by_cases hf : Decimal.isFinite x = true
  · rw [if_pos hf, if_pos hf]
    dsimp only
    have hpos : Nat.pow 2 (-(Decimal.Binary.ofBits x.toBits).exponent).toNat ≠ 0 :=
      (Nat.pow_pos (by decide)).ne'
    rw [Decimal.Binary.magnitude_eq]
    generalize (Decimal.Binary.ofBits x.toBits).mantissa *
      Nat.pow 2 (Decimal.Binary.ofBits x.toBits).exponent.toNat = a at *
    generalize Nat.pow 2 (-(Decimal.Binary.ofBits x.toBits).exponent).toNat = u at *
    have hneg : -((a : Rat) / u) = n ↔ (a : Rat) / u = ((-n : Int) : Rat) := by
      rw [Int.cast_neg, neg_eq_iff_eq_neg]
    split
    next hmod =>
      split
      · rw [Option.some.injEq, Option.some.injEq, hneg, natCast_div_eq_intCast_iff hpos]
        omega
      · rw [Option.some.injEq, Option.some.injEq, natCast_div_eq_intCast_iff hpos]
        omega
    next hmod =>
      split
      · rw [Option.some.injEq, hneg, natCast_div_eq_intCast_iff hpos]
        simp [hmod]
      · rw [Option.some.injEq, natCast_div_eq_intCast_iff hpos]
        simp [hmod]
  · simp [hf]

/-! ## Words -/

/-- **An integer fits into a word or it does not.** -/
theorem word?_eq_some_iff {n : Int} {w : Int64} : word? n = some w ↔ w.toInt = n := by
  unfold word?
  have hmin : Int64.minValue.toInt = -2 ^ 63 := rfl
  have hmax : Int64.maxValue.toInt = 2 ^ 63 - 1 := rfl
  split
  next h =>
    have hto : (Int64.ofInt n).toInt = n := Int64.toInt_ofInt_of_le (by omega) (by omega)
    rw [Option.some.injEq]
    exact ⟨fun hw => hw ▸ hto, fun hw => hw ▸ Int64.ofInt_toInt w⟩
  next h =>
    have hrange := And.intro w.minValue_le_toInt w.toInt_le
    constructor
    · intro hw
      cases hw
    · intro hw
      exact absurd (hw ▸ hrange) h

theorem word?_eq_none_iff {n : Int} :
    word? n = none ↔ ¬ (Int64.minValue.toInt ≤ n ∧ n ≤ Int64.maxValue.toInt) := by
  unfold word?
  split <;> simp_all

end HotkeyScript
