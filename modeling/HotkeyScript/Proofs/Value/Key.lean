import HotkeyScript.Value.Operation
import Mathlib
/-!
# Values — keys of tables

Two values are one key when they are the same integer, however it is written, floats of
one value, the same text or the same truth value (`Value.SameKey`); values of different
kinds never are, and neither are a float and an integer. The keys of tables are compared
so (`TableKey.beq_iff_sameKey`), which is an equivalence although neither zero nor
not-a-number is compared so as a float.

What equality of floats is rests on `Float.beq_iff_ne_nan_and_eq`, which no part of the
library brings along but the whole of it.
-/

namespace HotkeyScript

/-- **The values that are one key of a table.** -/
inductive Value.SameKey : Value → Value → Prop where
  | integer {a b : Number} {n : Int64} : a.integer? = some n → b.integer? = some n →
      SameKey (.number a) (.number b)
  /-- Floats are compared by value, and not-a-number is one key. -/
  | float {x y : Float} : (x == y) = true ∨ x.isNaN = true ∧ y.isNaN = true →
      SameKey (.number (.float x)) (.number (.float y))
  | text (s : String) : SameKey (.text s) (.text s)
  | boolean (b : Bool) : SameKey (.boolean b) (.boolean b)

/-- **The values that are no key**: arrays, tables and functions. -/
inductive Value.Unkeyed : Value → Prop where
  | array (id : ArrayId) : Unkeyed (.array id)
  | table (id : TableId) : Unkeyed (.table id)
  | function (id : FunctionId) : Unkeyed (.function id)

namespace TableKey

theorem ofValue?_eq_none_iff {v : Value} : ofValue? v = none ↔ v.Unkeyed := by
  constructor
  · intro h
    cases v with
    | number n => cases n <;> cases h
    | text | boolean => cases h
    | array id => exact .array id
    | table id => exact .table id
    | function id => exact .function id
  · intro h
    cases h <;> rfl

/-- Every other value is one. -/
theorem exists_ofValue? {v : Value} (h : ¬ v.Unkeyed) : ∃ k, ofValue? v = some k :=
  Option.ne_none_iff_exists'.1 fun hnone => h (ofValue?_eq_none_iff.1 hnone)

instance : EquivBEq TableKey where
  rfl := decide_eq_true rfl
  symm h := decide_eq_true (of_decide_eq_true h).symm
  trans h h' := decide_eq_true ((of_decide_eq_true h).trans (of_decide_eq_true h'))

/-! ## Floats -/

/-- The two ways to write zero. -/
theorem natural_zero_eq : (0 : Float) = 0.0 := by decide +kernel

/-- The floats that equal zero are the two zeros. -/
theorem beq_zero_iff {x : Float} : (x == 0.0) = true ↔ x = 0.0 ∨ x = -0.0 := by
  constructor
  · intro h
    rw [Float.beq_iff_ne_nan_and_eq, natural_zero_eq] at h
    obtain ⟨-, -, hx | ⟨hx, -⟩ | ⟨hx, -⟩⟩ := h
    · exact .inl hx
    · exact .inl hx
    · exact .inr hx
  · rintro (rfl | rfl) <;> decide +kernel

/-- Other floats are equal when they are one float, but for not-a-number. -/
theorem beq_iff_of_ne_zero {x y : Float} (hx : ¬ (x == 0.0) = true) :
    (x == y) = true ↔ x = y ∧ x ≠ Float.nan := by
  rw [beq_zero_iff, not_or] at hx
  rw [Float.beq_iff_ne_nan_and_eq, natural_zero_eq]
  constructor
  · rintro ⟨hnan, -, hxy | ⟨hx', -⟩ | ⟨hx', -⟩⟩
    · exact ⟨hxy, hnan⟩
    · exact absurd hx' hx.1
    · exact absurd hx' hx.2
  · rintro ⟨rfl, hnan⟩
    exact ⟨hnan, hnan, .inl rfl⟩

/-- A zero is equal to the zeros. -/
theorem beq_of_zero {x y : Float} (hx : (x == 0.0) = true) :
    (x == y) = true ↔ (y == 0.0) = true := by
  constructor
  · intro hxy
    rw [Float.beq_iff_ne_nan_and_eq, natural_zero_eq] at hxy
    obtain ⟨-, -, rfl | ⟨-, hy⟩ | ⟨-, hy⟩⟩ := hxy
    · exact hx
    · exact beq_zero_iff.2 (.inr hy)
    · exact beq_zero_iff.2 (.inl hy)
  · intro hy
    rcases beq_zero_iff.1 hx with rfl | rfl <;> rcases beq_zero_iff.1 hy with rfl | rfl <;>
      decide +kernel

/-- A zero is a number. -/
theorem ne_nan_of_zero {x : Float} (hx : (x == 0.0) = true) : x ≠ Float.nan := by
  rcases beq_zero_iff.1 hx with rfl | rfl <;> decide +kernel

/-- **Floats are one key when they are equal** or both are not-a-number. -/
theorem beq_float_iff {x y : Float} :
    (float x == float y) = true ↔ (x == y) = true ∨ x.isNaN = true ∧ y.isNaN = true := by
  have hkey : (float x == float y) = true ↔
      (if x == 0.0 then 0.0 else x) = if y == 0.0 then (0.0 : Float) else y :=
    decide_eq_true_iff.trans ⟨fun h => by injection h, fun h => congrArg float h⟩
  have hself : ((0.0 : Float) == 0.0) = true := by decide +kernel
  rw [hkey, Float.isNaN_eq_decide_eq_nan, Float.isNaN_eq_decide_eq_nan, decide_eq_true_iff,
    decide_eq_true_iff]
  by_cases hx : (x == 0.0) = true
  · have hnan : ¬ (x = Float.nan ∧ y = Float.nan) := fun h => ne_nan_of_zero hx h.1
    rw [if_pos hx, beq_of_zero hx, or_iff_left hnan]
    constructor
    · intro h
      by_contra hy
      rw [if_neg hy] at h
      exact hy (h ▸ hself)
    · intro hy
      rw [if_pos hy]
  · rw [if_neg hx, beq_iff_of_ne_zero hx]
    by_cases hy : (y == 0.0) = true
    · have hne : x ≠ y := fun h => hx (h ▸ hy)
      have hzero : x ≠ 0.0 := fun h => hx (h ▸ hself)
      have hnan : y ≠ Float.nan := ne_nan_of_zero hy
      simp [hy, hne, hzero, hnan]
    · rw [if_neg hy]
      constructor
      · rintro rfl
        by_cases hnan : x = Float.nan
        · exact .inr ⟨hnan, hnan⟩
        · exact .inl ⟨rfl, hnan⟩
      · rintro (⟨rfl, -⟩ | ⟨rfl, rfl⟩) <;> rfl

/-! ## Keys -/

/-- The key that a value stands for, by what the value is. -/
inductive Of : Value → TableKey → Prop where
  | integer {n : Number} {i : Int64} : n.integer? = some i → Of (.number n) (.integer i)
  | float (x : Float) : Of (.number (.float x)) (.float x)
  | text (s : String) : Of (.text s) (.text s)
  | boolean (b : Bool) : Of (.boolean b) (.boolean b)

theorem ofValue?_eq_some_iff {v : Value} {k : TableKey} : ofValue? v = some k ↔ Of v k := by
  constructor
  · intro h
    cases v with
    | number n =>
      cases n with
      | decimal | hexadecimal => cases h; exact .integer rfl
      | float x => cases h; exact .float x
    | text s => cases h; exact .text s
    | boolean b => cases h; exact .boolean b
    | _ => cases h
  · intro h
    cases h with
    | @integer n i hi => cases n <;> cases hi <;> rfl
    | _ => rfl

theorem Of.unique {v : Value} {j k : TableKey} (hj : Of v j) (hk : Of v k) : j = k :=
  Option.some.inj ((ofValue?_eq_some_iff.2 hj).symm.trans (ofValue?_eq_some_iff.2 hk))

/-- **The keys of two values are compared as the values are.** -/
theorem beq_iff_sameKey {a b : Value} {j k : TableKey} (ha : ofValue? a = some j)
    (hb : ofValue? b = some k) : (j == k) = true ↔ a.SameKey b := by
  rw [ofValue?_eq_some_iff] at ha hb
  constructor
  · intro h
    have hcanonical : j.canonical = k.canonical := of_decide_eq_true h
    cases ha with
    | integer hm =>
      cases hb with
      | integer hn => cases hcanonical; exact .integer hm hn
      | _ => cases hcanonical
    | float x =>
      cases hb with
      | float y => exact .float (beq_float_iff.1 h)
      | _ => cases hcanonical
    | text s => cases hb <;> cases hcanonical; exact .text s
    | boolean t => cases hb <;> cases hcanonical; exact .boolean t
  · intro h
    cases h with
    | integer hm hn =>
      rw [ha.unique (.integer hm), hb.unique (.integer hn)]
      exact BEq.rfl
    | @float x y hxy =>
      rw [ha.unique (.float x), hb.unique (.float y)]
      exact beq_float_iff.2 hxy
    | text s =>
      rw [ha.unique (.text s), hb.unique (.text s)]
      exact BEq.rfl
    | boolean t =>
      rw [ha.unique (.boolean t), hb.unique (.boolean t)]
      exact BEq.rfl

end TableKey

end HotkeyScript
