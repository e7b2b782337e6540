import HotkeyScript.Proofs.Number.Whole
import HotkeyScript.Value.Operation
/-!
# Numbers — integers are exact or overflow

The result of an integer operation is the integer that arithmetic says it is
(`Arith.Yields`), where division leaves over less than the divisor, with the sign of the
dividend. The number of that integer is given where it fits into a word, and otherwise
the operation overflows (`Radix.gives_iff`); of the quotients only one does not fit
(`Arith.Yields.fits_quotient_iff`). A hexadecimal operand beside one of another kind is
refused before anything else is looked at, and so are values that are no numbers
(`checked_arithmetic`).
-/

namespace HotkeyScript

/-! ## Exact results -/

/-- **The exact result of an operation on integers.** A quotient is the one toward
zero: what it leaves over is less than the divisor and has the sign of the dividend. -/
inductive Arith.Yields : Arith → Int → Int → Int → Prop where
  | sum (a b : Int) : Yields .add a b (a + b)
  | difference (a b : Int) : Yields .sub a b (a - b)
  | product (a b : Int) : Yields .mul a b (a * b)
  | quotient {a b q r : Int} : r + b * q = a → r.natAbs < b.natAbs →
      (0 ≤ a → 0 ≤ r) → (a ≤ 0 → r ≤ 0) → Yields .div a b q

/-- The integers of 64 bits. -/
def Fits (n : Int) : Prop := -9223372036854775808 ≤ n ∧ n ≤ 9223372036854775807

namespace Arith.Yields

variable {op : Arith} {a b n : Int}

/-- Every operation but a division by zero has one exact result. -/
theorem iff_exact : op.Yields a b n ↔ (op = .div → b ≠ 0) ∧ Number.exact op a b = n := by
  constructor
  · intro h
    cases h with
    | sum | difference | product => exact ⟨nofun, rfl⟩
    | @quotient _ _ q r heq hless hpos hneg =>
      have hb : b ≠ 0 := by
        rintro rfl
        exact Nat.not_lt_zero _ hless
      refine ⟨fun _ => hb, ?_⟩
      rcases Int.le_total 0 a with ha | ha
      · have := hpos ha
        exact ((Int.tdiv_tmod_unique ha hb).2 ⟨heq, by omega⟩).1
      · have := hneg ha
        exact ((Int.tdiv_tmod_unique' ha hb).2 ⟨heq, by omega⟩).1
  · rintro ⟨hb, rfl⟩
    cases op with
    | add => exact .sum a b
    | sub => exact .difference a b
    | mul => exact .product a b
    | div =>
      have hb := hb rfl
      refine .quotient (r := a.tmod b) (Int.tmod_add_mul_tdiv a b) ?_
        (fun ha => Int.tmod_nonneg b ha) fun ha => ?_
      · rw [Int.natAbs_tmod]
        exact Nat.mod_lt _ (Int.natAbs_pos.2 hb)
      · have hnonneg := Int.tmod_nonneg b (Int.neg_nonneg_of_nonpos ha)
        rw [Int.neg_tmod] at hnonneg
        omega

/-- **Of the quotients of words only one is no word**: that of the least by minus one. -/
theorem fits_quotient_iff (h : Arith.div.Yields a b n) (ha : Fits a) :
    Fits n ↔ ¬ (a = -9223372036854775808 ∧ b = -1) := by
  obtain ⟨hb, rfl⟩ := iff_exact.1 h
  have hb := hb rfl
  have hsize : (a.tdiv b).natAbs = a.natAbs / b.natAbs := Int.natAbs_tdiv a b
  change Fits (a.tdiv b) ↔ _
  unfold Fits at ha ⊢
  constructor
  · rintro hfits ⟨rfl, rfl⟩
    exact absurd hfits.2 (by decide)
  · intro hleast
    by_cases hone : b = 1 ∨ b = -1
    · rcases hone with rfl | rfl
      · rw [Int.tdiv_one]
        exact ha
      · rw [Int.tdiv_neg, Int.tdiv_one]
        omega
    · -- any other divisor leaves half of the dividend at most
      have hhalf : a.natAbs / b.natAbs ≤ a.natAbs / 2 :=
        Nat.div_le_div_left (by omega) (by decide)
      omega

end Arith.Yields

/-! ## Words -/

theorem fits_toInt (w : Int64) : Fits w.toInt := ⟨w.minValue_le_toInt, w.toInt_le⟩

/-- A result that has to fit is the word of its integer, or overflow where there is
none. -/
theorem checked_eq_iff {n : Int} {r : Except Fault Int64} :
    checked n = r ↔ (∃ w : Int64, w.toInt = n ∧ r = .ok w) ∨ ¬ Fits n ∧ r = .error .overflow := by
  unfold checked
  cases hn : word? n with
  | some w =>
    have hw := word?_eq_some_iff.1 hn
    constructor
    · rintro rfl
      exact .inl ⟨w, hw, rfl⟩
    · rintro (⟨w', hw', rfl⟩ | ⟨hfits, -⟩)
      · rw [Int64.toInt_inj.1 (hw'.trans hw.symm)]
      · exact absurd (hw ▸ fits_toInt w) hfits
  | none =>
    have hfits : ¬ Fits n := word?_eq_none_iff.1 hn
    constructor
    · rintro rfl
      exact .inr ⟨hfits, rfl⟩
    · rintro (⟨w, rfl, -⟩ | ⟨-, rfl⟩)
      · exact absurd (fits_toInt w) hfits
      · rfl

/-! ## Integers of one kind -/

/-- The two ways to write an integer. -/
inductive Radix where
  | decimal
  | hexadecimal
deriving DecidableEq

namespace Radix

/-- The number of a word that is written so. -/
def number : Radix → Int64 → Number
  | decimal => .decimal
  | hexadecimal => .hexadecimal

/-- The operations that keep integers of a kind integers: a quotient of decimals is a
float. -/
def Keeps (radix : Radix) (op : Arith) : Prop := op = .div → radix = .hexadecimal

/-- **What an operation gives for integers of one kind.** -/
inductive Gives (radix : Radix) (op : Arith) (a b : Int64) : Except Fault Number → Prop where
  | exact {w : Int64} : op.Yields a.toInt b.toInt w.toInt → Gives radix op a b (.ok (radix.number w))
  | overflow {n : Int} : op.Yields a.toInt b.toInt n → ¬ Fits n →
      Gives radix op a b (.error .overflow)
  | divisionByZero : op = .div → b = 0 → Gives radix op a b (.error .divisionByZero)

variable {radix : Radix} {op : Arith} {a b : Int64}

/-- Integers of one kind are refused for a zero divisor, and the exact result is
checked otherwise. -/
theorem apply_number (h : radix.Keeps op) (a b : Int64) :
    (radix.number a).apply op (radix.number b) =
      if op = .div ∧ b = 0 then .error .divisionByZero
      else radix.number <$> checked (Number.exact op a.toInt b.toInt) := by
  cases radix with
  | decimal =>
    have hop : op ≠ .div := fun hop => nomatch h hop
    simp [number, Number.apply, Number.isHexadecimal, hop]
  | hexadecimal => simp [number, Number.apply, Number.isHexadecimal, Number.isZero]

/-- **Integers of one kind** give what is laid down, and nothing else. -/
theorem gives_iff (h : radix.Keeps op) {r : Except Fault Number} :
    (radix.number a).apply op (radix.number b) = r ↔ radix.Gives op a b r := by
  have hzero : b.toInt = 0 ↔ b = 0 := Int64.toInt_inj (y := 0)
  rw [apply_number h]
  by_cases hdiv : op = .div ∧ b = 0
  · rw [if_pos hdiv]
    constructor
    · rintro rfl
      exact .divisionByZero hdiv.1 hdiv.2
    · rintro (hexact | ⟨hexact, -⟩ | -)
      · exact absurd (hzero.2 hdiv.2) ((Arith.Yields.iff_exact.1 hexact).1 hdiv.1)
      · exact absurd (hzero.2 hdiv.2) ((Arith.Yields.iff_exact.1 hexact).1 hdiv.1)
      · rfl
  · have hyields {n : Int} :
        op.Yields a.toInt b.toInt n ↔ Number.exact op a.toInt b.toInt = n := by
      rw [Arith.Yields.iff_exact, and_iff_right]
      exact fun hop hb => hdiv ⟨hop, hzero.1 hb⟩
    rw [if_neg hdiv]
    constructor
    · rintro rfl
      rcases checked_eq_iff.1 rfl with ⟨w, hw, hr⟩ | ⟨hfits, hr⟩
      · rw [hr]
        exact .exact (hyields.2 hw.symm)
      · rw [hr]
        exact .overflow (hyields.2 rfl) hfits
    · rintro (hexact | ⟨hexact, hfits⟩ | ⟨hop, hb⟩)
      · rw [checked_eq_iff.2 (.inl ⟨_, (hyields.1 hexact).symm, rfl⟩)]
        rfl
      · rw [checked_eq_iff.2 (.inr ⟨hyields.1 hexact ▸ hfits, rfl⟩)]
        rfl
      · exact absurd ⟨hop, hb⟩ hdiv

/-- An opposite is a product with minus one. -/
theorem negate_number (radix : Radix) (n : Int64) :
    (radix.number n).negate = (radix.number n).apply .mul (radix.number (-1)) := by
  have hone : (-1 : Int64).toInt = -1 := rfl
  rw [apply_number (fun hop : Arith.mul = .div => nomatch hop), if_neg (fun h => nomatch h.1),
    Number.exact, hone, Int.mul_neg, Int.mul_one]
  cases radix <;> rfl

end Radix

/-! ## Every pair of values -/

/-- One hexadecimal operand is refused before anything else is looked at. -/
theorem Number.apply_of_mixed {m n : Number} (h : m.isHexadecimal ≠ n.isHexadecimal) (op : Arith) :
    m.apply op n = .error (.mixedHexadecimal op) :=
  if_pos (bne_iff_ne.2 h)

namespace Value

/-- A number that is written in hexadecimal. -/
def IsHexadecimal (v : Value) : Prop := ∃ n, v = .number (.hexadecimal n)

variable {a b : Value}

/-- Beside what is no number, a hexadecimal number is said to be mixed. -/
theorem arith_of_hexadecimal (h : a.kind ≠ .number ∨ b.kind ≠ .number)
    (hhex : a.IsHexadecimal ∨ b.IsHexadecimal) (op : Arith) :
    arith op a b = .error (.mixedHexadecimal op) := by
  rcases hhex with ⟨n, rfl⟩ | ⟨n, rfl⟩
  · have hb : b.kind ≠ .number := h.resolve_left fun ha => ha rfl
    cases b with
    | number => exact absurd rfl hb
    | _ => rfl
  · have ha : a.kind ≠ .number := h.resolve_right fun hb => hb rfl
    cases a with
    | number => exact absurd rfl ha
    | _ => rfl

/-- Without one, the kinds of the operands are what does not fit. -/
theorem arith_of_mismatch (h : a.kind ≠ .number ∨ b.kind ≠ .number)
    (hhex : ¬ (a.IsHexadecimal ∨ b.IsHexadecimal)) (op : Arith) :
    arith op a b = .error (.mismatch op a.kind b.kind) := by
  unfold arith
  split
  next => exact (h.elim (fun ha => ha rfl) fun hb => hb rfl).elim
  next n _ => exact absurd (.inl ⟨n, rfl⟩) hhex
  next n _ => exact absurd (.inr ⟨n, rfl⟩) hhex
  next => rfl

end Value

/-- **How values take part in arithmetic**, integers of one kind before all. -/
structure CheckedArithmetic : Prop where
  /-- Sums, differences and products of integers of one kind, and hexadecimal
  quotients, are exact or overflow. -/
  integers : ∀ (radix : Radix) (op : Arith), radix.Keeps op → ∀ (a b : Int64)
    (r : Except Fault Number),
    (radix.number a).apply op (radix.number b) = r ↔ radix.Gives op a b r
  divisionByZero : ∀ a b : Int64,
    (Number.hexadecimal a).apply .div (.hexadecimal b) = .error .divisionByZero ↔ b = 0
  /-- One quotient overflows. -/
  divisionOverflow : ∀ a b : Int64,
    (Number.hexadecimal a).apply .div (.hexadecimal b) = .error .overflow ↔
      a = Int64.minValue ∧ b = -1
  /-- One hexadecimal operand is refused, whatever the other is. -/
  mixed : ∀ m n : Number, m.isHexadecimal ≠ n.isHexadecimal →
    ∀ op, m.apply op n = .error (.mixedHexadecimal op)
  opposite : ∀ (radix : Radix) (n : Int64),
    (radix.number n).negate = (radix.number n).apply .mul (radix.number (-1))
  numbers : ∀ (op : Arith) (m n : Number),
    Value.arith op (.number m) (.number n) = .number <$> m.apply op n
  /-- A value that is no number is refused, for a hexadecimal number beside it, or for
  the kinds of both. -/
  others : ∀ a b : Value, a.kind ≠ .number ∨ b.kind ≠ .number → ∀ op : Arith,
    (a.IsHexadecimal ∨ b.IsHexadecimal → Value.arith op a b = .error (.mixedHexadecimal op)) ∧
    (¬ (a.IsHexadecimal ∨ b.IsHexadecimal) →
      Value.arith op a b = .error (.mismatch op a.kind b.kind))

/-- **Arithmetic is checked.** Integers of one kind give the exact result, of that kind,
or overflow where it is no word; hexadecimal division gives the quotient toward zero,
and is refused for a zero divisor alone. Nothing else makes numbers of integers out of
hexadecimal numbers: one beside another kind of value is always refused. -/
theorem checked_arithmetic : CheckedArithmetic where
  integers _ _ h _ _ _ := Radix.gives_iff h
  divisionByZero a b := by
    refine (@Radix.gives_iff .hexadecimal .div a b (fun _ => rfl) _).trans ?_
    constructor
    · rintro (_ | _ | ⟨-, hb⟩)
      exact hb
    · exact .divisionByZero rfl
  divisionOverflow a b := by
    have hleast : a.toInt = -9223372036854775808 ∧ b.toInt = -1 ↔ a = Int64.minValue ∧ b = -1 :=
      and_congr (Int64.toInt_inj (y := Int64.minValue)) (Int64.toInt_inj (y := -1))
    refine (@Radix.gives_iff .hexadecimal .div a b (fun _ => rfl) _).trans ?_
    rw [← hleast]
    constructor
    · rintro (_ | ⟨hexact, hfits⟩)
      rw [hexact.fits_quotient_iff (fits_toInt a)] at hfits
      exact Decidable.of_not_not hfits
    · rintro h
      have hb : b.toInt ≠ 0 := by omega
      have hexact : Arith.div.Yields a.toInt b.toInt _ :=
        Arith.Yields.iff_exact.2 ⟨fun _ => hb, rfl⟩
      exact .overflow hexact fun hfits =>
        (hexact.fits_quotient_iff (fits_toInt a)).1 hfits h
  mixed _ _ h op := Number.apply_of_mixed h op
  opposite := Radix.negate_number
  numbers _ _ _ := rfl
  others _ _ h op := ⟨fun hhex => Value.arith_of_hexadecimal h hhex op,
    fun hhex => Value.arith_of_mismatch h hhex op⟩

end HotkeyScript
