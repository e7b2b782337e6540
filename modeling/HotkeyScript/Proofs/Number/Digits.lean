import HotkeyScript.Decimal.Read
/-!
# Numbers — digits that are read

Digits are read from the left: what decimal digits are read as is what they denote
(`Decimal.accumulate_eq_some_iff`), and the digits of a number, in any base up to sixteen,
are read as the number again (`Decimal.natural?_toDigits`). Nothing but digits is read, and
at least one (`Decimal.of_natural?`); and nothing but digits and a sign is written
(`Decimal.notMem_toString`).
-/

namespace HotkeyScript

namespace Decimal

variable {base value n : Nat} {c : Char} {cs : List Char}

/-! ## Decimal digits -/

theorem digit?_of_isDigit (h : c.isDigit = true) :
    digit? c = some (c.toNat - '0'.toNat) ∧ c.toNat - '0'.toNat < 10 := by
  simp only [Char.isDigit, ge_iff_le, Bool.and_eq_true, decide_eq_true_eq] at h
  have hle : '0' ≤ c ∧ c ≤ '9' := h
  rw [digit?, if_pos hle]
  have hnine : c.toNat ≤ 57 := UInt32.le_iff_toNat_le.1 h.2
  exact ⟨rfl, Nat.lt_of_le_of_lt (Nat.sub_le_sub_right hnine _) (by decide)⟩

theorem isDigit_of_digit? {d : Nat} (h : digit? c = some d) (hd : d < 10) : c.isDigit = true := by
  unfold digit? at h
  split at h
  next hc =>
    simp only [Char.isDigit, ge_iff_le, Bool.and_eq_true, decide_eq_true_eq]
    exact hc
  next =>
    -- a letter denotes ten or more
    split at h
    next => cases h; omega
    next => split at h <;> cases h; omega

/-- A decimal numeral is digits, and its value is theirs. -/
theorem accumulate_eq_some_iff : accumulate 10 value cs = some n ↔
    (∀ c ∈ cs, c.isDigit = true) ∧ Nat.ofDigitChars 10 cs value = n := by
  induction cs generalizing value with
  | nil => simp [accumulate]
  | cons c cs ih =>
    rw [accumulate, List.forall_mem_cons, Nat.ofDigitChars_cons]
    by_cases hc : c.isDigit = true
    · obtain ⟨hd, hlt⟩ := digit?_of_isDigit hc
      simp only [hd, if_pos hlt, ih, hc, true_and, Nat.mul_comm]
    · simp only [hc, Bool.false_eq_true, false_and, iff_false]
      split
      next d hd =>
        have hlt : ¬ d < 10 := fun hlt => hc (isDigit_of_digit? hd hlt)
        simp [hlt]
      next => simp

/-! ## The digits of a number -/

/-- Digits are read behind those in front of them. -/
theorem accumulate_append (base value : Nat) (cs ds : List Char) :
    accumulate base value (cs ++ ds) =
      (accumulate base value cs).bind fun value => accumulate base value ds := by
  induction cs generalizing value with
  | nil => rfl
  | cons c cs ih =>
    rw [List.cons_append, accumulate, accumulate]
    cases digit? c with
    | none => rfl
    | some d =>
      dsimp only
      split
      · exact ih _
      · rfl

/-- What stands for a digit is read as the digit. -/
theorem digit?_digitChar : ∀ d < 16, digit? (Nat.digitChar d) = some d := by decide

/-- **The digits of a number are read as the number.** -/
theorem accumulate_toDigits (hone : 1 < base) (hbase : base ≤ 16) (n : Nat) :
    accumulate base 0 (Nat.toDigits base n) = some n := by
  -- on the number without its last digit
  induction n using Nat.strongRecOn with
  | ind n ih =>
    have hlast {value d : Nat} (hd : d < base) :
        accumulate base value [Nat.digitChar d] = some (value * base + d) := by
      rw [accumulate, digit?_digitChar d (Nat.lt_of_lt_of_le hd hbase)]
      exact if_pos hd
    rw [Nat.toDigits_eq_if hone]
    split
    next hn => rw [hlast hn, Nat.zero_mul, Nat.zero_add]
    next hn =>
      have hless : n / base < n := Nat.div_lt_self (by omega) hone
      rw [accumulate_append, ih _ hless, Option.bind_some, hlast (Nat.mod_lt n (by omega)),
        Nat.mul_comm, Nat.div_add_mod]

theorem natural?_toDigits (hone : 1 < base) (hbase : base ≤ 16) (n : Nat) :
    natural? base (Nat.toDigits base n) = some n := by
  have hne : ¬ (Nat.toDigits base n).isEmpty = true := by
    rw [List.isEmpty_iff]
    exact Nat.toDigits_ne_nil
  rw [natural?, if_neg hne, accumulate_toDigits hone hbase]

/-! ## What is written -/

/-- A number is written with digits. -/
theorem notMem_toDigits (hc : c.isDigit = false) (n : Nat) : c ∉ Nat.toDigits 10 n := by
  intro hmem
  have hdigit := Nat.isDigit_of_mem_toDigits (by decide) (by decide) hmem
  rw [hc] at hdigit
  cases hdigit

/-- And an integer with a minus sign as well. -/
theorem notMem_toString (hc : c.isDigit = false) (hminus : c ≠ '-') (n : Int) :
    c ∉ (toString n).toList := by
  rw [Int.toString_eq_repr, Int.repr_eq_if]
  split
  next =>
    rw [Nat.toList_repr]
    exact notMem_toDigits hc _
  next =>
    rw [String.toList_append, List.mem_append, not_or, Nat.toList_repr]
    exact ⟨fun hmem => hminus (List.mem_singleton.1 hmem), notMem_toDigits hc _⟩

/-! ## What is read -/

/-- What is read has only characters of a class that the digits of the base are of. -/
theorem all_of_accumulate {p : Char → Bool}
    (hp : ∀ c d, digit? c = some d → d < base → p c = true)
    (h : accumulate base value cs = some n) : cs.all p = true := by
  induction cs generalizing value with
  | nil => rfl
  | cons c cs ih =>
    unfold accumulate at h
    split at h
    next d hc =>
      split at h
      next hd => rw [List.all_cons, hp c d hc hd, ih h]; rfl
      next => cases h
    next => cases h

/-- **What is read is not empty and has only digits of the base.** -/
theorem of_natural? {p : Char → Bool} (hp : ∀ c d, digit? c = some d → d < base → p c = true)
    (h : natural? base cs = some n) : cs ≠ [] ∧ cs.all p = true := by
  unfold natural? at h
  split at h
  next => cases h
  next hne => exact ⟨fun hnil => hne (List.isEmpty_iff.2 hnil), all_of_accumulate hp h⟩

/-- Where no sign comes first, an integer is read as a natural number. -/
theorem integer?_cons (hminus : c ≠ '-') (hplus : c ≠ '+') :
    integer? base (c :: cs) = (natural? base (c :: cs)).map Int.ofNat := by
  rw [integer?]
  · exact fun _ h => hminus (List.cons.inj h).1
  · exact fun _ h => hplus (List.cons.inj h).1

end Decimal

end HotkeyScript
