/-!
# Computations that may fail — what their success says

A computation that is made up of others succeeds with what they succeed with.
-/

namespace HotkeyScript

variable {ε ε' α β : Type}

/-- What is bound was there. -/
theorem bind_eq_ok_iff {x : Except ε α} {f : α → Except ε β} {b : β} :
    x >>= f = .ok b ↔ ∃ a, x = .ok a ∧ f a = .ok b := by
  constructor
  · intro h
    cases x with
    | error e => cases h
    | ok a => exact ⟨a, rfl, h⟩
  · rintro ⟨a, rfl, h⟩
    exact h

/-- To say an error otherwise changes no success. -/
theorem mapError_eq_ok_iff {x : Except ε α} {f : ε → ε'} {a : α} :
    x.mapError f = .ok a ↔ x = .ok a := by
  cases x with
  | ok b => exact ⟨fun h => congrArg _ (Except.ok.inj h), fun h => congrArg _ (Except.ok.inj h)⟩
  | error e => exact ⟨nofun, nofun⟩

/-- What comes of an option comes of what is in it. -/
theorem exists_of_mapM_ok {o : Option α} {f : α → Except ε β} {r : Option β}
    (h : o.mapM f = .ok r) {y : β} (hy : y ∈ r) : ∃ x ∈ o, f x = .ok y := by
  cases o with
  | none => cases h; cases hy
  | some x =>
    rw [Option.mapM_some] at h
    obtain ⟨z, hz, h⟩ := bind_eq_ok_iff.1 h
    cases h
    cases hy
    exact ⟨x, rfl, hz⟩

end HotkeyScript
