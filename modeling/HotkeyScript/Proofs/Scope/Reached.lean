import HotkeyScript.Proofs.Scope.Binding
import HotkeyScript.Scope.Stack
/-!
# Stacks that come about

A stack comes about from the module alone: calls are entered from scopes that are
there and are left again, names are written, and the module is given scripts
(`CallStack.Reached`). Such a stack is numbered from below, and each of its calls
was entered from a scope below it (`CallStack.Reached.numbered`), so the way from a
scope out to the module (`CallStack.OnWay`) leads down the stack, and a name is read
at the first call on it that has the name (`CallStack.isSome_lookupIn`).
-/

namespace HotkeyScript

namespace CallStack

/-! ## Numbers -/

/-- The numbers of the scopes that there are. -/
def Live (s : CallStack) (id : Nat) : Prop := id ≤ s.depth

instance (s : CallStack) (id : Nat) : Decidable (s.Live id) := inferInstanceAs (Decidable (_ ≤ _))

/-- **Stacks that come about** from the module alone. -/
inductive Reached : CallStack → Prop where
  | start (source : Source) : Reached (start source)
  | push {s : CallStack} (name : String) (caller : Nat) (entry : Position) (source : Source) :
      Reached s → s.Live caller → Reached (s.push name caller entry source)
  | pop {s : CallStack} : Reached s → Reached s.pop
  | assign {s : CallStack} (id : Nat) (name : String) (v : Value) (declared : Bool) :
      Reached s → s.Live id → Reached (s.assign id name v declared)
  | bind {s : CallStack} (id : Nat) (name : String) (v : Value) :
      Reached s → s.Live id → Reached (s.bind id name v)
  | setSource {s : CallStack} (source : Source) : Reached s → Reached (s.setSource source)

/-- **Calls numbered from below**, each entered from a scope below it. -/
inductive Numbered : List Call → Prop where
  | nil : Numbered []
  | cons {c : Call} {cs : List Call} :
      c.number = cs.length + 1 → c.caller ≤ cs.length → Numbered cs → Numbered (c :: cs)

theorem Numbered.tail {cs : List Call} (h : Numbered cs) : Numbered cs.tail := by
  cases h with
  | nil => exact .nil
  | cons _ _ h => exact h

theorem length_setIn (id : Nat) (name : String) (v : Value) (isGlobal : Bool) (cs : List Call) :
    (setIn id name v isGlobal cs).length = cs.length := by
  induction cs with
  | nil => rfl
  | cons c cs ih =>
    rw [setIn]
    split
    · rfl
    · rw [List.length_cons, List.length_cons, ih]

/-- Writing a name renumbers nothing. -/
theorem numbered_setIn {cs : List Call} (h : Numbered cs) (id : Nat) (name : String) (v : Value)
    (isGlobal : Bool) : Numbered (setIn id name v isGlobal cs) := by
  induction h with
  | nil => exact .nil
  | cons hn hc hcs ih =>
    rw [setIn]
    split
    · exact .cons hn hc hcs
    · refine .cons ?_ ?_ ih
      · rw [length_setIn, hn]
      · rw [length_setIn]
        exact hc

theorem numbered_setAt {s : CallStack} (h : Numbered s.calls) (id : Nat) (name : String)
    (v : Value) (isGlobal : Bool) : Numbered (s.setAt id name v isGlobal).calls := by
  unfold setAt
  split
  · exact h
  · exact numbered_setIn h id name v isGlobal

/-- **What comes about is numbered from below.** -/
theorem Reached.numbered {s : CallStack} (h : s.Reached) : Numbered s.calls := by
  induction h with
  | start => exact .nil
  | push _ _ _ _ _ hl ih => exact .cons rfl hl ih
  | pop _ ih => exact ih.tail
  | assign id name v declared _ _ ih =>
    unfold CallStack.assign
    split
    · exact ih
    · exact numbered_setAt ih id name v declared
  | bind id name v _ _ ih => exact numbered_setAt ih id name v false
  | setSource _ _ ih => exact ih

/-! ## The way out -/

/-- **The calls on the way out** from a scope to the module: the scope's own, if it
is a call's, and those on the way out from where that call was entered. -/
inductive OnWay (s : CallStack) : Nat → Call → Prop where
  | own {id : Nat} {c : Call} : s.call? id = some c → OnWay s id c
  | outward {id : Nat} {c d : Call} : s.call? id = some c → OnWay s c.caller d → OnWay s id d

/-- A call on the way out from a scope has the name in its own table. -/
def Hides (s : CallStack) (id : Nat) (name : String) : Prop :=
  ∃ c, s.OnWay id c ∧ c.scope.symbols.contains name = true

variable {module : Scope} {cs : List Call} {c d : Call} {id : Nat}

theorem call?_cons_self (hn : c.number = id) :
    (⟨module, c :: cs⟩ : CallStack).call? id = some c := by
  rw [call?, List.find?_cons, beq_iff_eq.2 hn]

theorem call?_cons_of_ne (hn : c.number ≠ id) :
    (⟨module, c :: cs⟩ : CallStack).call? id = (⟨module, cs⟩ : CallStack).call? id := by
  rw [call?, List.find?_cons, beq_false_of_ne hn]
  rfl

/-- A call that is there was entered from a scope below it. -/
theorem Numbered.caller_le (h : Numbered cs) (hc : (⟨module, cs⟩ : CallStack).call? id = some c) :
    c.caller ≤ cs.length := by
  induction h with
  | nil => cases hc
  | @cons c' cs hn hle _ ih =>
    by_cases hid : c'.number = id
    · rw [call?_cons_self hid] at hc
      cases hc
      exact Nat.le_succ_of_le hle
    · rw [call?_cons_of_ne hid] at hc
      exact Nat.le_succ_of_le (ih hc)

/-- A call further in is on no way out from below it. -/
theorem Numbered.onWay_cons (h : Numbered cs) (hn : c.number = cs.length + 1)
    (hid : id ≤ cs.length) :
    (⟨module, c :: cs⟩ : CallStack).OnWay id d ↔ (⟨module, cs⟩ : CallStack).OnWay id d := by
  have hcall {id : Nat} (hid : id ≤ cs.length) :
      (⟨module, c :: cs⟩ : CallStack).call? id = (⟨module, cs⟩ : CallStack).call? id :=
    call?_cons_of_ne (by omega)
  constructor
  · intro hw
    induction hw with
    | own hc => exact .own (hcall hid ▸ hc)
    | outward hc _ ih =>
      rw [hcall hid] at hc
      exact .outward hc (ih (h.caller_le hc))
  · intro hw
    induction hw with
    | own hc => exact .own ((hcall hid).trans hc)
    | outward hc _ ih => exact .outward ((hcall hid).trans hc) (ih (h.caller_le hc))

/-- From a call the way out leads over it to where it was entered. -/
theorem Numbered.onWay_own (h : Numbered cs) (hn : c.number = cs.length + 1)
    (hle : c.caller ≤ cs.length) :
    (⟨module, c :: cs⟩ : CallStack).OnWay c.number d ↔
      d = c ∨ (⟨module, cs⟩ : CallStack).OnWay c.caller d := by
  have hcall : (⟨module, c :: cs⟩ : CallStack).call? c.number = some c := call?_cons_self rfl
  constructor
  · intro hw
    cases hw with
    | own hc =>
      rw [hcall] at hc
      cases hc
      exact .inl rfl
    | outward hc hw =>
      rw [hcall] at hc
      cases hc
      exact .inr ((h.onWay_cons hn hle).1 hw)
  · rintro (rfl | hw)
    · exact .own hcall
    · exact .outward hcall ((h.onWay_cons hn hle).2 hw)

/-- **A name is found among the calls** when one of those on the way out has it. -/
theorem Numbered.isSome_lookupIn (h : Numbered cs) (module : Scope) (hid : id ≤ cs.length)
    (name : String) :
    (lookupIn name id cs).isSome = true ↔ (⟨module, cs⟩ : CallStack).Hides id name := by
  induction h generalizing id with
  | nil =>
    refine iff_of_false Bool.false_ne_true ?_
    rintro ⟨c, hw, -⟩
    cases hw with
    | own hc => cases hc
    | outward hc => cases hc
  | @cons c cs hn hle h ih =>
    unfold Hides
    by_cases hc : c.number = id
    · subst hc
      have hg := c.scope.symbols.contains_eq name
      simp only [h.onWay_own hn hle, lookupIn]
      cases hv : c.scope.symbols.get? name with
      | some v =>
        refine iff_of_true rfl ⟨c, .inl rfl, ?_⟩
        rw [hg, hv]
        rfl
      | none =>
        rw [hv] at hg
        refine (ih hle).trans ⟨?_, ?_⟩
        · rintro ⟨d, hw, hd⟩
          exact ⟨d, .inr hw, hd⟩
        · rintro ⟨d, rfl | hw, hd⟩
          · rw [hg] at hd
            cases hd
          · exact ⟨d, hw, hd⟩
    · have hlt : id ≤ cs.length := by
        rw [List.length_cons] at hid
        omega
      simp only [h.onWay_cons hn hlt, lookupIn, if_neg hc]
      exact ih hlt

/-- Spellings of one name are found in one place. -/
theorem lookupIn_congr {name name' : String} (h : Name.of name == Name.of name') (id : Nat)
    (cs : List Call) : lookupIn name id cs = lookupIn name' id cs := by
  induction cs generalizing id with
  | nil => rfl
  | cons c cs ih => rw [lookupIn, lookupIn, SymbolTable.get?_congr _ h, ih, ih]

end CallStack

end HotkeyScript
