import HotkeyScript.Proofs.Scope.Reached
/-!
# Reading back what was assigned

Names are read on the way from a scope out to the module, and written at one of its
ends: in the scope itself, or in the module where the name is global. So a scope
reads back the value that it assigned, whatever its callers hold, unless it wrote to
the module and a call on the way out has a name like it
(`CallStack.Reached.lookup_assign`). Then it goes on reading what that call has: the
name of a caller stands in front of the global one (`CallStack.caller_hides_global`).
-/

namespace HotkeyScript

namespace CallStack

/-- The module is no call. -/
theorem Numbered.lookupIn_zero {cs : List Call} (h : Numbered cs) (name : String) :
    lookupIn name 0 cs = none := by
  induction h with
  | nil => rfl
  | cons hn _ _ ih => rw [lookupIn, if_neg (by omega), ih]

/-- What a call writes to its own table it reads first. -/
theorem Numbered.lookupIn_setIn {cs : List Call} (h : Numbered cs) {id : Nat} (hpos : id ≠ 0)
    (hid : id ≤ cs.length) {name name' : String} (hname : Name.of name == Name.of name')
    (v : Value) (isGlobal : Bool) :
    lookupIn name' id (setIn id name v isGlobal cs) = some v := by
  induction h with
  | nil =>
    rw [List.length_nil] at hid
    omega
  | @cons c cs hn _ _ ih =>
    by_cases hc : c.number = id
    · rw [setIn, if_pos hc, lookupIn, if_pos hc, SymbolTable.get?_set _ hname]
    · have hlt : id ≤ cs.length := by
        rw [List.length_cons] at hid
        omega
      rw [setIn, if_neg hc, lookupIn, if_neg hc, ih hlt]

variable {s : CallStack} {id : Nat} {name name' : String}

/-- A scope reads what it wrote to its own table. -/
theorem Numbered.lookup_setAt (h : Numbered s.calls) (hid : s.Live id)
    (hname : Name.of name == Name.of name') (v : Value) (isGlobal : Bool) :
    (s.setAt id name v isGlobal).lookup id name' = some v := by
  by_cases hz : id = 0
  · subst hz
    have hc : lookupIn name' 0 (s.setInModule name v isGlobal).calls = none := h.lookupIn_zero name'
    rw [setAt, if_pos rfl, lookup, hc]
    exact s.module.symbols.get?_set hname v isGlobal
  · rw [setAt, if_neg hz, lookup, h.lookupIn_setIn hz hid hname]

/-- What is written to the module is read where no call on the way out has a name
like it, and where one has, nothing changes. -/
theorem Numbered.lookup_setInModule (h : Numbered s.calls) (hid : s.Live id)
    (hname : Name.of name == Name.of name') (v : Value) (isGlobal : Bool) :
    (¬ s.Hides id name → (s.setInModule name v isGlobal).lookup id name' = some v) ∧
      (s.Hides id name → (s.setInModule name v isGlobal).lookup id name' = s.lookup id name') := by
  have hfound := h.isSome_lookupIn s.module hid name
  rw [lookupIn_congr hname] at hfound
  have hcalls : (s.setInModule name v isGlobal).calls = s.calls := rfl
  unfold lookup
  rw [hcalls]
  cases hv : lookupIn name' id s.calls with
  | some w =>
    rw [hv] at hfound
    exact ⟨fun hn => absurd (hfound.1 rfl) hn, fun _ => rfl⟩
  | none =>
    rw [hv] at hfound
    refine ⟨fun _ => s.module.symbols.get?_set hname v isGlobal, fun hh => ?_⟩
    exact absurd (hfound.2 hh) Bool.false_ne_true

/-- **Reading back.** On every stack that comes about, a scope reads back what it has
just assigned, under every spelling of the name, unless it assigned to the module
and a call on the way out from it, its own or a caller's, has the name in its own
table. In that case the module has the value, and the scope reads what it read
before. -/
theorem Reached.lookup_assign (h : s.Reached) (hid : s.Live id)
    (hname : Name.of name == Name.of name') (v : Value) (declared : Bool) :
    (¬ (s.writesModule id name declared = true ∧ s.Hides id name) →
        (s.assign id name v declared).lookup id name' = some v) ∧
      (s.writesModule id name declared = true ∧ s.Hides id name →
        (s.assign id name v declared).lookup id name' = s.lookup id name' ∧
          (s.assign id name v declared).module.symbols.get? name' = some v) := by
  have hm := h.numbered.lookup_setInModule hid hname v true
  unfold CallStack.assign
  by_cases hw : s.writesModule id name declared = true
  · rw [if_pos hw]
    refine ⟨fun hn => hm.1 fun hh => hn ⟨hw, hh⟩, fun hh => ⟨hm.2 hh.2, ?_⟩⟩
    exact s.module.symbols.get?_set hname v true
  · rw [if_neg hw]
    exact ⟨fun _ => h.numbered.lookup_setAt hid hname v declared, fun hh => absurd hh.1 hw⟩

/-! ## A caller in front of the module -/

/-- A call of `g` from a call of `f` that has an `x` of its own. -/
def inner : CallStack where
  module := ⟨moduleName, ⟨"calls", "f()"⟩, .empty⟩
  calls := [
    ⟨⟨"g", ⟨"calls", "f()"⟩, .empty⟩, 2, 1, .start⟩,
    ⟨⟨"f", ⟨"calls", "f()"⟩, SymbolTable.empty.set "x" (.boolean false) false⟩, 1, 0, .start⟩]

theorem reached_inner : inner.Reached := by
  have hf := Reached.push "f" 0 .start ⟨"calls", "f()"⟩ (.start ⟨"calls", "f()"⟩) (by decide)
  have hx := Reached.assign 1 "x" (.boolean false) false hf (by decide)
  exact Reached.push "g" 1 .start ⟨"calls", "f()"⟩ hx (by decide)

/-- The outer call has its `x`. -/
theorem get?_outer :
    (SymbolTable.empty.set "x" (.boolean false) false).get? "x" = some (.boolean false) :=
  SymbolTable.get?_set _ BEq.rfl _ _

theorem hides_inner : inner.Hides 2 "x" := by
  refine ⟨_, .outward rfl (.own rfl), ?_⟩
  rw [SymbolTable.contains_eq, get?_outer]
  rfl

theorem lookup_inner (symbols : SymbolTable) :
    ({ inner with module := { inner.module with symbols } } : CallStack).lookup 2 "x" =
      some (.boolean false) := by
  have hg : SymbolTable.empty.get? "x" = none := rfl
  simp [lookup, lookupIn, inner, hg, get?_outer]

/-- The inner call reads back an `x` of its own in capitals, and goes on reading the
`x` of its caller when it assigns to a global one. -/
theorem lookup_assign_inner :
    inner.Reached ∧ inner.Live 2 ∧ Name.of "x" == Name.of "X" ∧
      ¬ (inner.writesModule 2 "x" false = true ∧ inner.Hides 2 "x") ∧
      (inner.assign 2 "x" (.boolean true) false).lookup 2 "X" = some (.boolean true) ∧
      (inner.writesModule 2 "x" true = true ∧ inner.Hides 2 "x") ∧
      (inner.assign 2 "x" (.boolean true) true).lookup 2 "X" = inner.lookup 2 "X" := by
  have hname : Name.of "x" == Name.of "X" := by
    refine Name.beq_iff.2 (String.toList_injective ?_)
    change ("x".map Char.toLower).toList = ("X".map Char.toLower).toList
    rw [String.toList_map, String.toList_map]
    decide
  have hlive : inner.Live 2 := by decide
  have hown : ¬ (inner.writesModule 2 "x" false = true ∧ inner.Hides 2 "x") :=
    fun h => Bool.false_ne_true h.1
  have hmodule : inner.writesModule 2 "x" true = true ∧ inner.Hides 2 "x" := ⟨rfl, hides_inner⟩
  have hassign := reached_inner.lookup_assign hlive hname (.boolean true)
  exact ⟨reached_inner, hlive, hname, hown, (hassign false).1 hown, hmodule,
    ((hassign true).2 hmodule).1⟩

/-- **A caller hides the global name.** The inner call has no `x`, assigns one that it
declares global, and reads the `x` of its caller instead. -/
theorem caller_hides_global :
    inner.Reached ∧ inner.Live 2 ∧ (inner.scope 2).symbols.contains "x" = false ∧
      (inner.assign 2 "x" (.boolean true) true).lookup 2 "x" = some (.boolean false) ∧
      (inner.assign 2 "x" (.boolean true) true).lookup 2 "x" ≠ some (.boolean true) := by
  have hread := lookup_inner (SymbolTable.empty.set "x" (.boolean true) true)
  refine ⟨reached_inner, by decide, rfl, hread, fun h => ?_⟩
  cases hread.symm.trans h

end CallStack

end HotkeyScript
