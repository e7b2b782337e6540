import HotkeyScript.Proofs.Scope.ReadBack
import Mathlib.Logic.Relation
/-!
# What holds of every stack that comes about

The module is always there and was entered from nowhere; every call was entered from a
scope below it, and holds no global name (`CallStack.Sound`). So there is one way from
a scope out to the module, on which names are looked up and frames are taken
(`CallStack.WayOut`). A name of the module that is global stays so, and an assignment
writes one binding of one table (`CallStack.WritesOne`). All this holds of every stack
that operations lead to, and of every operation on it (`CallStack.Reached.invariant`).
-/

namespace HotkeyScript

/-- A call with a name written in its own table. -/
def Call.write (c : Call) (name : String) (v : Value) (isGlobal : Bool) : Call :=
  { c with scope := { c.scope with symbols := c.scope.symbols.set name v isGlobal } }

namespace CallStack

/-! ## Operations -/

/-- **One operation** on a stack, from scopes that are there. -/
inductive Acts : CallStack → CallStack → Prop where
  | push {s : CallStack} (name : String) (caller : Nat) (entry : Position) (source : Source) :
      s.Live caller → Acts s (s.push name caller entry source)
  | pop {s : CallStack} : Acts s s.pop
  | assign {s : CallStack} (id : Nat) (name : String) (v : Value) (declared : Bool) :
      s.Live id → Acts s (s.assign id name v declared)
  | bind {s : CallStack} (id : Nat) (name : String) (v : Value) :
      s.Live id → Acts s (s.bind id name v)
  | setSource {s : CallStack} (source : Source) : Acts s (s.setSource source)

/-- What comes about goes on to what comes about. -/
theorem Reached.acts {s s' : CallStack} (h : s.Reached) (ha : s.Acts s') : s'.Reached := by
  cases ha with
  | push name caller entry source hl => exact .push name caller entry source h hl
  | pop => exact .pop h
  | assign id name v declared hl => exact .assign id name v declared h hl
  | bind id name v hl => exact .bind id name v h hl
  | setSource source => exact .setSource source h

/-! ## Calls after a write -/

variable {s : CallStack} {id : Nat} {name : String} {v : Value} {isGlobal : Bool}

/-- A write to a call is seen at its number and at no other. -/
theorem call?_setIn (module : Scope) (cs : List Call) (id other : Nat) (name : String)
    (v : Value) (isGlobal : Bool) :
    (⟨module, setIn id name v isGlobal cs⟩ : CallStack).call? other =
      if other = id then ((⟨module, cs⟩ : CallStack).call? id).map (·.write name v isGlobal)
      else (⟨module, cs⟩ : CallStack).call? other := by
  induction cs with
  | nil => simp [setIn, call?]
  | cons c cs ih =>
    by_cases hc : c.number = id
    · have hset : setIn id name v isGlobal (c :: cs) = c.write name v isGlobal :: cs := by
        rw [setIn, if_pos hc]
        rfl
      rw [hset, call?_cons_self hc]
      have hwrite : (c.write name v isGlobal).number = c.number := rfl
      by_cases ho : other = id
      · rw [if_pos ho, call?_cons_self (by omega)]
        rfl
      · rw [if_neg ho, call?_cons_of_ne (by omega), call?_cons_of_ne (by omega)]
    · rw [setIn, if_neg hc, call?_cons_of_ne hc]
      by_cases hco : c.number = other
      · have ho : other ≠ id := by omega
        rw [if_neg ho, call?_cons_self hco, call?_cons_self hco]
      · rw [call?_cons_of_ne hco, ih, call?_cons_of_ne hco]

/-- Each call is one of those before the write, or that one written. -/
theorem mem_setIn {c : Call} {cs : List Call} (hc : c ∈ setIn id name v isGlobal cs) :
    c ∈ cs ∨ ∃ d ∈ cs, c = d.write name v isGlobal := by
  induction cs with
  | nil => cases hc
  | cons d cs ih =>
    rw [setIn] at hc
    split at hc
    · rcases List.mem_cons.1 hc with rfl | hc
      · exact .inr ⟨d, List.mem_cons_self, rfl⟩
      · exact .inl (List.mem_cons_of_mem _ hc)
    · rcases List.mem_cons.1 hc with rfl | hc
      · exact .inl List.mem_cons_self
      · rcases ih hc with hc | ⟨e, he, rfl⟩
        · exact .inl (List.mem_cons_of_mem _ hc)
        · exact .inr ⟨e, List.mem_cons_of_mem _ he, rfl⟩

/-! ## Flags -/

/-- **No call holds a global name.** -/
def Unflagged (cs : List Call) : Prop :=
  ∀ c ∈ cs, ∀ b ∈ c.scope.symbols.bindings, b.isGlobal = false

/-- A name that is not declared global can be written anywhere. -/
theorem Unflagged.setAt (h : Unflagged s.calls) (id : Nat) (name : String) (v : Value)
    {isGlobal : Bool} (hflag : id ≠ 0 → isGlobal = false) :
    Unflagged (s.setAt id name v isGlobal).calls := by
  unfold CallStack.setAt
  split
  · exact h
  next hid =>
    intro c hc
    rcases mem_setIn hc with hc | ⟨d, hd, rfl⟩
    · exact h c hc
    · have hset := d.scope.symbols.rewritten_set name v isGlobal
      exact hset.flags (h d hd) (hflag hid)

/-- A function that declares a name global writes it to the module. -/
theorem not_declared_of_not_writesModule {declared : Bool}
    (hw : ¬ s.writesModule id name declared = true) (hid : id ≠ 0) : declared = false := by
  cases declared with
  | false => rfl
  | true =>
    refine absurd ?_ hw
    simp [writesModule, hid]

theorem Unflagged.acts {s' : CallStack} (h : Unflagged s.calls) (ha : s.Acts s') :
    Unflagged s'.calls := by
  cases ha with
  | push name caller entry source =>
    have hnew : ∀ b ∈ SymbolTable.empty.bindings, b.isGlobal = false :=
      fun b hb => absurd hb List.not_mem_nil
    exact List.forall_mem_cons.2 ⟨hnew, h⟩
  | pop => exact fun c hc => h c (List.mem_of_mem_tail hc)
  | assign id name v declared =>
    unfold CallStack.assign
    split
    · exact h
    next hw => exact h.setAt id name v (not_declared_of_not_writesModule hw)
  | bind id name v => exact h.setAt id name v fun _ => rfl
  | setSource => exact h

/-- **A global name of the module stays global**, whatever is done. -/
theorem Acts.keeps_global {s' : CallStack} (ha : s.Acts s')
    (h : s.module.symbols.isGlobal name = true) : s'.module.symbols.isGlobal name = true := by
  have hsetAt (id : Nat) (name' : String) (v : Value) (isGlobal : Bool) :
      (s.setAt id name' v isGlobal).module.symbols.isGlobal name = true := by
    unfold setAt
    split
    · exact SymbolTable.isGlobal_set h name' v isGlobal
    · exact h
  cases ha with
  | assign id name' v declared =>
    unfold CallStack.assign
    split
    · exact SymbolTable.isGlobal_set h name' v true
    · exact hsetAt id name' v declared
  | bind id name' v => exact hsetAt id name' v false
  | push | pop | setSource => exact h

/-! ## The module and the calls -/

/-- **A stack in order**: zero is the module's number and no call's, every other number
is that of a call that was entered from a scope below it, and no call holds a global
name. -/
structure Sound (s : CallStack) : Prop where
  name : s.module.name = moduleName
  module : s.call? 0 = none ∧ s.scope 0 = s.module
  entered : ∀ id, s.Live id → id ≠ 0 →
    ∃ c, s.call? id = some c ∧ s.Live c.caller ∧ c.caller < id
  unflagged : ∀ id c, s.call? id = some c → ∀ b ∈ c.scope.symbols.bindings, b.isGlobal = false

/-- Zero is no call's number. -/
theorem Numbered.call?_zero {cs : List Call} (h : Numbered cs) (module : Scope) :
    (⟨module, cs⟩ : CallStack).call? 0 = none := by
  induction h with
  | nil => rfl
  | cons hn _ _ ih =>
    rw [call?_cons_of_ne (by omega)]
    exact ih

/-- Every other number up to that of calls is a call's. -/
theorem Numbered.exists_call? {cs : List Call} (h : Numbered cs) (module : Scope)
    (hid : id ≤ cs.length) (hpos : id ≠ 0) :
    ∃ c, (⟨module, cs⟩ : CallStack).call? id = some c ∧ c.caller < id := by
  induction h with
  | nil => exact absurd (Nat.le_zero.1 hid) hpos
  | @cons c cs hn hle _ ih =>
    by_cases hc : c.number = id
    · exact ⟨c, call?_cons_self hc, by omega⟩
    · rw [List.length_cons] at hid
      rw [call?_cons_of_ne hc]
      exact ih (by omega)

/-- The module has its name. -/
theorem Reached.name_module (h : s.Reached) : s.module.name = moduleName := by
  have hsetAt (s : CallStack) (id : Nat) (name : String) (v : Value) (isGlobal : Bool) :
      (s.setAt id name v isGlobal).module.name = s.module.name := by
    unfold setAt
    split <;> rfl
  induction h with
  | start => rfl
  | push _ _ _ _ _ _ ih => exact ih
  | pop _ ih => exact ih
  | @assign s id name v declared _ _ ih =>
    unfold CallStack.assign
    split
    · exact ih
    · exact (hsetAt s id name v declared).trans ih
  | @bind s id name v _ _ ih => exact (hsetAt s id name v false).trans ih
  | setSource _ _ ih => exact ih

theorem Reached.unflagged (h : s.Reached) : Unflagged s.calls := by
  induction h with
  | start => exact fun c hc => absurd hc List.not_mem_nil
  | push name caller entry source _ hl ih => exact ih.acts (.push name caller entry source hl)
  | pop _ ih => exact ih.acts .pop
  | assign id name v declared _ hl ih => exact ih.acts (.assign id name v declared hl)
  | bind id name v _ hl ih => exact ih.acts (.bind id name v hl)
  | setSource source _ ih => exact ih.acts (.setSource source)

theorem Reached.sound (h : s.Reached) : s.Sound := by
  have hnumbered := h.numbered
  have hzero : s.call? 0 = none := hnumbered.call?_zero s.module
  refine ⟨h.name_module, ⟨hzero, ?_⟩, fun id hid hpos => ?_, fun id c hc => ?_⟩
  · rw [scope, hzero]
    rfl
  · obtain ⟨c, hc, hlt⟩ := hnumbered.exists_call? s.module hid hpos
    have hlive : c.caller ≤ s.depth := by
      have hle : id ≤ s.depth := hid
      omega
    exact ⟨c, hc, hlive, hlt⟩
  · exact h.unflagged c (List.mem_of_find?_eq_some hc)

/-! ## The way out -/

/-- **The way from a scope out to the module**: the calls on it, each followed by those
on the way from where it was entered. -/
inductive WayOut (s : CallStack) : Nat → List Call → Prop where
  | module : WayOut s 0 []
  | call {id : Nat} {c : Call} {cs : List Call} :
      s.call? id = some c → WayOut s c.caller cs → WayOut s id (c :: cs)

/-- The frames of calls and of the module behind them, the innermost first, where the
innermost has come to a position. -/
def framesAlong (module : Scope) : Position → List Call → List Frame
  | p, [] => [.at module.source module.name p]
  | p, c :: cs => .at c.scope.source c.scope.name p :: framesAlong module c.entry cs

/-- There is at most one way out. -/
theorem WayOut.unique {way way' : List Call} (h : s.WayOut id way) (h' : s.WayOut id way')
    (hzero : s.call? 0 = none) : way = way' := by
  induction h generalizing way' with
  | module =>
    cases h' with
    | module => rfl
    | call hc => cases hzero.symm.trans hc
  | @call id c cs hc _ ih =>
    cases h' with
    | module => cases hzero.symm.trans hc
    | @call _ c' cs' hc' h' =>
      obtain rfl : c = c' := Option.some.inj (hc.symm.trans hc')
      rw [ih h']

/-- A call further in is on no way out from below it. -/
theorem Numbered.wayOut_cons {cs : List Call} {c : Call} {module : Scope} {way : List Call}
    (h : Numbered cs) (hn : c.number = cs.length + 1) (hid : id ≤ cs.length)
    (hw : (⟨module, cs⟩ : CallStack).WayOut id way) :
    (⟨module, c :: cs⟩ : CallStack).WayOut id way := by
  induction hw with
  | module => exact .module
  | call hc _ ih => exact .call ((call?_cons_of_ne (by omega)).trans hc) (ih (h.caller_le hc))

/-- **From every scope there is a way out**, and it is the one that names are looked up
and frames are taken on. -/
theorem Numbered.exists_wayOut {cs : List Call} (h : Numbered cs) (module : Scope)
    (hid : id ≤ cs.length) :
    ∃ way, (⟨module, cs⟩ : CallStack).WayOut id way ∧
      (∀ name, lookupIn name id cs = way.findSome? fun c => c.scope.symbols.get? name) ∧
      ∀ p, framesIn module id p cs = framesAlong module p way := by
  induction h generalizing id with
  | nil =>
    obtain rfl : id = 0 := Nat.le_zero.1 hid
    exact ⟨[], .module, fun _ => rfl, fun _ => rfl⟩
  | @cons c cs hn hle h ih =>
    by_cases hc : c.number = id
    · obtain ⟨way, hway, hlookup, hframes⟩ := ih hle
      refine ⟨c :: way, .call (call?_cons_self hc) (h.wayOut_cons hn hle hway), ?_, ?_⟩
      · intro name
        rw [lookupIn, if_pos hc, List.findSome?_cons, hlookup name]
        cases c.scope.symbols.get? name <;> rfl
      · intro p
        rw [framesIn, if_pos hc, framesAlong, hframes c.entry]
    · have hlt : id ≤ cs.length := by
        rw [List.length_cons] at hid
        omega
      obtain ⟨way, hway, hlookup, hframes⟩ := ih hlt
      refine ⟨way, h.wayOut_cons hn hlt hway, ?_, ?_⟩
      · intro name
        rw [lookupIn, if_neg hc, hlookup name]
      · intro p
        rw [framesIn, if_neg hc, hframes p]

/-! ## Assignments -/

/-- The number of the scope that an assignment writes to: the module's where a function
declares the name global, or has no name like it and the module's is global. -/
def assignee (s : CallStack) (id : Nat) (name : String) (declared : Bool) : Nat :=
  if id ≠ 0 ∧ (declared = true ∨
      s.module.symbols.isGlobal name = true ∧ (s.scope id).symbols.contains name = false) then 0
  else id

/-- **One binding of one table is written**, that of a name in the scope `target`, and
nothing else is changed. -/
structure WritesOne (s s' : CallStack) (target : Nat) (name : String) (v : Value)
    (isGlobal : Bool) : Prop where
  depth : s'.depth = s.depth
  calls : ∀ id, (s'.call? id).map (fun c => (c.caller, c.entry)) =
    (s.call? id).map fun c => (c.caller, c.entry)
  others : ∀ id, s.Live id → id ≠ target → s'.scope id = s.scope id
  written : s'.scope target = { s.scope target with symbols := (s'.scope target).symbols }
  bindings : SymbolTable.Rewritten name v isGlobal (s.scope target).symbols.bindings
    (s'.scope target).symbols.bindings

theorem writesModule_iff {declared : Bool} : s.writesModule id name declared = true ↔
    id ≠ 0 ∧ (declared = true ∨
      s.module.symbols.isGlobal name = true ∧ (s.scope id).symbols.contains name = false) := by
  simp only [writesModule, Bool.and_eq_true, Bool.or_eq_true, bne_iff_ne, Bool.not_eq_true']
  rw [and_comm (a := (s.scope id).symbols.contains name = false)]

/-- Writing to the module writes one binding of its table. -/
theorem Sound.setInModule (h : s.Sound) (name : String) (v : Value) (isGlobal : Bool) :
    s.WritesOne (s.setInModule name v isGlobal) 0 name v isGlobal := by
  have hcall (id : Nat) : (s.setInModule name v isGlobal).call? id = s.call? id := rfl
  have hzero : (s.setInModule name v isGlobal).scope 0 =
      { s.module with symbols := s.module.symbols.set name v isGlobal } := by
    rw [scope, hcall, h.module.1]
    rfl
  refine ⟨rfl, fun _ => rfl, fun id hid hne => ?_, ?_, ?_⟩
  · obtain ⟨c, hc, -⟩ := h.entered id hid hne
    rw [scope, scope, hcall, hc]
    rfl
  · rw [hzero, h.module.2]
  · rw [hzero, h.module.2]
    exact s.module.symbols.rewritten_set name v isGlobal

/-- And writing to a scope one of its own. -/
theorem Sound.setAt (h : s.Sound) (hid : s.Live id) (name : String) (v : Value)
    (isGlobal : Bool) : s.WritesOne (s.setAt id name v isGlobal) id name v isGlobal := by
  unfold CallStack.setAt
  split
  next hzero =>
    subst hzero
    exact h.setInModule name v isGlobal
  next hpos =>
    obtain ⟨c, hc, -⟩ := h.entered id hid hpos
    let s' : CallStack := { s with calls := setIn id name v isGlobal s.calls }
    have hcall (other : Nat) : s'.call? other =
        if other = id then (s.call? id).map (·.write name v isGlobal) else s.call? other :=
      call?_setIn s.module s.calls id other name v isGlobal
    have hscope : s.scope id = c.scope := by
      rw [scope, hc]
      rfl
    have hwritten : s'.scope id = (c.write name v isGlobal).scope := by
      rw [scope, hcall, if_pos rfl, hc]
      rfl
    refine ⟨length_setIn id name v isGlobal s.calls, fun other => ?_, fun other _ hne => ?_, ?_, ?_⟩
    · change (s'.call? other).map _ = _
      rw [hcall]
      split
      next ho => rw [ho, Option.map_map]; rfl
      next => rfl
    · change s'.scope other = s.scope other
      rw [scope, hcall, if_neg hne]
      rfl
    · change s'.scope id = { s.scope id with symbols := (s'.scope id).symbols }
      rw [hwritten, hscope]
      rfl
    · change SymbolTable.Rewritten _ _ _ _ (s'.scope id).symbols.bindings
      rw [hwritten, hscope]
      exact c.scope.symbols.rewritten_set name v isGlobal

/-- **An assignment writes one binding** of the table that it goes to. -/
theorem Sound.assign (h : s.Sound) (hid : s.Live id) (name : String) (v : Value)
    (declared : Bool) :
    s.WritesOne (s.assign id name v declared) (s.assignee id name declared) name v
      (declared || s.assignee id name declared != id) := by
  unfold CallStack.assign assignee
  by_cases hw : s.writesModule id name declared = true
  · have hmodule := writesModule_iff.1 hw
    have hflag : (declared || 0 != id) = true := by simp [hmodule.1.symm]
    rw [if_pos hw, if_pos hmodule, hflag]
    exact h.setInModule name v true
  · rw [if_neg hw, if_neg fun hmodule => hw (writesModule_iff.2 hmodule), bne_self_eq_false,
      Bool.or_false]
    exact h.setAt hid name v declared

/-! ## Every stack that comes about -/

/-- **What holds of every stack that comes about.** The module is there, with its name,
and was entered from nowhere; every other scope was entered from one that is there and
below it, and holds no global name. From each there is one way out to the module, and
names are looked up and frames are taken on it. Whatever is done next, a name of the
module that is global stays so. And an assignment writes one binding of one table, the
module's where a function declares the name global, or has no name like it and the
module's is global, and the scope's own otherwise. -/
theorem Reached.invariant (h : s.Reached) :
    s.Sound ∧
    (∀ id, s.Live id → ∃ way, (∀ way', s.WayOut id way' ↔ way' = way) ∧
      (∀ name, s.lookup id name =
        (way.map Call.scope ++ [s.module]).findSome? fun scope => scope.symbols.get? name) ∧
      ∀ p, s.frames id p = (framesAlong s.module p way).reverse) ∧
    (∀ s', Relation.ReflTransGen Acts s s' → s'.Reached ∧
      ∀ name, s.module.symbols.isGlobal name = true → s'.module.symbols.isGlobal name = true) ∧
    ∀ id name v declared, s.Live id →
      s.WritesOne (s.assign id name v declared) (s.assignee id name declared) name v
        (declared || s.assignee id name declared != id) := by
  have hsound := h.sound
  refine ⟨hsound, fun id hid => ?_, fun s' hs => ?_, fun id name v declared hid => ?_⟩
  · obtain ⟨way, hway, hlookup, hframes⟩ := h.numbered.exists_wayOut s.module hid
    refine ⟨way, fun way' => ⟨fun hw => hw.unique hway hsound.module.1, ?_⟩, ?_, ?_⟩
    · rintro rfl
      exact hway
    · intro name
      rw [lookup, hlookup name, List.findSome?_append, List.findSome?_map]
      change _ = (way.findSome? fun c => c.scope.symbols.get? name).or _
      cases way.findSome? fun c => c.scope.symbols.get? name <;> simp
    · intro p
      rw [frames, hframes p]
  · induction hs with
    | refl => exact ⟨h, fun _ hn => hn⟩
    | tail _ ha ih => exact ⟨ih.1.acts ha, fun name hn => ha.keeps_global (ih.2 name hn)⟩
  · exact hsound.assign hid name v declared

/-- The inner of two calls assigns a name that it declares global, and the outer one
keeps its own. -/
theorem invariant_inner :
    inner.Reached ∧ inner.Live 2 ∧ inner.assignee 2 "x" true = 0 ∧
      (inner.assign 2 "x" (.boolean true) true).scope 1 = inner.scope 1 := by
  have hlive : inner.Live 2 := by decide
  have htarget : inner.assignee 2 "x" true = 0 := if_pos ⟨by decide, .inl rfl⟩
  obtain ⟨-, -, -, hassign⟩ := reached_inner.invariant
  have hone := hassign 2 "x" (.boolean true) true hlive
  rw [htarget] at hone
  exact ⟨reached_inner, hlive, htarget, hone.others 1 (by decide) (by decide)⟩

end CallStack

end HotkeyScript
