import HotkeyScript.Proofs.Plan.Halting
import HotkeyScript.Proofs.Scope.Binding
/-!
# Functions keep to their own names

What is evaluated in a function writes names in three places: in the scope of
the function, in the scopes of calls that it enters, and in the module where a
name is global. The calls between the module and the function are left as they
were, and so is every name that the module holds without the flag
(`Machine.Isolated`). Failing is no exception, though the calls that failed are
left open above the function.
-/

namespace HotkeyScript

namespace Machine

/-- **What a function may have done to its machine.** The calls below the
function are the same, the function's own call is the same but for its names,
and the module differs in global names only. -/
structure Isolated (m n : Machine) : Prop where
  calls : ∃ above f, n.stack.calls = above ++ f :: m.stack.calls.tail ∧
    m.stack.calls.head?.map Call.bare = some f.bare
  module : m.stack.module.symbols.GlobalsOnly n.stack.module.symbols

/-- In a function some call is under way. -/
theorem exists_innermost {m : Machine} (h : m.stack.current ≠ 0) :
    ∃ c cs, m.stack.calls = c :: cs := by
  cases hs : m.stack.calls with
  | nil => exact absurd (by rw [CallStack.current, hs]) h
  | cons c cs => exact ⟨c, cs, rfl⟩

/-! ## The module -/

/-- From a function no action writes an unflagged name of the module. -/
theorem Changes.globalsOnly {m n : Machine} (h : m.Changes n) (hf : m.stack.current ≠ 0) :
    m.stack.module.symbols.GlobalsOnly n.stack.module.symbols := by
  cases h with
  | assign name v isGlobal =>
    change m.stack.module.symbols.GlobalsOnly
      (m.stack.assign m.stack.current name v isGlobal).module.symbols
    unfold CallStack.assign
    split
    · exact m.stack.module.symbols.globalsOnly_set name v
    · rw [CallStack.setAt, if_neg hf]
      exact .refl _
  | declare name params body =>
    change m.stack.module.symbols.GlobalsOnly
      (m.stack.setAt m.stack.current name (.function ⟨m.heap.functions.size⟩) false).module.symbols
    rw [CallStack.setAt, if_neg hf]
    exact .refl _
  | nothing | objects | echo | present => exact .refl _

/-- An entered call is a function. -/
theorem current_entered_ne (m : Machine) (f : Function) (args : List Value) (entry : Position) :
    (m.entered f args entry).stack.current ≠ 0 := by
  rw [(m.entered_stack f args entry).1.current_eq]
  exact Nat.succ_ne_zero _

end Machine

/-- **Plans of a function write global names of the module only.** -/
theorem Plan.Ends.globalsOnly {α : Type} {p : Plan α} {m : Machine} {r : Result α}
    (h : p.Ends m r) (hf : m.stack.current ≠ 0) :
    m.stack.module.symbols.GlobalsOnly (Result.machine r).stack.module.symbols := by
  induction h with
  | done => exact .refl _
  | @act _ op m => exact (op.changes m).globalsOnly hf
  | job _ ih => exact ih hf
  | @next _ _ first next m m' b r h _ ih ih' =>
    -- the second part is in the function that the first part left innermost
    have hl : m.Level m' := h.kept
    exact (ih hf).trans (ih' (hl.stack.current_eq ▸ hf))
  | stop _ ih => exact ih hf
  | refused => exact .refl _
  | @returned f args site m m' ending _ _ ih =>
    have hm := ih (m.current_entered_ne f args site.start)
    rw [(m.entered_stack f args site.start).2] at hm
    change m.stack.module.symbols.GlobalsOnly m'.left.stack.module.symbols
    rw [Machine.module_left]
    exact hm
  | @failed f args site m m' e _ _ ih =>
    have hm := ih (m.current_entered_ne f args site.start)
    rw [(m.entered_stack f args site.start).2] at hm
    exact hm

/-! ## Functions -/

theorem Plan.Ends.isolated {α : Type} {p : Plan α} {m : Machine} {r : Result α}
    (h : p.Ends m r) (hf : m.stack.current ≠ 0) : m.Isolated (Result.machine r) := by
  refine ⟨?_, h.globalsOnly hf⟩
  obtain ⟨c, cs, hc⟩ := Machine.exists_innermost hf
  have hk := h.kept
  rw [hc]
  cases r with
  | ok a n =>
    obtain ⟨f, hn, hb⟩ := hk.stack.exists_cons hc
    exact ⟨[], f, hn, congrArg some hb.symm⟩
  | error e n =>
    obtain ⟨base, above, hl, rfl⟩ := hk
    obtain ⟨f, hn, hb⟩ := hl.stack.exists_cons hc
    exact ⟨above, f, congrArg (above ++ ·) hn, congrArg some hb.symm⟩

/-- **Functions keep to their own names.** On every machine on which a
function is under way, evaluating an expression and running a statement,
whether they succeed or fail and whatever they call, leaves the calls below
the function as they were, and in the module every name that is not global
afterwards is what it was. -/
theorem isolated_in_function {m : Machine} (hf : m.stack.current ≠ 0) :
    (∀ e : Expr, m.Isolated (Result.machine (e.eval (callAt m.callsLeft) m))) ∧
      ∀ s : Stmt, m.Isolated (Result.machine (s.run (callAt m.callsLeft) m)) := by
  constructor
  · intro e
    have he : (Plan.job (.expr e)).Ends m (e.eval (callAt m.callsLeft) m) := Job.ends_iff.2 rfl
    exact he.isolated hf
  · intro s
    have hs : (Plan.job (.stmt s)).Ends m (s.run (callAt m.callsLeft) m) := Job.ends_iff.2 rfl
    exact hs.isolated hf

/-- A machine on which `f` was called from `g`, which was called from the module: the
module has a name without the flag, `g` has a name of its own, and `f` has done nothing
yet. -/
def Machine.inInnerCall : Machine where
  settings := {}
  accepts := fun _ => true
  stack :=
    let source : Source := ⟨"calls", "g()"⟩
    let outer := ((CallStack.start source).bind 0 "y" (.boolean false)).push "g" 0 .start source
    (outer.bind 1 "x" (.boolean false)).push "f" 1 .start source

/-- A global assignment in the inner call keeps to this: the call in between has its own
name as it was, and so has the module the one without the flag. But the name reaches the
module. -/
theorem isolated_global_assignment :
    let m := Machine.inInnerCall
    let r := (Stmt.assign ⟨"x", default⟩ (.boolean true default) true default).run
      (callAt m.callsLeft) m
    m.stack.current ≠ 0 ∧ m.Isolated (Result.machine r) ∧
      m.stack.calls.tail.map (fun c => c.scope.symbols.bindings) =
        [[⟨"x", .boolean false, false⟩]] ∧
      (Result.machine r).stack.calls.tail = m.stack.calls.tail ∧
      (Result.machine r).stack.module.symbols.bindings =
        [⟨"y", .boolean false, false⟩, ⟨"x", .boolean true, true⟩] := by
  intro m r
  have hf : m.stack.current ≠ 0 := by decide
  exact ⟨hf, (isolated_in_function hf).2 _, by decide +kernel, rfl, by decide +kernel⟩

end HotkeyScript
