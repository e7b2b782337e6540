import HotkeyScript.Proofs.Session.History
/-!
# Tracebacks have the shape of the calls

At every moment of a session at most as many calls are under way as the settings
allow, and each was entered from the scope just below it. An error at run time
has one frame for the module and one for each call that was under way where it
was raised, named after the functions that were entered; a frame that entered
another is at the line of the call, and the last is at the line of the error.
-/

namespace HotkeyScript

/-! ## Stacks -/

/-- **Each call was entered from the scope just below it** and is numbered next
to it. -/
def CallStack.Nested (s : CallStack) : Prop :=
  ∀ above c below, s.calls = above ++ c :: below →
    c.number = below.length + 1 ∧ c.caller = (⟨s.module, below⟩ : CallStack).current

/-- Calls that were entered one inside the other are nested. -/
theorem Entered.OnStack.nested {es : List Entered} {s : CallStack}
    (h : Entered.OnStack es s.calls) : s.Nested := by
  intro above c below hs
  have hd := h.drop above.length
  rw [hs, List.drop_left] at hd
  cases he : es.drop above.length with
  | nil => rw [he] at hd; cases hd
  | cons e es' =>
    rw [he] at hd
    cases hd with
    | cons hc hbelow => exact ⟨hc.number, hc.caller.trans (hbelow.current_eq s.module).symm⟩

/-! ## Frames -/

namespace Entered

variable (script : Source)

theorem contexts_frames (p : Position) (es : List Entered) :
    (frames script p es).map Frame.context = es.map (·.function.name) ++ [moduleName] := by
  induction es generalizing p with
  | nil => rfl
  | cons e es ih => simp only [frames, List.map_cons, List.cons_append, ih, Frame.at]

theorem lines_frames (p : Position) (es : List Entered) :
    (frames script p es).map Frame.line = p.line :: es.map (·.site.start.line) := by
  induction es generalizing p with
  | nil => rfl
  | cons e es ih => simp only [frames, List.map_cons, ih, Frame.at]

end Entered

/-- **The shape of an error's traceback**, where some calls were under way with
the innermost first. -/
structure Error.ShapedBy (e : Error) (live : List Entered) : Prop where
  length : e.frames.length = live.length + 1
  contexts : e.frames.map Frame.context = moduleName :: live.reverse.map (·.function.name)
  lines : e.frames.map Frame.line =
    live.reverse.map (·.site.start.line) ++ [e.span.start.line]

/-- An error that is raised at a sound point has the shape of the calls there. -/
theorem Point.Sound.shapedBy {script : Source} {limit : Nat} {b : Point} {e : Error}
    (h : b.Sound script limit) (he : b.Raises e) : e.ShapedBy b.live := by
  have hf := h.frames_of_raises he
  have hc : e.frames.map Frame.context = moduleName :: b.live.reverse.map (·.function.name) := by
    rw [hf, List.map_reverse, Entered.contexts_frames, List.reverse_append, List.map_reverse]
    rfl
  refine ⟨?_, hc, ?_⟩
  · have hl := congrArg List.length hc
    rwa [List.length_map, List.length_cons, List.length_map, List.length_reverse] at hl
  · rw [hf, List.map_reverse, Entered.lines_frames, List.reverse_cons, List.map_reverse]

/-! ## Sessions -/

namespace Session

/-- **The moments of a session**: between two operations, and at the points that
an operation comes to, also while the calls under way are left. -/
inductive Moment (s : Session) (ops : List Operation) : Machine → Prop where
  | between {before after : List Operation} : ops = before ++ after →
      Moment s ops (s.performAll before).machine
  | during {script : Source} {b : Point} (k : Nat) : s.ComesTo ops script b →
      Moment s ops (b.machine.unwindBy k)

variable {s : Session} {before ops : List Operation} {op : Operation} {script : Source}

/-- The points that an operation starts from are lawful for the declarations of
its script, if the functions there are satisfactory. -/
theorem Starts.lawful {root : Point} (h : s.Starts before op script root) {K : Function → Prop}
    (hK : ∀ f ∈ root.machine.heap.functions, K f) :
    ∃ program, script.program = .ok program ∧
      root.Lawful (Stmt.declarationsOf program.statements) K root := by
  obtain @⟨program, stmt, m, -, -, hp, hs⟩ := h
  refine ⟨program, hp, .refl, .job fun d hd => ?_, hK, fun _ he => (List.not_mem_nil he).elim,
    trivial⟩
  exact Stmt.mem_declarationsOf hs.mem hd

/-- A property of every function is one of those that are made. -/
theorem makes_any (root : Point) (module : List Declaration) :
    root.Makes module fun _ => True :=
  ⟨trivial, fun _ _ _ _ _ _ _ _ _ => trivial⟩

/-- Each call under way at a point was entered where the operation had come to a
call in the scope below. -/
theorem exists_call_of_traced {root : Point} (hr : s.Starts before op script root)
    {above below : List Entered} {e : Entered} (h : root.Traced (above ++ e :: below)) :
    ∃ callee args m scope,
      s.Visits before op script ⟨.job (.expr (.call callee args e.site)), m, below, scope⟩ := by
  induction above with
  | nil =>
    obtain ⟨⟨callee, args, m, scope, hc⟩, -⟩ := h
    exact ⟨callee, args, m, scope, root, hr, hc⟩
  | cons _ _ ih => exact ih h.2

/-- Calls nest within the limit at every moment. -/
theorem Moment.nested {name : String} {settings : Settings} {accepts : Request → Bool}
    {m : Machine} (h : (start name settings accepts).Moment ops m) :
    m.stack.depth ≤ settings.maxCallDepth ∧ m.stack.Nested := by
  cases h with
  | @between before after =>
    have hr := atRest_performAll name settings accepts before
    constructor
    · rw [CallStack.depth, hr.calls]
      exact Nat.zero_le _
    · intro above c below hs
      rw [hr.calls] at hs
      cases above <;> cases hs
  | during k hb =>
    have hs := hb.sound
    have ho := hs.onStack.drop k
    rw [← Machine.calls_unwindBy] at ho
    refine ⟨?_, ho.nested⟩
    rw [CallStack.depth, ho.length_eq, List.length_drop]
    exact Nat.le_trans (Nat.sub_le _ k) hs.few

end Session

/-- **Tracebacks have the shape of the calls.** At every moment of a session the
calls are nested within the limit. An error at run time was raised at a point of
the run that it ended, by code of the innermost scope; it has a frame for the
module and one for each call that was under way there, which was entered at a
call in the scope below; and where it says that too many calls were under way,
these were as many as may be. -/
theorem traceback_shape (name : String) (settings : Settings) (accepts : Request → Bool)
    (ops : List Session.Operation) :
    let s := Session.start name settings accepts
    (∀ m, s.Moment ops m → m.stack.depth ≤ settings.maxCallDepth ∧ m.stack.Nested) ∧
    ∀ op e fault, (s.performAll ops).failure? op = some e → e.cause = .runtime fault →
      ∃ script b, op.text? = some script.text ∧ s.Visits ops op script b ∧ b.Raises e ∧
        Entered.OnStack b.live b.machine.stack.calls ∧ b.machine.stack.current = b.scope ∧
        e.ShapedBy b.live ∧
        (∀ above entered below, b.live = above ++ entered :: below → ∃ callee args m scope,
          s.Visits ops op script
            ⟨.job (.expr (.call callee args entered.site)), m, below, scope⟩) ∧
        ∀ k, fault = .callDepth k →
          k = settings.maxCallDepth ∧ e.frames.length = settings.maxCallDepth + 1 := by
  intro s
  refine ⟨fun m => Session.Moment.nested, fun op e fault hf he => ?_⟩
  obtain ⟨script, b, ht, -, ⟨root, hr, hb⟩, hraises⟩ := Session.exists_raises hf he
  have hs : b.Sound script settings.maxCallDepth := hb.sound hr.sound
  have hshape := hs.shapedBy hraises
  obtain ⟨program, -, hl⟩ := hr.lawful (K := fun _ => True) fun _ _ => trivial
  have hlb := hl.comesTo (Session.makes_any ..) hb
  refine ⟨script, b, ht, ⟨root, hr, hb⟩, hraises, hs.onStack, hs.current_eq, hshape, ?_, ?_⟩
  · intro above entered below hlive
    exact Session.exists_call_of_traced hr (hlive ▸ hlb.traced)
  · rintro k rfl
    obtain ⟨hk, hd⟩ := hraises.limit_le_depth hlb.clause he
    have hmax : k = settings.maxCallDepth := hk.symm.trans hs.maxCalls
    have hlive : b.live.length = settings.maxCallDepth :=
      Nat.le_antisymm hs.few (hs.depth_eq ▸ hmax ▸ hd)
    exact ⟨hmax, hshape.length.trans (congrArg (· + 1) hlive)⟩

/-- A function that calls itself is refused its third call where two may be under
way, and the traceback has a frame for each of them and one for the module. -/
theorem traceback_shape_endlessCalls :
    let s := Session.start "deep" { maxCallDepth := 2 } fun _ => true
    let op := .execute "f(n) \x7b\n  return f(n + 1)\n\x7d\nf(0)"
    ∃ e, (s.performAll [.setDebug true]).failure? op = some e ∧
      e.cause = .runtime (.callDepth 2) ∧
      (∃ live, live.length = 2 ∧ e.ShapedBy live) ∧ e.frames.length = 3 := by
  intro s op
  have hb : ((s.performAll [.setDebug true]).failure? op).any
      (fun e => e.cause == .runtime (.callDepth 2)) = true := by decide +kernel
  obtain ⟨e, hf, he⟩ := (Option.any_eq_true _ _).1 hb
  have he : e.cause = .runtime (.callDepth 2) := eq_of_beq he
  obtain ⟨script, b, -, -, -, -, -, hshape, -, hcut⟩ :=
    (traceback_shape "deep" { maxCallDepth := 2 } (fun _ => true) [.setDebug true]).2 op e _ hf he
  have hl : e.frames.length = 3 := (hcut 2 rfl).2
  exact ⟨e, hf, he, ⟨b.live, Nat.succ.inj (hshape.length.symm.trans hl), hshape⟩, hl⟩

end HotkeyScript
