import HotkeyScript.Proofs.Plan.Clause
import HotkeyScript.Proofs.Plan.Level
import Mathlib.Logic.Relation
/-!
# Plans — the points of a run

A run goes from point to point: into the parts of what it carries out, from one
part to the next behind it, and into the bodies of the functions that it calls
(`Point.Step`). A point knows the calls that were entered on the way to it, and
the machine's stack has just those, each entered from the scope below it
(`Point.Sound`). Every error is raised at a point, on the machine that the run
then leaves (`Plan.Ends.exists_raises`), so its frames are those of that point
(`Point.Sound.frames_eq`).
-/

namespace HotkeyScript

/-- A call that was entered: the function, and where it was called. -/
structure Entered where
  function : Function
  site : Span

/-- **A point of a run**: what is to be carried out there, the machine, the calls
under way with the innermost first, and the number of the scope whose code it
is. -/
structure Point where
  {α : Type}
  plan : Plan α
  machine : Machine
  live : List Entered
  scope : Nat

namespace Point

/-- The point at which the module is to carry out a plan. -/
def rest {α : Type} (p : Plan α) (m : Machine) : Point := ⟨p, m, [], 0⟩

/-- **How a run goes on** from a point. -/
inductive Step : Point → Point → Prop where
  | job {α : Type} {j : Job α} {m : Machine} {live : List Entered} {scope : Nat} :
      Step ⟨.job j, m, live, scope⟩ ⟨j.plan, m, live, scope⟩
  | first {α β : Type} {first : Plan β} {next : β → Plan α} {m : Machine} {live : List Entered}
      {scope : Nat} :
      Step ⟨.andThen first next, m, live, scope⟩ ⟨first, m, live, scope⟩
  | next {α β : Type} {first : Plan β} {next : β → Plan α} {m n : Machine} {b : β}
      {live : List Entered} {scope : Nat} :
      first.Ends m (.ok b n) →
      Step ⟨.andThen first next, m, live, scope⟩ ⟨next b, n, live, scope⟩
  /-- The body of a function runs in the scope that is made for the call. -/
  | body {f : Function} {args : List Value} {site : Span} {m : Machine} {live : List Entered}
      {scope : Nat} :
      m.stack.depth < m.settings.maxCallDepth →
      Step ⟨.call f args site, m, live, scope⟩
        ⟨.job (.block f.body), m.entered f args site.start, ⟨f, site⟩ :: live, m.stack.depth + 1⟩

/-- A run that is at the one point comes to the other. -/
def ComesTo : Point → Point → Prop := Relation.ReflTransGen Step

/-! ## Where errors are raised -/

/-- **A point at which an error is raised**: its action fails, or its call is
refused. -/
inductive Raises : Point → Error → Prop where
  | act {α : Type} {op : Op α} {m n : Machine} {e : Error} {live : List Entered} {scope : Nat} :
      op.run m = .error e n → Raises ⟨.act op, m, live, scope⟩ e
  | refused {f : Function} {args : List Value} {site : Span} {m n : Machine} {e : Error}
      {live : List Entered} {scope : Nat} :
      m.settings.maxCallDepth ≤ m.stack.depth →
      (Machine.fail (.callDepth m.settings.maxCallDepth) site m : Result Value) = .error e n →
      Raises ⟨.call f args site, m, live, scope⟩ e

end Point

/-- **An action that fails** changes nothing, its error has the frames of the
innermost scope, and if it keeps to some terms it does not fail for the calls
under way. -/
theorem Op.of_run_error {α : Type} {op : Op α} {m n : Machine} {e : Error}
    (h : op.run m = .error e n) :
    n = m ∧ ∃ fault,
      e = ⟨.runtime fault, e.span, m.stack.frames m.stack.current e.span.start⟩ ∧
      ∀ t, op.Plain t → fault.isCut = false := by
  cases op with
  | ask span question =>
    simp only [Op.run, Machine.ask, Machine.orFail] at h
    cases hq : question m.heap with
    | ok a => rw [hq] at h; cases h
    | error fault =>
      rw [hq] at h
      cases h
      refine ⟨rfl, fault, rfl, fun t hp => ?_⟩
      have hu : Uncut (question m.heap) := hp m.heap
      rw [hq] at hu
      cases hu with
      | error hf => exact hf
  | store object key value span =>
    simp only [Op.run, Machine.store] at h
    cases hs : m.heap.set object key value with
    | ok heap => rw [hs] at h; cases h
    | error fault =>
      rw [hs] at h
      cases h
      refine ⟨rfl, fault, rfl, fun _ _ => ?_⟩
      have hu := (m.heap.ofValues_set object key value).uncut
      rw [hs] at hu
      cases hu with
      | error hf => exact hf
  | _ => cases h

namespace Point.Raises

variable {b : Point} {e : Error}

/-- The frames of an error are those of the innermost scope where it is
raised. -/
theorem exists_fault (h : b.Raises e) : ∃ fault, e = ⟨.runtime fault, e.span,
    b.machine.stack.frames b.machine.stack.current e.span.start⟩ := by
  cases h with
  | act h =>
    obtain ⟨-, fault, he, -⟩ := Op.of_run_error h
    exact ⟨fault, he⟩
  | refused _ h => cases h; exact ⟨_, rfl⟩

/-- Only a call that is refused fails for the calls under way, which are then as
many as may be. -/
theorem limit_le_depth (h : b.Raises e) {t : Plan.Terms} (hc : b.plan.Clause t) {k : Nat}
    (he : e.cause = .runtime (.callDepth k)) :
    b.machine.settings.maxCallDepth = k ∧ k ≤ b.machine.stack.depth := by
  cases h with
  | act h =>
    obtain ⟨-, fault, hf, hu⟩ := Op.of_run_error h
    rw [hf] at he
    cases hc with
    | act hp =>
      cases he
      cases hu t hp
  | refused hd h =>
    cases h
    cases he
    exact ⟨rfl, hd⟩

end Point.Raises

/-- **Every error is raised at a point** that the run comes to, and is left with
the machine of that point. -/
theorem Plan.Ends.exists_raises {α : Type} {p : Plan α} {m n : Machine} {e : Error}
    (h : p.Ends m (.error e n)) (live : List Entered) (scope : Nat) :
    ∃ b : Point, Point.ComesTo ⟨p, m, live, scope⟩ b ∧ b.Raises e ∧ b.machine = n := by
  generalize hr : (.error e n : Result α) = r at h
  induction h generalizing live scope with
  | done | returned => cases hr
  | @act _ op m =>
    obtain ⟨rfl, -⟩ := Op.of_run_error hr.symm
    exact ⟨⟨.act op, n, live, scope⟩, .refl, .act hr.symm, rfl⟩
  | job _ ih =>
    obtain ⟨b, hb, he⟩ := ih live scope hr
    exact ⟨b, .head .job hb, he⟩
  | next h _ _ ih =>
    obtain ⟨b, hb, he⟩ := ih live scope hr
    exact ⟨b, .head (.next h) hb, he⟩
  | stop _ ih =>
    cases hr
    obtain ⟨b, hb, he⟩ := ih live scope rfl
    exact ⟨b, .head .first hb, he⟩
  | @refused f args site m hd =>
    refine ⟨⟨.call f args site, m, live, scope⟩, .refl, .refused hd hr.symm, ?_⟩
    cases hr
    rfl
  | failed hd _ ih =>
    cases hr
    obtain ⟨b, hb, he⟩ := ih _ _ rfl
    exact ⟨b, .head (.body hd) hb, he⟩

/-! ## The stack at a point -/

/-- The call of a stack with `below` others below it that was entered so. -/
structure Call.Of (c : Call) (below : Nat) (e : Entered) : Prop where
  number : c.number = below + 1
  caller : c.caller = below
  name : c.scope.name = e.function.name
  source : c.scope.source = e.function.source
  entry : c.entry = e.site.start

/-- The names that a call holds do not matter to it. -/
theorem Call.Of.of_bare_eq {c c' : Call} {below : Nat} {e : Entered} (h : c.Of below e)
    (hb : c'.bare = c.bare) : c'.Of below e := by
  have hn : c'.bare.number = c.bare.number := by rw [hb]
  have hc : c'.bare.caller = c.bare.caller := by rw [hb]
  have hs : c'.bare.scope.name = c.bare.scope.name := by rw [hb]
  have ht : c'.bare.scope.source = c.bare.scope.source := by rw [hb]
  have he : c'.bare.entry = c.bare.entry := by rw [hb]
  exact ⟨hn.trans h.number, hc.trans h.caller, hs.trans h.name, ht.trans h.source, he.trans h.entry⟩

namespace Entered

/-- The calls of a stack are those that were entered, each from the scope below
it. -/
inductive OnStack : List Entered → List Call → Prop where
  | nil : OnStack [] []
  | cons {e : Entered} {es : List Entered} {c : Call} {cs : List Call} :
      c.Of cs.length e → OnStack es cs → OnStack (e :: es) (c :: cs)

theorem OnStack.length_eq {es : List Entered} {cs : List Call} (h : OnStack es cs) :
    cs.length = es.length := by
  induction h with
  | nil => rfl
  | cons _ _ ih => rw [List.length_cons, List.length_cons, ih]

/-- The number of the innermost scope is the number of calls. -/
theorem OnStack.current_eq {es : List Entered} {cs : List Call} (h : OnStack es cs)
    (module : Scope) : (⟨module, cs⟩ : CallStack).current = cs.length := by
  cases h with
  | nil => rfl
  | cons hc _ => exact hc.number

theorem OnStack.drop {es : List Entered} {cs : List Call} (h : OnStack es cs) (k : Nat) :
    OnStack (es.drop k) (cs.drop k) := by
  induction h generalizing k with
  | nil => cases k <;> exact .nil
  | cons hc hs ih =>
    cases k with
    | zero => exact .cons hc hs
    | succ k => exact ih k

/-- The frames of the calls and of the module, the innermost first, where the
innermost has come to a position. -/
def frames (script : Source) : Position → List Entered → List Frame
  | p, [] => [.at script moduleName p]
  | p, e :: es => .at e.function.source e.function.name p :: frames script e.site.start es

/-- The stack's frames are those of the calls that were entered. -/
theorem OnStack.framesIn_eq {es : List Entered} {cs : List Call} (h : OnStack es cs)
    (script : Source) (symbols : SymbolTable) (p : Position) :
    CallStack.framesIn ⟨moduleName, script, symbols⟩ cs.length p cs = frames script p es := by
  induction h generalizing p with
  | nil => rfl
  | @cons e es c cs hc hs ih =>
    rw [CallStack.framesIn, List.length_cons, if_pos hc.number, hc.caller, hc.entry, hc.source,
      hc.name, ih, frames]

end Entered

/-- **What holds at the points of a run** of a script under a limit: the module
is the script's, the stack has the calls that were entered on the way, the code
is that of the innermost scope, and no more calls are under way than may be. -/
structure Point.Sound (script : Source) (limit : Nat) (b : Point) : Prop where
  name : b.machine.stack.module.name = moduleName
  source : b.machine.stack.module.source = script
  maxCalls : b.machine.settings.maxCallDepth = limit
  onStack : Entered.OnStack b.live b.machine.stack.calls
  scope : b.scope = b.live.length
  few : b.live.length ≤ limit

namespace Point

variable {script : Source} {limit : Nat} {α β : Type} {p : Plan α} {q : Plan β} {m n : Machine}
  {live : List Entered} {scope : Nat}

/-- It holds of every plan on a level machine. -/
theorem Sound.level (h : (⟨p, m, live, scope⟩ : Point).Sound script limit) (hl : m.Level n) :
    (⟨q, n, live, scope⟩ : Point).Sound script limit := by
  have hn : n.stack.module.bare.name = m.stack.module.bare.name := by rw [hl.stack.module]
  have hs : n.stack.module.bare.source = m.stack.module.bare.source := by rw [hl.stack.module]
  have hm : n.settings.maxCallDepth = m.settings.maxCallDepth := congrArg _ hl.settings
  refine ⟨hn.trans h.name, hs.trans h.source, hm.trans h.maxCalls, ?_, h.scope, h.few⟩
  have ho : Entered.OnStack live m.stack.calls := h.onStack
  generalize hc : m.stack.calls = calls at ho
  cases ho with
  | nil =>
    change Entered.OnStack [] n.stack.calls
    rw [hl.stack.nil_iff.2 hc]
    exact .nil
  | cons hof hos =>
    obtain ⟨c', hn, hb⟩ := hl.stack.exists_cons hc
    change Entered.OnStack _ n.stack.calls
    rw [hn]
    exact .cons (hof.of_bare_eq hb) hos

/-- It holds of a body where it holds of the call. -/
theorem Sound.enter (h : (⟨p, m, live, scope⟩ : Point).Sound script limit)
    (hd : m.stack.depth < m.settings.maxCallDepth) (f : Function) (args : List Value)
    (site : Span) :
    (⟨q, m.entered f args site.start, ⟨f, site⟩ :: live, m.stack.depth + 1⟩ : Point).Sound
      script limit := by
  have hlen : m.stack.calls.length = live.length := h.onStack.length_eq
  have hcur : m.stack.current = m.stack.calls.length := h.onStack.current_eq m.stack.module
  obtain ⟨hl, hm⟩ := m.entered_stack f args site.start
  obtain ⟨c, hc, hb⟩ := hl.exists_cons rfl
  have hof : Call.Of ⟨⟨f.name, f.source, .empty⟩, m.stack.calls.length + 1, m.stack.current,
      site.start⟩ m.stack.calls.length ⟨f, site⟩ := ⟨rfl, hcur, rfl, rfl, rfl⟩
  refine ⟨(congrArg _ hm).trans h.name, (congrArg _ hm).trans h.source, h.maxCalls, ?_, ?_, ?_⟩
  · change Entered.OnStack _ (m.entered f args site.start).stack.calls
    rw [hc]
    exact .cons (hof.of_bare_eq hb) h.onStack
  · exact congrArg (· + 1) hlen
  · have hlim : m.settings.maxCallDepth = limit := h.maxCalls
    rw [← hlim, List.length_cons, ← hlen]
    exact hd

variable {a b : Point}

/-- **A run goes on from sound points to sound points.** -/
theorem Step.sound (h : Step a b) (ha : a.Sound script limit) : b.Sound script limit := by
  cases h with
  | job | first => exact ha.level (.refl _)
  | next hp => exact ha.level hp.kept
  | body hd => exact ha.enter hd _ _ _

theorem ComesTo.sound (h : a.ComesTo b) (ha : a.Sound script limit) : b.Sound script limit := by
  induction h with
  | refl => exact ha
  | tail _ hs ih => exact hs.sound ih

/-- At a sound point as many calls are under way as were entered. -/
theorem Sound.depth_eq (h : b.Sound script limit) : b.machine.stack.depth = b.live.length :=
  h.onStack.length_eq

/-- And the code that runs is that of the innermost scope. -/
theorem Sound.current_eq (h : b.Sound script limit) : b.machine.stack.current = b.scope :=
  (h.onStack.current_eq b.machine.stack.module).trans (h.depth_eq.trans h.scope.symm)

/-- **The frames at a point** are those of the calls that were entered on the way
to it. -/
theorem Sound.frames_eq (h : b.Sound script limit) (p : Position) :
    b.machine.stack.frames b.machine.stack.current p =
      (Entered.frames script p b.live).reverse := by
  have hm : b.machine.stack.module = ⟨moduleName, script, b.machine.stack.module.symbols⟩ := by
    rw [← h.name, ← h.source]
  have hc : b.machine.stack.current = b.machine.stack.calls.length :=
    h.onStack.current_eq b.machine.stack.module
  rw [CallStack.frames, hm, hc, h.onStack.framesIn_eq]

/-- So are those of an error that is raised there. -/
theorem Sound.frames_of_raises (h : b.Sound script limit) {e : Error} (he : b.Raises e) :
    e.frames = (Entered.frames script e.span.start b.live).reverse := by
  obtain ⟨fault, he⟩ := he.exists_fault
  rw [he]
  exact h.frames_eq _

end Point

end HotkeyScript
