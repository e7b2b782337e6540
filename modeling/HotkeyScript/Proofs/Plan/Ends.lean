import HotkeyScript.Proofs.Plan.Run
/-!
# Plans — how they end

`Plan.Ends` relates a plan and a machine to what carrying the plan out comes
to. It is the least relation that its rules give, so a plan that would go on
for ever ends with nothing. No rule counts steps: a call is refused when as
many calls are under way as the settings allow, and otherwise its function's
body is carried out, whatever it is.

`Op.changes` says once what an action can do to a machine. What is kept by
every such change, and by entering and leaving calls, is kept by every plan.
-/

namespace HotkeyScript

/-- The machine that has entered a call from its innermost scope. -/
def Machine.entered (m : Machine) (f : Function) (args : List Value) (entry : Position) : Machine :=
  Result.machine (Machine.enter f args entry m)

/-- What a call comes to whose body ended in this way. -/
def Ending.value {α : Type} : Ending α → Value
  | give v => v
  | next _ => .text ""

/-- **How plans end.** `p.Ends m r` says that carrying out `p` on `m` comes
to an end, with `r`. -/
inductive Plan.Ends : {α : Type} → Plan α → Machine → Result α → Prop where
  | done {α : Type} {a : α} {m : Machine} : Ends (.done a) m (.ok a m)
  | act {α : Type} {op : Op α} {m : Machine} : Ends (.act op) m (op.run m)
  /-- A part is evaluated as its plan says. -/
  | job {α : Type} {j : Job α} {m : Machine} {r : Result α} : Ends j.plan m r → Ends (.job j) m r
  | next {α β : Type} {first : Plan β} {next : β → Plan α} {m m' : Machine} {b : β}
      {r : Result α} :
      Ends first m (.ok b m') → Ends (next b) m' r → Ends (.andThen first next) m r
  /-- A failure ends what it happens in. -/
  | stop {α β : Type} {first : Plan β} {next : β → Plan α} {m m' : Machine} {e : Error} :
      Ends first m (.error e m') → Ends (.andThen first next) m (.error e m')
  /-- A call is refused where as many are under way as may be. -/
  | refused {f : Function} {args : List Value} {site : Span} {m : Machine} :
      m.settings.maxCallDepth ≤ m.stack.depth →
      Ends (.call f args site) m (Machine.fail (.callDepth m.settings.maxCallDepth) site m)
  /-- A body that ends is left, and the call comes to what it gave back. -/
  | returned {f : Function} {args : List Value} {site : Span} {m m' : Machine}
      {ending : Ending (List Outcome)} :
      m.stack.depth < m.settings.maxCallDepth →
      Ends (.job (.block f.body)) (m.entered f args site.start) (.ok ending m') →
      Ends (.call f args site) m (.ok ending.value m'.left)
  /-- A body that fails is not left, for the traceback to show it. -/
  | failed {f : Function} {args : List Value} {site : Span} {m m' : Machine} {e : Error} :
      m.stack.depth < m.settings.maxCallDepth →
      Ends (.job (.block f.body)) (m.entered f args site.start) (.error e m') →
      Ends (.call f args site) m (.error e m')

namespace Plan.Ends

variable {α β : Type} {m : Machine} {r : Result α}

theorem of_done {a : α} (h : (Plan.done a).Ends m r) : r = .ok a m := by
  cases h with
  | done => rfl

theorem of_act {op : Op α} (h : (Plan.act op).Ends m r) : r = op.run m := by
  cases h with
  | act => rfl

theorem of_job {j : Job α} (h : (Plan.job j).Ends m r) : j.plan.Ends m r := by
  cases h with
  | job h => exact h

/-- A plan that succeeds does so part by part. -/
theorem of_bind_ok {p : Plan β} {k : β → Plan α} {n : Machine} {a : α}
    (h : (p >>= k).Ends m (.ok a n)) :
    ∃ b m', p.Ends m (.ok b m') ∧ (k b).Ends m' (.ok a n) := by
  cases h with
  | next hp hk => exact ⟨_, _, hp, hk⟩

/-- A plan that fails does not succeed. -/
theorem not_fail_ok {fault : Fault} {span : Span} {n : Machine} {a : α} :
    ¬ (Plan.fail fault span).Ends m (.ok a n) := by
  intro h
  cases h.of_act

end Plan.Ends

/-! ## What an action can do -/

/-- What one action can do to a machine. -/
inductive Machine.Changes : Machine → Machine → Prop where
  | nothing {m : Machine} : Changes m m
  /-- An object is made or changed; functions are neither. -/
  | objects {m : Machine} {h : Heap} : h.functions = m.heap.functions →
      Changes m { m with heap := h }
  | assign {m : Machine} (name : String) (v : Value) (isGlobal : Bool) :
      Changes m { m with stack := m.stack.assign m.stack.current name v isGlobal }
  | declare {m : Machine} (name : String) (params : List String) (body : Block) :
      Changes m { m with
        heap := (m.heap.newFunction ⟨name, params, body, (m.stack.scope m.stack.current).source⟩).2
        stack := m.stack.bind m.stack.current name (.function ⟨m.heap.functions.size⟩) }
  | echo {m : Machine} (message : String) : m.settings.debug = true →
      Changes m { m with echoes := m.echoes.push message }
  | present {m : Machine} (r : Request) :
      Changes m { m with journal := m.journal.push (.showing r.options), shown := m.shown.push r }

/-- Storing a value changes no function. -/
theorem Heap.functions_set {h h' : Heap} {object key value : Value}
    (hs : h.set object key value = .ok h') : h'.functions = h.functions := by
  unfold Heap.set at hs
  split at hs
  next id =>
    cases hi : Heap.slot (h.items id).size key with
    | error e => rw [hi] at hs; cases hs
    | ok i => rw [hi] at hs; cases hs; rfl
  next id =>
    cases hk : Heap.tableKey key with
    | error e => rw [hk] at hs; cases hs
    | ok k => rw [hk] at hs; cases hs; rfl
  next => cases hs

/-- A question changes nothing, whatever the answer. -/
theorem Machine.machine_ask {α : Type} (span : Span) (question : Heap → Except Fault α)
    (m : Machine) : Result.machine (Machine.ask span question m) = m := by
  unfold Machine.ask Machine.orFail
  cases question m.heap <;> rfl

/-- **What an action does is one of the changes**, also where it fails. -/
theorem Op.changes {α : Type} (op : Op α) (m : Machine) :
    m.Changes (Result.machine (op.run m)) := by
  cases op with
  | ask span question =>
    rw [Op.run, Machine.machine_ask]
    exact .nothing
  | store object key value span =>
    simp only [Op.run, Machine.store]
    split
    next h hs => exact .objects (Heap.functions_set hs)
    next => exact .nothing
  | newArray => exact .objects rfl
  | newTable => exact .objects rfl
  | assign => exact .assign _ _ _
  | declare => exact .declare _ _ _
  | echo message =>
    simp only [Op.run, Machine.echo]
    split
    next h => exact .echo message h
    next => exact .nothing
  | present => exact .present _
  | _ => exact .nothing

end HotkeyScript
