import HotkeyScript.Proofs.Plan.Point
/-!
# Plans — where functions and calls come from

Two things hold at every point of a run. Each call under way was entered at a
call in the code of the scope below it (`Point.Traced`). And the functions of
the machine, and so those of the calls, are the ones that were there when the
run began and the ones that it declared, where what is declared is written in
the code of the scope that declares it. A property of functions that the run's
own declarations have is therefore one of every function that it meets
(`Point.Lawful`).
-/

namespace HotkeyScript

/-- The function that a declaration makes on a machine: its script is that of
the innermost scope. -/
def Machine.declared (m : Machine) (name : String) (params : List String) (body : Block) :
    Function :=
  ⟨name, params, body, (m.stack.scope m.stack.current).source⟩

/-- The declarations in the code that runs with some calls under way, where
those of the module's code are given. -/
def Entered.declarations (module : List Declaration) : List Entered → List Declaration
  | [] => module
  | e :: _ => e.function.body.declarations

namespace Point

/-- With the calls `live` under way the run from `root` came to a call at
`site`. -/
def CalledAt (root : Point) (live : List Entered) (site : Span) : Prop :=
  ∃ callee args m scope, root.ComesTo ⟨.job (.expr (.call callee args site)), m, live, scope⟩

/-- Each of some calls was entered where the run from `root` came to a call with
those below it under way. -/
def Traced (root : Point) : List Entered → Prop
  | [] => True
  | e :: below => root.CalledAt below e.site ∧ root.Traced below

/-- The terms of the code that runs with some calls under way. -/
def terms (root : Point) (module : List Declaration) (K : Function → Prop) (live : List Entered) :
    Plan.Terms where
  callee := K
  site := root.CalledAt live
  declared d := d ∈ Entered.declarations module live
  opensBoxes := True

/-- **What a run makes satisfies `K`**: each function that is declared in the run
from `root`, if those of the calls under way do. A handle of no function stands
for one that has to satisfy it too. -/
structure Makes (root : Point) (module : List Declaration) (K : Function → Prop) : Prop where
  absent : K default
  made : ∀ name params body m live scope,
    root.ComesTo ⟨.act (.declare name params body), m, live, scope⟩ →
    (∀ e ∈ live, K e.function) →
    (∃ d ∈ Entered.declarations module live, d.name.name = name ∧ d.body = body) →
    K (m.declared name params body)

/-- **What holds at the points of a run** of code with the declarations
`module`. -/
structure Lawful (root : Point) (module : List Declaration) (K : Function → Prop) (b : Point) :
    Prop where
  comes : root.ComesTo b
  clause : b.plan.Clause (root.terms module K b.live)
  functions : ∀ f ∈ b.machine.heap.functions, K f
  live : ∀ e ∈ b.live, K e.function
  traced : root.Traced b.live

end Point

/-- The part that is a call is the call. -/
theorem Job.eq_of_site?_eq_some {α : Type} {j : Job α} {site : Span} (h : j.site? = some site)
    (m : Machine) (live : List Entered) (scope : Nat) :
    ∃ callee args, (⟨.job j, m, live, scope⟩ : Point) =
      ⟨.job (.expr (.call callee args site)), m, live, scope⟩ := by
  cases j with
  | expr e =>
    cases e with
    | call callee args span => cases h; exact ⟨callee, args, rfl⟩
    | _ => cases h
  | _ => cases h

namespace Point.Lawful

variable {root a b : Point} {module : List Declaration} {K : Function → Prop} {α β : Type}
  {m n : Machine} {live : List Entered} {scope : Nat}

/-- A handle stands for a function that satisfies `K`. -/
theorem function (hm : root.Makes module K) (h : ∀ f ∈ m.heap.functions, K f) (id : FunctionId) :
    K (m.heap.function id) := by
  unfold Heap.function
  cases hf : m.heap.functions[id.index]? with
  | none => exact hm.absent
  | some f => exact h f (Array.mem_of_getElem? hf)

/-- An action makes no function but what it declares. -/
theorem run {op : Op α} (hm : root.Makes module K)
    (h : root.Lawful module K ⟨.act op, m, live, scope⟩) :
    ∀ f ∈ (Result.machine (op.run m)).heap.functions, K f := by
  cases op with
  | declare name params body =>
    obtain ⟨d, hd, hname, hbody⟩ : ∃ d ∈ Entered.declarations module live,
        d.name.name = name ∧ d.body = body := h.clause.of_act
    intro f hf
    obtain hf | rfl := Array.mem_push.1 hf
    · exact h.functions f hf
    · exact hm.made name params body m live scope h.comes h.live ⟨d, hd, hname, hbody⟩
  | ask span question =>
    rw [Op.run, Machine.machine_ask]
    exact h.functions
  | store object key value span =>
    simp only [Op.run, Machine.store]
    split
    next heap hs =>
      change ∀ f ∈ heap.functions, K f
      rw [Heap.functions_set hs]
      exact h.functions
    next => exact h.functions
  | echo message =>
    simp only [Op.run, Machine.echo]
    split <;> exact h.functions
  | _ => exact h.functions

theorem job {j : Job α} (h : root.Lawful module K ⟨.job j, m, live, scope⟩) :
    root.Lawful module K ⟨j.plan, m, live, scope⟩ := by
  refine ⟨h.comes.tail .job, ?_, h.functions, h.live, h.traced⟩
  cases h.clause with
  | job hd =>
    refine j.clause_plan hd fun site hs => ?_
    obtain ⟨callee, args, he⟩ := Job.eq_of_site?_eq_some hs m live scope
    exact ⟨callee, args, m, scope, he ▸ h.comes⟩

theorem first {first : Plan β} {next : β → Plan α}
    (h : root.Lawful module K ⟨.andThen first next, m, live, scope⟩) :
    root.Lawful module K ⟨first, m, live, scope⟩ :=
  ⟨h.comes.tail .first, (h.clause.split trivial).1, h.functions, h.live, h.traced⟩

/-- What comes second is lawful on the functions that the first part left. -/
theorem next {first : Plan β} {next : β → Plan α} {x : β} (hm : root.Makes module K)
    (h : root.Lawful module K ⟨.andThen first next, m, live, scope⟩)
    (he : first.Ends m (.ok x n)) (hf : ∀ f ∈ n.heap.functions, K f) :
    root.Lawful module K ⟨next x, n, live, scope⟩ :=
  ⟨h.comes.tail (.next he), (h.clause.split trivial).2 m n x he (function hm h.functions), hf,
    h.live, h.traced⟩

theorem body {f : Function} {args : List Value} {site : Span}
    (h : root.Lawful module K ⟨.call f args site, m, live, scope⟩)
    (hd : m.stack.depth < m.settings.maxCallDepth) :
    root.Lawful module K
      ⟨.job (.block f.body), m.entered f args site.start, ⟨f, site⟩ :: live,
        m.stack.depth + 1⟩ := by
  obtain ⟨hf, hs⟩ : K f ∧ root.CalledAt live site := h.clause.of_call
  refine ⟨h.comes.tail (.body hd), .job fun d hd => hd, h.functions, ?_, hs, h.traced⟩
  exact List.forall_mem_cons.2 ⟨hf, h.live⟩

/-- **A plan leaves no function but what was there and what it declared.** -/
theorem ends {p : Plan α} {r : Result α} (hm : root.Makes module K)
    (h : root.Lawful module K ⟨p, m, live, scope⟩) (he : p.Ends m r) :
    ∀ f ∈ (Result.machine r).heap.functions, K f := by
  induction he generalizing live scope with
  | done | refused => exact h.functions
  | act => exact h.run hm
  | job _ ih => exact ih h.job
  | next he _ ih ih' => exact ih' (h.next hm he (ih h.first))
  | stop _ ih => exact ih h.first
  | returned hd _ ih =>
    rw [Result.machine, Machine.heap_left]
    exact ih (h.body hd)
  | failed hd _ ih => exact ih (h.body hd)

theorem step (hm : root.Makes module K) (h : root.Lawful module K a) (hs : a.Step b) :
    root.Lawful module K b := by
  cases hs with
  | job => exact h.job
  | first => exact h.first
  | next he => exact h.next hm he (h.first.ends hm he)
  | body hd => exact h.body hd

/-- **Every point of the run is lawful.** -/
theorem comesTo (hm : root.Makes module K) (h : root.Lawful module K root)
    (hs : root.ComesTo b) : root.Lawful module K b := by
  induction hs with
  | refl => exact h
  | tail _ hs ih => exact ih.step hm hs

end Point.Lawful

end HotkeyScript
