import HotkeyScript.Proofs.Plan.Basic
/-!
# Plans — carried out by the evaluators

`Plan.run` carries a plan out with the evaluators of the machine, where what
calls do is a parameter. `Job.run_plan` says that the clauses of the
interpreter are the evaluators': carrying out the plan of a part is
evaluating the part, whatever calls do.
-/

namespace HotkeyScript

open Plan

/-- What evaluating a part comes to, where `call` says what calls do. -/
def Job.run (call : Caller) {α : Type} : Job α → Run α
  | expr e => e.eval call
  | key k => k.eval call
  | exprs es => Expr.evalAll call es
  | entries map es => Expr.evalEntries call map es
  | parts span ps => fill span ps
  | shown enclosing v => fun m => .ok (m.heap.unfoldIn enclosing v).render m
  | shownItems enclosing vs => fun m =>
    .ok (Unfolding.renderItems (vs.map (m.heap.unfoldIn enclosing))) m
  | shownEntries enclosing es => fun m =>
    .ok (Unfolding.renderEntries (es.map fun e => (e.1, m.heap.unfoldIn enclosing e.2))) m
  | params ps => paramNames ps
  | stmt s => s.run call
  | block b => b.run call
  | stmts ss => Stmt.runAll call ss

/-- What carrying out a plan comes to, where `call` says what calls do. -/
def Plan.run (call : Caller) {α : Type} : Plan α → Run α
  | done a => pure a
  | act op => op.run
  | job j => j.run call
  | .call f args site => call f args site
  | andThen first next => do
    let b ← first.run call
    (next b).run call

variable {call : Caller}

/-! ## Plans that several clauses share -/

@[simp] theorem Plan.run_bind {α β : Type} (p : Plan β) (k : β → Plan α) :
    (p >>= k).run call = p.run call >>= fun b => (k b).run call := rfl

/-- A name is looked up by the machine, and one that is not bound fails at its span. -/
@[simp] theorem Plan.run_value (name : String) (span : Span) :
    (Plan.value name span).run call = Machine.lookup name span := by
  refine bind_congr fun v => ?_
  cases v <;> rfl

/-- A call finds its function by that lookup, and any other value is no function. -/
@[simp] theorem Plan.run_function (callee : Identifier) :
    (Plan.function callee).run call = Machine.functionOf callee := by
  simp only [Plan.function, Machine.functionOf, Plan.run_bind, Plan.run_value]
  refine bind_congr fun v => ?_
  cases v <;> rfl

@[simp] theorem Plan.run_shownOr (default : Plan String) (e : Option Expr) :
    (Plan.shownOr default e).run call = HotkeyScript.shownOr call (default.run call) e := by
  cases e <;> rfl

/-! ## Clause by clause -/

/-- The clauses of expressions, for every caller. -/
theorem Expr.run_plan (e : Expr) : e.plan.run call = e.eval call := by
  cases e with
  | text value interpolated span => cases interpolated <;> rfl
  | name identifier => exact Plan.run_value identifier.name identifier.span
  | choice condition yes no span =>
    refine bind_congr fun v => bind_congr fun b => ?_
    cases b <;> rfl
  | call callee args span =>
    simp only [Expr.plan, Expr.eval, Plan.run_bind, Plan.run_function]
    refine bind_congr fun f => ?_
    split <;> rfl
  | _ => rfl

/-- A box is put together in the order title, text, timeout, and only then asked for or
told of. -/
theorem BoxArguments.run_plan (args : BoxArguments) (span : Span) :
    (args.plan span).run call = args.run call span := by
  simp only [BoxArguments.plan, BoxArguments.run, Plan.run_bind, Plan.run_shownOr]
  refine bind_congr fun title => bind_congr fun text => bind_congr fun timeout =>
    bind_congr fun debug => ?_
  cases debug with
  | true => rfl
  | false =>
    refine bind_congr fun shown => ?_
    cases shown <;> rfl

/-- The clauses of statements, for every caller. -/
theorem Stmt.run_plan (s : Stmt) : s.plan.run call = s.run call := by
  cases s with
  | branch condition yes no span =>
    -- the other branch is opened first: running a statement goes by recursion into it
    cases no with
    | none =>
      refine bind_congr fun v => bind_congr fun b => ?_
      cases b <;> rfl
    | some no =>
      refine bind_congr fun v => bind_congr fun b => ?_
      cases b <;> rfl
  | give value span =>
    refine bind_congr fun b => ?_
    cases b with
    | false => rfl
    | true => cases value <;> rfl
  | box args span =>
    simp only [Stmt.plan, Stmt.run, Plan.run_bind, BoxArguments.run_plan]
    rfl
  | _ => rfl

/-- An array that is not open is shown with its items, each inside it. -/
theorem Heap.unfoldIn_array {h : Heap} {enclosing : List Container} {id : ArrayId}
    (hn : Container.array id ∉ enclosing) :
    h.unfoldIn enclosing (.array id) =
      .array id ((h.items id).toList.map (h.unfoldIn (.array id :: enclosing))) := by
  rw [Heap.unfoldIn, dif_neg hn, Heap.items]
  split
  next hi => rw [hi]; rfl
  next items hi => rw [hi]; rfl

/-- And a table with its entries. -/
theorem Heap.unfoldIn_table {h : Heap} {enclosing : List Container} {id : TableId}
    (hn : Container.table id ∉ enclosing) :
    h.unfoldIn enclosing (.table id) =
      .table id ((h.entries id).entries.map fun e =>
        (e.1, h.unfoldIn (.table id :: enclosing) e.2)) := by
  rw [Heap.unfoldIn, dif_neg hn, Heap.entries]
  split
  next hi => rw [hi]; rfl
  next map hi => rw [hi]; rfl

/-- The rules write a value part by part as the heap unfolds it, with the containers
around it as what is open. -/
theorem Value.run_shownPlan (enclosing : List Container) (v : Value) :
    (v.shownPlan enclosing).run call = (Job.shown enclosing v).run call := by
  funext m
  cases v with
  | number | text | boolean | function =>
    simp only [Job.run, Heap.unfoldIn, Unfolding.render]
    rfl
  | array id =>
    by_cases hn : Container.array id ∈ enclosing
    · simp only [Value.shownPlan, Job.run, Heap.unfoldIn, if_pos hn, dif_pos hn]
      rfl
    · simp only [Value.shownPlan, Job.run, if_neg hn, Heap.unfoldIn_array hn]
      rfl
  | table id =>
    by_cases hn : Container.table id ∈ enclosing
    · simp only [Value.shownPlan, Job.run, Heap.unfoldIn, if_pos hn, dif_pos hn]
      rfl
    · simp only [Value.shownPlan, Job.run, if_neg hn, Heap.unfoldIn_table hn]
      rfl

/-- **The clauses are the evaluators'.** Carrying out the plan of a part is
evaluating the part. -/
theorem Job.run_plan {α : Type} (j : Job α) : j.plan.run call = j.run call := by
  cases j with
  | expr e => exact e.run_plan
  | key k => cases k <;> rfl
  | exprs es => cases es <;> rfl
  | entries map es => cases es <;> rfl
  | parts span ps =>
    cases ps with
    | nil => rfl
    | cons p ps =>
      cases p with
      | char c => rfl
      | reference name =>
        simp only [Job.plan, Job.run, fill, Plan.run_bind, Plan.run_value]
        rfl
  | shown enclosing v => exact Value.run_shownPlan enclosing v
  | shownItems enclosing vs => cases vs <;> rfl
  | shownEntries enclosing es => cases es <;> rfl
  | params ps =>
    cases ps with
    | nil => rfl
    | cons p ps => cases p <;> rfl
  | stmt s => exact s.run_plan
  | block b => cases b; rfl
  | stmts ss =>
    cases ss with
    | nil => rfl
    | cons s ss =>
      refine bind_congr fun ending => ?_
      cases ending with
      | give v => rfl
      | next o =>
        refine bind_congr fun ending => ?_
        cases ending <;> rfl

end HotkeyScript
