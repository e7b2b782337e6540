import HotkeyScript.Proofs.Plan.Level
/-!
# Plans — every plan ends

A plan ends on every machine (`Plan.exists_ends`), with what the evaluators
of the machine come to (`Plan.ends_iff`). Inside one call the recursion is
into smaller parts of the script, and showing a value enters fewer and fewer
objects. A call fetches its body from wherever the function was found, so
there the script does not shrink; what shrinks is the number of calls that
may still be entered, which a balanced evaluation gives back unchanged.
-/

namespace HotkeyScript

open Plan

/-! ## Ending with what the evaluators come to -/

/-- A call enters its function, runs the body and leaves with its value. -/
theorem callAt_succ (n : Nat) (f : Function) (args : List Value) (site : Span) :
    callAt (n + 1) f args site = do
      Machine.enter f args site.start
      let ending ← f.body.run (callAt n)
      Machine.leave
      return ending.value := by
  rw [callAt]
  congr
  funext _
  congr
  funext ending
  cases ending <;> rfl

/-- A body that ends gives the call its value. -/
theorem callAt_succ_ok {n : Nat} {f : Function} {args : List Value} {site : Span}
    {m m' : Machine} {ending : Ending (List Outcome)}
    (h : f.body.run (callAt n) (m.entered f args site.start) = .ok ending m') :
    callAt (n + 1) f args site m = .ok ending.value m'.left := by
  have he : Machine.enter f args site.start m = .ok () (m.entered f args site.start) := rfl
  rw [callAt_succ, Run.bind_of_ok he, Run.bind_of_ok h]
  rfl

/-- A body that fails leaves the call entered, for the machine to unwind. -/
theorem callAt_succ_error {n : Nat} {f : Function} {args : List Value} {site : Span}
    {m m' : Machine} {e : Error}
    (h : f.body.run (callAt n) (m.entered f args site.start) = .error e m') :
    callAt (n + 1) f args site m = .error e m' := by
  have he : Machine.enter f args site.start m = .ok () (m.entered f args site.start) := rfl
  rw [callAt_succ, Run.bind_of_ok he, Run.bind_of_error h]

/-- Where a call may be entered, one call fewer may be entered inside it. -/
theorem Machine.exists_callsLeft {m : Machine} (h : m.stack.depth < m.settings.maxCallDepth) :
    ∃ n, m.callsLeft = n + 1 ∧ ∀ f args entry, (m.entered f args entry).callsLeft = n := by
  refine ⟨m.callsLeft - 1, ?_, fun f args entry => m.callsLeft_entered f args entry⟩
  unfold Machine.callsLeft
  omega

/-- **A plan ends only with what the evaluators come to**, for as many calls
as may still be entered. -/
theorem Plan.Ends.run_eq {α : Type} {p : Plan α} {m : Machine} {r : Result α} (h : p.Ends m r) :
    p.run (callAt m.callsLeft) m = r := by
  induction h with
  | done => rfl
  | act => rfl
  | job _ ih =>
    rw [Plan.run, ← Job.run_plan]
    exact ih
  | @next _ _ first next m m' b r h _ ih ih' =>
    -- the first part gave back every call it entered
    have hl : m'.callsLeft = m.callsLeft := Machine.Level.callsLeft_eq h.kept
    rw [hl] at ih'
    rw [Plan.run, Run.bind_of_ok ih]
    exact ih'
  | @stop _ _ first next m m' e h ih =>
    rw [Plan.run, Run.bind_of_error ih]
  | @refused f args site m h =>
    have hn : m.callsLeft = 0 := Nat.sub_eq_zero_of_le h
    rw [Plan.run, hn]
    rfl
  | @returned f args site m m' ending hd h ih =>
    obtain ⟨n, hn, he⟩ := Machine.exists_callsLeft hd
    rw [he] at ih
    rw [Plan.run, hn]
    exact callAt_succ_ok ih
  | @failed f args site m m' e hd h ih =>
    obtain ⟨n, hn, he⟩ := Machine.exists_callsLeft hd
    rw [he] at ih
    rw [Plan.run, hn]
    exact callAt_succ_error ih

/-! ## Showing values -/

/-- What an array holds is inside one object more than the array. -/
theorem Heap.closedCount_lt_of_mem_items {h : Heap} {enclosing : List Container} {id : ArrayId}
    {v : Value} (hv : v ∈ (h.items id).toList) (hn : Container.array id ∉ enclosing) :
    h.closedCount (.array id :: enclosing) < h.closedCount enclosing := by
  cases hi : h.arrays[id.index]? with
  | none => simp [items, hi] at hv
  | some items => exact closedCount_cons_lt (array_mem_containers hi) hn

/-- And what a table holds. -/
theorem Heap.closedCount_lt_of_mem_entries {h : Heap} {enclosing : List Container} {id : TableId}
    {e : TableKey × Value} (he : e ∈ (h.entries id).entries)
    (hn : Container.table id ∉ enclosing) :
    h.closedCount (.table id :: enclosing) < h.closedCount enclosing := by
  cases hi : h.tables[id.index]? with
  | none => simp [entries, hi, OrderedMap.empty] at he
  | some map => exact closedCount_cons_lt (table_mem_containers hi) hn

/-- Items are shown one after another, so it is enough that each can be. -/
theorem exists_ends_shownItems {m : Machine} {enclosing : List Container} {vs : List Value}
    (h : ∀ v ∈ vs, ∃ s, (job (.shown enclosing v)).Ends m (.ok s m)) :
    ∃ ss, (job (.shownItems enclosing vs)).Ends m (.ok ss m) := by
  induction vs with
  | nil => exact ⟨[], .job .done⟩
  | cons v vs ih =>
    obtain ⟨s, hs⟩ := h v (List.mem_cons_self ..)
    obtain ⟨ss, hss⟩ := ih fun w hw => h w (List.mem_cons_of_mem v hw)
    exact ⟨s :: ss, .job (.next hs (.next hss .done))⟩

/-- And entries by their values. -/
theorem exists_ends_shownEntries {m : Machine} {enclosing : List Container}
    {es : List (TableKey × Value)}
    (h : ∀ e ∈ es, ∃ s, (job (.shown enclosing e.2)).Ends m (.ok s m)) :
    ∃ ss, (job (.shownEntries enclosing es)).Ends m (.ok ss m) := by
  induction es with
  | nil => exact ⟨[], .job .done⟩
  | cons e es ih =>
    obtain ⟨s, hs⟩ := h e (List.mem_cons_self ..)
    obtain ⟨ss, hss⟩ := ih fun w hw => h w (List.mem_cons_of_mem e hw)
    exact ⟨(e.1.render ++ ":" ++ s) :: ss, .job (.next hs (.next hss .done))⟩

/-- **Showing a value ends**, also where objects hold one another: an object
that is open is not entered, and each one entered leaves fewer to enter. -/
theorem exists_ends_shown (m : Machine) (enclosing : List Container) (v : Value) :
    ∃ s, (job (.shown enclosing v)).Ends m (.ok s m) := by
  induction hk : m.heap.closedCount enclosing using Nat.strongRecOn generalizing enclosing v with
  | ind k ih =>
    subst hk
    cases v with
    | number | text | boolean => exact ⟨_, .job .done⟩
    | function id => exact ⟨_, .job (.next .act .done)⟩
    | array id =>
      by_cases hn : Container.array id ∈ enclosing
      · refine ⟨"[...]", .job ?_⟩
        simp only [Job.plan, Value.shownPlan, if_pos hn]
        exact .done
      · obtain ⟨ss, hss⟩ : ∃ ss, (job (.shownItems (.array id :: enclosing)
            (m.heap.items id).toList)).Ends m (.ok ss m) :=
          exists_ends_shownItems fun w hw => ih _ (Heap.closedCount_lt_of_mem_items hw hn) _ w rfl
        refine ⟨"[" ++ ",".intercalate ss ++ "]", .job ?_⟩
        simp only [Job.plan, Value.shownPlan, if_neg hn]
        exact .next .act (.next hss .done)
    | table id =>
      by_cases hn : Container.table id ∈ enclosing
      · refine ⟨"\x7b...\x7d", .job ?_⟩
        simp only [Job.plan, Value.shownPlan, if_pos hn]
        exact .done
      · obtain ⟨ss, hss⟩ : ∃ ss, (job (.shownEntries (.table id :: enclosing)
            (m.heap.entries id).entries)).Ends m (.ok ss m) :=
          exists_ends_shownEntries fun e he =>
            ih _ (Heap.closedCount_lt_of_mem_entries he hn) _ e.2 rfl
        refine ⟨"\x7b" ++ ",".intercalate ss ++ "\x7d", .job ?_⟩
        simp only [Job.plan, Value.shownPlan, if_neg hn]
        exact .next .act (.next hss .done)

/-! ## Plans that end wherever so many calls are left -/

/-- A plan ends on every machine on which `n` calls may still be entered. -/
structure Plan.Halts {α : Type} (n : Nat) (p : Plan α) : Prop where
  exists_ends : ∀ m : Machine, m.callsLeft = n → ∃ r, p.Ends m r

namespace Plan.Halts

variable {n : Nat} {α β : Type}

theorem done (a : α) : (Plan.done a).Halts n := ⟨fun _ _ => ⟨_, .done⟩⟩

theorem act (op : Op α) : (Plan.act op).Halts n := ⟨fun _ _ => ⟨_, .act⟩⟩

theorem job {j : Job α} (h : j.plan.Halts n) : (Plan.job j).Halts n := by
  refine ⟨fun m hm => ?_⟩
  obtain ⟨r, hr⟩ := h.exists_ends m hm
  exact ⟨r, .job hr⟩

/-- What comes second starts with as many calls left as what came first. -/
theorem bind {p : Plan β} {k : β → Plan α} (hp : p.Halts n) (hk : ∀ b, (k b).Halts n) :
    (p >>= k).Halts n := by
  refine ⟨fun m hm => ?_⟩
  obtain ⟨r, hr⟩ := hp.exists_ends m hm
  cases r with
  | error e m' => exact ⟨_, .stop hr⟩
  | ok b m' =>
    have hl : m'.callsLeft = m.callsLeft := Machine.Level.callsLeft_eq hr.kept
    obtain ⟨r', hr'⟩ := (hk b).exists_ends m' (hl.trans hm)
    exact ⟨r', .next hr hr'⟩

theorem value (name : String) (span : Span) : (Plan.value name span).Halts n := by
  refine .bind (.act _) fun v => ?_
  cases v with
  | none => exact .act _
  | some v => exact .done v

theorem function (callee : Identifier) : (Plan.function callee).Halts n := by
  refine .bind (.value callee.name callee.span) fun v => ?_
  cases v <;> exact .act _

theorem did (message : String) : (Plan.did message).Halts n :=
  .bind (.act _) fun _ => .done _

/-- Showing takes no calls, so it does not matter how many are left. -/
theorem shown (enclosing : List Container) (v : Value) :
    (Plan.job (.shown enclosing v)).Halts n := by
  refine ⟨fun m _ => ?_⟩
  obtain ⟨s, hs⟩ := exists_ends_shown m enclosing v
  exact ⟨_, hs⟩

/-- What a reference stands for is looked up and shown. -/
theorem parts (span : Span) (ps : List Text.Part) : (Plan.job (.parts span ps)).Halts n := by
  induction ps with
  | nil => exact .job (.done _)
  | cons p ps ih =>
    cases p with
    | char c => exact .job (.bind ih fun _ => .done _)
    | reference name =>
      refine .job (.bind (.value _ span) fun v => ?_)
      exact .bind (.shown [] v) fun _ => .bind ih fun _ => .done _

theorem params (ps : List Expr) : (Plan.job (.params ps)).Halts n := by
  induction ps with
  | nil => exact .job (.done _)
  | cons p ps ih =>
    cases p with
    | name identifier => exact .job (.bind ih fun _ => .done _)
    | _ => exact .job (.act _)

end Plan.Halts

/-! ## Every part of a script

Calls are taken to end; the rest goes by recursion on the part. -/

section

set_option linter.unusedSectionVars false

variable {n : Nat} (hc : ∀ f args site, (Plan.call f args site).Halts n)
include hc

mutual

/-- Arguments are parts of the expression. The body that a call enters is not, and for
that there is `hc`. -/
theorem Expr.halts : ∀ e : Expr, (job (.expr e)).Halts n
  | .number _ => .job (.done _)
  | .text _ false _ => .job (.done _)
  | .text value true span =>
    .job (.bind (.bind (.parts span (Text.parts value.toList)) fun _ => .done _) fun _ => .done _)
  | .boolean _ _ => .job (.done _)
  | .array elements _ => .job (.bind (Expr.halts_all elements) fun _ => .act _)
  | .table entries _ => .job (.bind (Expr.halts_entries entries .empty) fun _ => .act _)
  | .name identifier => .job (.value identifier.name identifier.span)
  | .access object key _ => .job (.bind object.halts fun _ => .bind key.halts fun _ => .act _)
  | .binary _ left right _ => .job (.bind left.halts fun _ => .bind right.halts fun _ => .act _)
  | .unary _ operand _ => .job (.bind operand.halts fun _ => .act _)
  | .choice condition yes no _ => by
    refine .job (.bind condition.halts fun v => .bind (.act _) fun b => ?_)
    cases b with
    | true => exact yes.halts
    | false => exact no.halts
  | .call callee args span => by
    refine .job (.bind (.function callee) fun f => ?_)
    split
    · exact .bind (Expr.halts_all args) fun values => hc f values span
    · exact .act _

theorem Key.halts : ∀ k : Key, (job (.key k)).Halts n
  | .member _ => .job (.done _)
  | .index e => .job e.halts

theorem Expr.halts_all : ∀ es : List Expr, (job (.exprs es)).Halts n
  | [] => .job (.done _)
  | e :: es => .job (.bind e.halts fun _ => .bind (Expr.halts_all es) fun _ => .done _)

theorem Expr.halts_entries :
    ∀ (es : List (Expr × Expr)) (map : OrderedMap TableKey Value), (job (.entries map es)).Halts n
  | [], _ => .job (.done _)
  | (k, e) :: es, _ => by
    refine .job (.bind k.halts fun key => .bind e.halts fun v => ?_)
    exact .bind (.bind (.act _) fun _ => .done _) fun map => Expr.halts_entries es map

end

theorem halts_shownOr {default : Plan String} (hd : default.Halts n) (e : Option Expr) :
    (Plan.shownOr default e).Halts n := by
  cases e with
  | none => exact hd
  | some e => exact .bind (e.halts hc) fun v => .shown [] v

theorem BoxArguments.halts (args : BoxArguments) (span : Span) : (args.plan span).Halts n := by
  refine .bind (halts_shownOr hc (.act _) args.title) fun title => ?_
  refine .bind (halts_shownOr hc (.done _) args.text) fun text => .bind (.act _) fun timeout => ?_
  refine .bind (.act _) fun debug => ?_
  cases debug with
  | true => exact .did _
  | false =>
    refine .bind (.act _) fun shown => ?_
    cases shown with
    | true => exact .done _
    | false => exact .act _

mutual

/-- A statement, by recursion into its blocks. -/
theorem Stmt.halts : ∀ s : Stmt, (job (.stmt s)).Halts n
  | .assign _ value _ _ => by
    refine .job (.bind (value.halts hc) fun v => .bind (.shown [] v) fun shown => ?_)
    exact .bind (.act _) fun _ => .bind (.act _) fun _ => .bind (.did _) fun _ => .done _
  | .store object key value _ => by
    refine .job (.bind (object.halts hc) fun o => .bind (key.halts hc) fun k => ?_)
    refine .bind (value.halts hc) fun v => .bind (.shown [] k) fun _ => ?_
    refine .bind (.shown [] v) fun _ => ?_
    exact .bind (.act _) fun _ => .bind (.did _) fun _ => .done _
  | .branch condition yes no _ => by
    refine .job (.bind (condition.halts hc) fun v => .bind (.act _) fun b => ?_)
    match b, no with
    | true, _ => exact .bind yes.halts fun _ => .done _
    | false, none => exact .done _
    | false, some no => exact .bind no.halts fun _ => .done _
  | .declare _ params _ _ =>
    .job (.bind (.params params) fun _ => .bind (.act _) fun _ => .bind (.did _) fun _ => .done _)
  | .give value _ => by
    refine .job (.bind (.act _) fun b => ?_)
    match b, value with
    | false, _ => exact .act _
    | true, none => exact .done _
    | true, some e => exact .bind (e.halts hc) fun _ => .done _
  | .box args span => .job (.bind (args.halts hc span) fun _ => .done _)
  | .expr e _ => .job (.bind (e.halts hc) fun _ => .done _)

theorem Block.halts : ∀ b : Block, (job (.block b)).Halts n
  | .mk statements _ => .job (Stmt.halts_all statements)

theorem Stmt.halts_all : ∀ ss : List Stmt, (job (.stmts ss)).Halts n
  | [] => .job (.done _)
  | s :: ss => by
    refine .job (.bind s.halts fun ending => ?_)
    cases ending with
    | give v => exact .done _
    | next outcome =>
      refine .bind (Stmt.halts_all ss) fun ending => ?_
      cases ending <;> exact .done _

end

end

/-! ## Every plan -/

/-- **Calls end, whatever their functions are.** The induction is on the
calls that may still be entered: where there are none the call is refused,
and otherwise its body has one fewer. -/
theorem Plan.Halts.call (n : Nat) :
    ∀ f args site, (Plan.call f args site).Halts n := by
  induction n with
  | zero =>
    intro f args site
    refine ⟨fun m hm => ⟨_, .refused ?_⟩⟩
    exact Nat.le_of_sub_eq_zero hm
  | succ n ih =>
    intro f args site
    refine ⟨fun m hm => ?_⟩
    have hd : m.stack.depth < m.settings.maxCallDepth := by
      unfold Machine.callsLeft at hm
      omega
    have he : (m.entered f args site.start).callsLeft = n := by
      rw [Machine.callsLeft_entered, hm, Nat.add_sub_cancel]
    obtain ⟨r, hr⟩ := (Block.halts ih f.body).exists_ends _ he
    cases r with
    | ok ending m' => exact ⟨_, .returned hd hr⟩
    | error e m' => exact ⟨_, .failed hd hr⟩

/-- **Every part of a script ends**, for the calls in it do. -/
theorem Job.halts {α : Type} (j : Job α) (n : Nat) : (Plan.job j).Halts n := by
  have hc := Plan.Halts.call n
  cases j with
  | expr e => exact e.halts hc
  | key k => exact k.halts hc
  | exprs es => exact Expr.halts_all hc es
  | entries map es => exact Expr.halts_entries hc es map
  | parts span ps => exact .parts span ps
  | shown enclosing v => exact .shown enclosing v
  | shownItems enclosing vs =>
    refine ⟨fun m _ => ?_⟩
    obtain ⟨ss, hss⟩ := exists_ends_shownItems fun v _ => exists_ends_shown m enclosing v
    exact ⟨_, hss⟩
  | shownEntries enclosing es =>
    refine ⟨fun m _ => ?_⟩
    obtain ⟨ss, hss⟩ := exists_ends_shownEntries fun e _ => exists_ends_shown m enclosing e.2
    exact ⟨_, hss⟩
  | params ps => exact .params ps
  | stmt s => exact s.halts hc
  | block b => exact b.halts hc
  | stmts ss => exact Stmt.halts_all hc ss

theorem Plan.halts {α : Type} (p : Plan α) (n : Nat) : p.Halts n := by
  induction p with
  | done a => exact .done a
  | act op => exact .act op
  | job j => exact j.halts n
  | call f args site => exact Plan.Halts.call n f args site
  | andThen _ _ ih ih' => exact .bind ih ih'

/-- **Every plan ends on every machine.** -/
theorem Plan.exists_ends {α : Type} (p : Plan α) (m : Machine) : ∃ r, p.Ends m r :=
  (p.halts m.callsLeft).exists_ends m rfl

/-- And in one way only. -/
theorem Plan.Ends.unique {α : Type} {p : Plan α} {m : Machine} {r r' : Result α} (h : p.Ends m r)
    (h' : p.Ends m r') : r = r' :=
  h.run_eq.symm.trans h'.run_eq

/-- A plan ends with what the evaluators come to, and with nothing else. -/
theorem Plan.ends_iff {α : Type} {p : Plan α} {m : Machine} {r : Result α} :
    p.Ends m r ↔ p.run (callAt m.callsLeft) m = r := by
  refine ⟨Plan.Ends.run_eq, ?_⟩
  rintro rfl
  obtain ⟨r, hr⟩ := p.exists_ends m
  rwa [hr.run_eq]

/-- And so does every part of a script. -/
theorem Job.ends_iff {α : Type} {j : Job α} {m : Machine} {r : Result α} :
    (Plan.job j).Ends m r ↔ j.run (callAt m.callsLeft) m = r :=
  Plan.ends_iff

end HotkeyScript
