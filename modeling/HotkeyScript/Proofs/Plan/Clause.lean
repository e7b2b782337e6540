import HotkeyScript.Proofs.Plan.Ends
/-!
# Plans — what the clauses are made of

Every clause of the interpreter is made of the same few things, and
`Plan.Clause` names them. Debug mode is looked at and boxes are asked for in
one place, together (`Plan.boxed`); a function is called only behind the lookup
that found it and only at a call; a function is declared only where the script
says so; and only a call finds that too many are under way. What the called
functions, the calls and the declarations satisfy is a parameter, the `Terms` of
a clause, and `Job.clause_plan` walks the clauses once for all of them.
-/

namespace HotkeyScript

open Plan

/-! ## Declarations -/

/-- A function as a script declares it. -/
structure Declaration where
  name : Identifier
  params : List Expr
  body : Block

mutual

/-- The functions declared in a statement, those inside other functions'
bodies among them. -/
def Stmt.declarations : Stmt → List Declaration
  | .declare name params body _ => ⟨name, params, body⟩ :: body.declarations
  | .branch _ yes none _ => yes.declarations
  | .branch _ yes (some no) _ => yes.declarations ++ no.declarations
  | .assign .. | .store .. | .give .. | .box .. | .expr .. => []

/-- The functions declared in a block. -/
def Block.declarations : Block → List Declaration
  | .mk statements _ => Stmt.declarationsOf statements

/-- The functions declared in some statements. -/
def Stmt.declarationsOf : List Stmt → List Declaration
  | [] => []
  | s :: ss => s.declarations ++ Stmt.declarationsOf ss

end

/-- What a statement declares is declared where the statement stands. -/
theorem Stmt.mem_declarationsOf {s : Stmt} {ss : List Stmt} {d : Declaration} (hs : s ∈ ss)
    (hd : d ∈ s.declarations) : d ∈ Stmt.declarationsOf ss := by
  induction ss with
  | nil => cases hs
  | cons t ss ih =>
    obtain rfl | hs := List.mem_cons.1 hs
    · exact List.mem_append_left _ hd
    · exact List.mem_append_right _ (ih hs)

mutual

/-- What a declared function's body declares is declared with it. -/
theorem Stmt.declarations_nested :
    ∀ (s : Stmt) (d : Declaration), d ∈ s.declarations →
      ∀ d' ∈ d.body.declarations, d' ∈ s.declarations
  | .declare name params body _, d, hd, d', hd' => by
    obtain rfl | hd := List.mem_cons.1 hd
    · exact List.mem_cons_of_mem _ hd'
    · exact List.mem_cons_of_mem _ (body.declarations_nested d hd d' hd')
  | .branch _ yes none _, d, hd, d', hd' => yes.declarations_nested d hd d' hd'
  | .branch _ yes (some no) _, d, hd, d', hd' => by
    obtain hd | hd := List.mem_append.1 hd
    · exact List.mem_append_left _ (yes.declarations_nested d hd d' hd')
    · exact List.mem_append_right _ (no.declarations_nested d hd d' hd')
  | .assign _ _ _ _, _, hd, _, _ | .store _ _ _ _, _, hd, _, _ | .give _ _, _, hd, _, _
  | .box _ _, _, hd, _, _ | .expr _ _, _, hd, _, _ => nomatch hd

theorem Block.declarations_nested :
    ∀ (b : Block) (d : Declaration), d ∈ b.declarations →
      ∀ d' ∈ d.body.declarations, d' ∈ b.declarations
  | .mk statements _, d, hd, d', hd' => Stmt.declarationsOf_nested statements d hd d' hd'

theorem Stmt.declarationsOf_nested :
    ∀ (ss : List Stmt) (d : Declaration), d ∈ Stmt.declarationsOf ss →
      ∀ d' ∈ d.body.declarations, d' ∈ Stmt.declarationsOf ss
  | [], _, hd, _, _ => nomatch hd
  | s :: ss, d, hd, d', hd' => by
    obtain hd | hd := List.mem_append.1 hd
    · exact List.mem_append_left _ (s.declarations_nested d hd d' hd')
    · exact List.mem_append_right _ (Stmt.declarationsOf_nested ss d hd d' hd')

end

/-- The functions declared in a part of a script. -/
def Job.declarations {α : Type} : Job α → List Declaration
  | stmt s => s.declarations
  | block b => b.declarations
  | stmts ss => Stmt.declarationsOf ss
  | _ => []

/-- The span of a part that is a call. -/
def Job.site? {α : Type} : Job α → Option Span
  | expr (.call _ _ span) => some span
  | _ => none

/-! ## What operations on values fail with -/

/-- Whether a fault is one of an operation on values: not of a name, a call or a box. -/
def Fault.isOfValues : Fault → Bool
  | divisionByZero | mixedHexadecimal _ | concatenation | mismatch .. | signedNonNumber ..
  | overflow | notObject _ | keyNotFound _ | invalidKey _ | indexOutOfRange | invalidIndex => true
  | _ => false

/-- Answers of operations on values. -/
inductive OfValues {α : Type} : Except Fault α → Prop where
  | ok (a : α) : OfValues (.ok a)
  | error {fault : Fault} : fault.isOfValues = true → OfValues (.error fault)

namespace OfValues

variable {α β : Type}

theorem bind {x : Except Fault β} {k : β → Except Fault α} (hx : OfValues x)
    (hk : ∀ b, OfValues (k b)) : OfValues (x >>= k) := by
  cases hx with
  | ok b => exact hk b
  | error h => exact .error h

theorem map {x : Except Fault β} (hx : OfValues x) (f : β → α) : OfValues (f <$> x) := by
  cases hx with
  | ok b => exact .ok (f b)
  | error h => exact .error h

end OfValues

/-- Integers only overflow. -/
theorem ofValues_checked (n : Int) : OfValues (checked n) := by
  unfold checked
  split
  · exact .ok _
  · exact .error rfl

/-- Arithmetic fails with mixed bases, a division by zero or an overflow. -/
theorem Number.ofValues_apply (op : Arith) (a b : Number) : OfValues (a.apply op b) := by
  unfold Number.apply
  split
  · exact .error rfl
  split
  · exact .error rfl
  split
  · exact (ofValues_checked _).map _
  · split
    · exact .ok _
    · exact (ofValues_checked _).map _
  · exact .ok _

theorem Number.ofValues_negate (n : Number) : OfValues n.negate := by
  cases n with
  | decimal | hexadecimal => exact (ofValues_checked _).map _
  | float => exact .ok _

namespace Value

theorem ofValues_arith (op : Arith) (a b : Value) : OfValues (a.arith op b) := by
  unfold arith
  split
  · exact (Number.ofValues_apply ..).map _
  all_goals exact .error rfl

theorem ofValues_concat (a b : Value) : OfValues (a.concat b) := by
  unfold concat
  split
  · exact .ok _
  · exact .error rfl

theorem ofValues_signed (sign : Sign) (v : Value) : OfValues (v.signed sign) := by
  unfold signed
  split
  · exact (Number.ofValues_negate _).map _
  · exact .ok _
  · exact .error rfl

end Value

namespace Heap

theorem ofValues_slot (size : Nat) (key : Value) : OfValues (slot size key) := by
  unfold slot
  split
  · split
    · exact .error rfl
    · split
      · exact .ok _
      · exact .error rfl
  · exact .error rfl

theorem ofValues_tableKey (key : Value) : OfValues (tableKey key) := by
  unfold tableKey
  split
  · exact .ok _
  · exact .error rfl

/-- Reading fails where there is no such place or key, and where there is no object. -/
theorem ofValues_get (h : Heap) (object key : Value) : OfValues (h.get object key) := by
  unfold get
  split
  · exact (ofValues_slot _ _).bind fun _ => .ok _
  · refine (ofValues_tableKey _).bind fun k => ?_
    split
    · exact .ok _
    · exact .error rfl
  · exact .error rfl

/-- A table takes every key that may be one, so only places may be missing here. -/
theorem ofValues_set (h : Heap) (object key value : Value) : OfValues (h.set object key value) := by
  unfold set
  split
  · exact (ofValues_slot _ _).bind fun _ => .ok _
  · exact (ofValues_tableKey _).bind fun _ => .ok _
  · exact .error rfl

end Heap

/-- Operators between two operands fail over their operands alone. -/
theorem BinaryOp.ofValues_apply (op : BinaryOp) (a b : Value) (h : Heap) :
    OfValues (op.apply a b h) := by
  cases op with
  | arith op => exact Value.ofValues_arith op a b
  | concat => exact Value.ofValues_concat a b
  | and | or => exact .ok _

theorem UnaryOp.ofValues_apply (op : UnaryOp) (v : Value) (h : Heap) : OfValues (op.apply v h) := by
  cases op with
  | sign s => exact Value.ofValues_signed s v
  | not => exact .ok _

/-! ## Answers that do not depend on the calls -/

/-- Whether a fault is that too many calls are under way. -/
def Fault.isCut : Fault → Bool
  | callDepth _ => true
  | _ => false

/-- Answers of what knows nothing of the calls under way. -/
inductive Uncut {α : Type} : Except Fault α → Prop where
  | ok (a : α) : Uncut (.ok a)
  | error {fault : Fault} : fault.isCut = false → Uncut (.error fault)

/-- Operations on values know nothing of calls. -/
theorem OfValues.uncut {α : Type} {x : Except Fault α} (h : OfValues x) : Uncut x := by
  cases h with
  | ok a => exact .ok a
  | @error fault h =>
    refine .error ?_
    cases fault <;> first | rfl | cases h

/-! ## Clauses -/

/-- What is done about a message box: in debug mode it is told of, and out of
it it is shown, if it can be. -/
def Plan.boxed (message : String) (r : Request) (span : Span) : Plan Outcome :=
  .andThen (.act .debugging) fun debug =>
    if debug then Plan.did message
    else do
      if (← act (.present r)) then return .message message
      else Plan.fail (.unsupportedBox r.options) span

/-- The terms of a clause: what the functions that it calls satisfy, where its
calls are, what it declares, and whether it looks at debug mode and asks for
boxes in any other way than `Plan.boxed` does. -/
structure Plan.Terms where
  callee : Function → Prop
  site : Span → Prop
  declared : Declaration → Prop
  opensBoxes : Prop

/-- Actions that do not depend on the calls under way and that keep to some
terms. -/
def Op.Plain (t : Plan.Terms) {α : Type} : Op α → Prop
  | debugging | present _ => t.opensBoxes
  | ask _ question => ∀ h, Uncut (question h)
  | declare name _ body => ∃ d, t.declared d ∧ d.name.name = name ∧ d.body = body
  | _ => True

/-- **What clauses are made of**, on their terms. -/
inductive Plan.Clause (t : Terms) : {α : Type} → Plan α → Prop where
  | done {α : Type} (a : α) : Clause t (.done a)
  | act {α : Type} {op : Op α} : op.Plain t → Clause t (.act op)
  /-- A part has terms of its own for its calls. -/
  | job {α : Type} {j : Job α} : (∀ d ∈ j.declarations, t.declared d) → Clause t (.job j)
  | call {f : Function} (args : List Value) {site : Span} : t.callee f → t.site site →
      Clause t (.call f args site)
  | andThen {α β : Type} {first : Plan β} {next : β → Plan α} :
      Clause t first → (∀ b, Clause t (next b)) → Clause t (.andThen first next)
  /-- Behind its lookup a function is known to be one that may be called. -/
  | function {α : Type} (callee : Identifier) {next : Function → Plan α} :
      (∀ f, t.callee f → Clause t (next f)) → Clause t (.andThen (Plan.function callee) next)
  | boxed (message : String) (r : Request) (span : Span) : Clause t (Plan.boxed message r span)

/-- A name is looked up without changing anything. -/
theorem Plan.eq_of_value_ends {name : String} {span : Span} {m n : Machine} {v : Value}
    (h : (Plan.value name span).Ends m (.ok v n)) : n = m := by
  obtain ⟨found, m', hf, h⟩ := h.of_bind_ok
  cases hf.of_act
  cases hm : m.stack.lookup m.stack.current name with
  | none =>
    rw [hm] at h
    exact (Plan.Ends.not_fail_ok h).elim
  | some w =>
    rw [hm] at h
    cases h.of_done
    rfl

/-- The function that a call finds is one of the machine's. -/
theorem Plan.exists_of_function_ends {callee : Identifier} {m n : Machine} {f : Function}
    (h : (Plan.function callee).Ends m (.ok f n)) : ∃ id, f = m.heap.function id := by
  obtain ⟨v, m', hv, h⟩ := h.of_bind_ok
  cases Plan.eq_of_value_ends hv
  cases v with
  | function id =>
    cases h.of_act
    exact ⟨id, rfl⟩
  | _ => exact (Plan.Ends.not_fail_ok h).elim

/-- A plan that is a call is one to such a function from such a place. -/
def Plan.Calls (P : Function → Span → Prop) {α : Type} : Plan α → Prop
  | call f _ site => P f site
  | _ => True

namespace Plan.Clause

variable {t : Terms} {α β : Type}

theorem bind {p : Plan β} {k : β → Plan α} (hp : p.Clause t) (hk : ∀ b, (k b).Clause t) :
    (p >>= k).Clause t := .andThen hp hk

/-- A clause may fail with any fault but that too many calls are under way. -/
theorem fail {fault : Fault} (h : fault.isCut = false) (span : Span) :
    (Plan.fail fault span : Plan α).Clause t :=
  .act fun _ => .error h

/-- A name that is not bound is the only thing that a lookup fails with. -/
theorem value (name : String) (span : Span) : (Plan.value name span).Clause t := by
  refine .bind (.act trivial) fun v => ?_
  cases v with
  | none => exact .fail rfl _
  | some v => exact .done v

/-- The function of a call is looked up like any other name. -/
theorem lookup (callee : Identifier) : (Plan.function callee).Clause t := by
  refine .bind (.value _ _) fun v => ?_
  cases v with
  | function id => exact .act trivial
  | _ => exact .fail rfl _

theorem did (message : String) : (Plan.did message).Clause t :=
  .bind (.act trivial) fun _ => .done _

/-- Parts of expressions and of values declare nothing. -/
theorem part {j : Job α} (h : j.declarations = []) : (Plan.job j).Clause t :=
  .job fun d hd => by rw [h] at hd; cases hd

theorem shownOr {default : Plan String} (h : default.Clause t) (e : Option Expr) :
    (Plan.shownOr default e).Clause t := by
  cases e with
  | none => exact h
  | some e => exact .bind (.part rfl) fun v => .part rfl

/-- Opened for plans of every type, for those of values cannot be told apart from
the others by their type. -/
theorem calls {p : Plan α} (h : p.Clause t) :
    p.Calls fun f site => t.callee f ∧ t.site site := by
  cases h with
  | call _ hf hs => exact ⟨hf, hs⟩
  | _ => trivial

theorem of_act {op : Op α} (h : (Plan.act op).Clause t) : op.Plain t := by
  cases h with
  | act hp => exact hp

theorem of_call {f : Function} {args : List Value} {site : Span}
    (h : (Plan.call f args site).Clause t) : t.callee f ∧ t.site site :=
  h.calls

/-- A plan that goes on to another is made of two, the second of which may rely
on it that what was called is among the functions of the machine. -/
theorem split {first : Plan β} {next : β → Plan α} (h : (Plan.andThen first next).Clause t)
    (hb : t.opensBoxes) :
    first.Clause t ∧ ∀ m n b, first.Ends m (.ok b n) → (∀ id, t.callee (m.heap.function id)) →
      (next b).Clause t := by
  cases h with
  | andThen hp hk => exact ⟨hp, fun _ _ b _ _ => hk b⟩
  | function callee hk =>
    refine ⟨.lookup callee, fun m n f he hf => hk f ?_⟩
    obtain ⟨id, rfl⟩ := Plan.exists_of_function_ends he
    exact hf id
  | boxed message r span =>
    refine ⟨.act hb, fun m n debug _ _ => ?_⟩
    cases debug with
    | true => exact .did message
    | false =>
      refine .bind (.act hb) fun shown => ?_
      cases shown with
      | true => exact .done _
      | false => exact .fail rfl _

end Plan.Clause

/-! ## Clause by clause -/

variable {t : Plan.Terms}

/-- Of all expressions only a call calls, the function that it looked up and at its own
span. -/
theorem Expr.clause_plan (e : Expr) (h : ∀ span, (Job.expr e).site? = some span → t.site span) :
    e.plan.Clause t := by
  cases e with
  | number | boolean => exact .done _
  | text value interpolated span =>
    cases interpolated with
    | false => exact .done _
    | true => exact .bind (.bind (.part rfl) fun _ => .done _) fun _ => .done _
  | array => exact .bind (.part rfl) fun _ => .act trivial
  | table => exact .bind (.part rfl) fun _ => .act trivial
  | name identifier => exact .value _ _
  | access =>
    refine .bind (.part rfl) fun _ => .bind (.part rfl) fun _ => .act fun h => ?_
    exact (h.ofValues_get _ _).uncut
  | binary op =>
    refine .bind (.part rfl) fun _ => .bind (.part rfl) fun _ => .act fun h => ?_
    exact (op.ofValues_apply _ _ h).uncut
  | unary op => exact .bind (.part rfl) fun _ => .act fun h => (op.ofValues_apply _ h).uncut
  | choice condition yes no span =>
    refine .bind (.part rfl) fun v => .bind (.act trivial) fun b => ?_
    cases b <;> exact .part rfl
  | call callee args span =>
    refine .function callee fun f hf => ?_
    split
    · exact .bind (.part rfl) fun values => .call values hf (h span rfl)
    · exact .fail rfl _

/-- What a box shows is worked out first; then debug mode is looked at, in the one place
for it. -/
theorem BoxArguments.clause_plan (args : BoxArguments) (span : Span) :
    (args.plan span).Clause t := by
  have hd : (Plan.act .title).Clause t := .act trivial
  refine .bind (.shownOr hd _) fun title => .bind (.shownOr (.done _) _) fun text => ?_
  refine .bind (.act trivial) fun timeout => ?_
  exact .boxed _ ⟨title, text, boxOptions args.options, timeout⟩ _

/-- A statement declares what `Stmt.declarations` lists and calls nothing itself. -/
theorem Stmt.clause_plan (s : Stmt) (h : ∀ d ∈ s.declarations, t.declared d) : s.plan.Clause t := by
  cases s with
  | assign =>
    refine .bind (.part rfl) fun v => .bind (.part rfl) fun shown => ?_
    refine .bind (.act trivial) fun scope => ?_
    exact .bind (.act trivial) fun _ => .bind (.did _) fun _ => .done _
  | store =>
    refine .bind (.part rfl) fun o => .bind (.part rfl) fun k => .bind (.part rfl) fun v => ?_
    refine .bind (.part rfl) fun shownKey => .bind (.part rfl) fun shown => ?_
    exact .bind (.act trivial) fun _ => .bind (.did _) fun _ => .done _
  | branch condition yes no span =>
    refine .bind (.part rfl) fun v => .bind (.act trivial) fun b => ?_
    match b, no with
    | true, none => exact .bind (.job h) fun _ => .done _
    | false, none => exact .done _
    | true, some no =>
      exact .bind (.job fun d hd => h d (List.mem_append_left _ hd)) fun _ => .done _
    | false, some no =>
      exact .bind (.job fun d hd => h d (List.mem_append_right _ hd)) fun _ => .done _
  | declare name params body span =>
    have hd : t.declared ⟨name, params, body⟩ := h _ (List.mem_cons_self ..)
    refine .bind (.part rfl) fun names => .bind (.act ⟨_, hd, rfl, rfl⟩) fun _ => ?_
    exact .bind (.did _) fun _ => .done _
  | give value span =>
    refine .bind (.act trivial) fun b => ?_
    match b, value with
    | false, _ => exact .fail rfl _
    | true, none => exact .done _
    | true, some e => exact .bind (.part rfl) fun _ => .done _
  | box args span => exact .bind (args.clause_plan span) fun _ => .done _
  | expr => exact .bind (.part rfl) fun _ => .done _

/-- Showing a value looks into the heap and does nothing else. -/
theorem Value.clause_shownPlan (enclosing : List Container) (v : Value) :
    (v.shownPlan enclosing).Clause t := by
  cases v with
  | number | text | boolean => exact .done _
  | function => exact .bind (.act trivial) fun _ => .done _
  | array id =>
    by_cases hn : Container.array id ∈ enclosing
    · simp only [Value.shownPlan, if_pos hn]
      exact .done _
    · simp only [Value.shownPlan, if_neg hn]
      exact .bind (.act trivial) fun _ => .bind (.part rfl) fun _ => .done _
  | table id =>
    by_cases hn : Container.table id ∈ enclosing
    · simp only [Value.shownPlan, if_pos hn]
      exact .done _
    · simp only [Value.shownPlan, if_neg hn]
      exact .bind (.act trivial) fun _ => .bind (.part rfl) fun _ => .done _

/-- **Every part of a script is evaluated by a clause**, whose declarations are
those of the part, and which calls only where the part is a call. -/
theorem Job.clause_plan {α : Type} (j : Job α) (h : ∀ d ∈ j.declarations, t.declared d)
    (hs : ∀ span, j.site? = some span → t.site span) : j.plan.Clause t := by
  cases j with
  | expr e => exact e.clause_plan hs
  | key k =>
    cases k with
    | member => exact .done _
    | index => exact .part rfl
  | exprs es =>
    cases es with
    | nil => exact .done _
    | cons => exact .bind (.part rfl) fun _ => .bind (.part rfl) fun _ => .done _
  | entries map es =>
    cases es with
    | nil => exact .done _
    | cons =>
      refine .bind (.part rfl) fun key => .bind (.part rfl) fun _ => ?_
      have hkey := (Heap.ofValues_tableKey key).uncut
      exact .bind (.bind (.act fun _ => hkey) fun _ => .done _) fun _ => .part rfl
  | parts span ps =>
    cases ps with
    | nil => exact .done _
    | cons p ps =>
      cases p with
      | char => exact .bind (.part rfl) fun _ => .done _
      | reference =>
        refine .bind (.value _ _) fun _ => ?_
        exact .bind (.part rfl) fun _ => .bind (.part rfl) fun _ => .done _
  | shown enclosing v => exact v.clause_shownPlan enclosing
  | shownItems enclosing vs =>
    cases vs with
    | nil => exact .done _
    | cons => exact .bind (.part rfl) fun _ => .bind (.part rfl) fun _ => .done _
  | shownEntries enclosing es =>
    cases es with
    | nil => exact .done _
    | cons => exact .bind (.part rfl) fun _ => .bind (.part rfl) fun _ => .done _
  | params ps =>
    cases ps with
    | nil => exact .done _
    | cons p ps =>
      cases p with
      | name => exact .bind (.part rfl) fun _ => .done _
      | _ => exact .fail rfl _
  | stmt s => exact s.clause_plan h
  | block b =>
    cases b with
    | mk statements span => exact .job h
  | stmts ss =>
    cases ss with
    | nil => exact .done _
    | cons s ss =>
      refine .bind (.job fun d hd => h d (List.mem_append_left _ hd)) fun ending => ?_
      cases ending with
      | give v => exact .done _
      | next outcome =>
        refine .bind (.job fun d hd => h d (List.mem_append_right _ hd)) fun ending => ?_
        cases ending <;> exact .done _

end HotkeyScript
