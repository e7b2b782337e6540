import HotkeyScript.Proofs.Machine.Likeness
import HotkeyScript.Proofs.Plan.Halting
import HotkeyScript.Proofs.Session.Text
/-!
# The machine — like programs run alike

A running program sees of a span nothing but the line it begins on, and that only
when it fails. So what is alike is evaluated alike, on machines that are alike:
to the same value, or to the same error with the same traceback
(`Expr.agree_eval`, `Stmt.agree_run`). There is one lemma for each step of the
machine and one for each form of expression and statement; a call runs like
bodies, however deep calls may go (`agree_callAt`).
-/

namespace HotkeyScript

open Machine

variable {A : Alignment}

namespace Run.Agree

variable {α α' β β' : Type} {V : α → β → Prop} {W : α' → β' → Prop}

theorem pure {a : α} {b : β} (h : V a b) : Run.Agree A V (pure a) (pure b) :=
  fun _ _ hm => .ok h hm

/-- One after another: the second parts start from values that are related, on machines
that are alike. -/
theorem bind {x : Run α} {y : Run β} {k : α → Run α'} {l : β → Run β'} (h : Run.Agree A V x y)
    (hk : ∀ a b, V a b → Run.Agree A W (k a) (l b)) : Run.Agree A W (x >>= k) (y >>= l) := by
  intro m n hm
  have hr := h m n hm
  generalize hx : x m = r, hy : y n = r' at hr
  cases hr with
  | ok hv hm =>
    rw [Run.bind_of_ok hx, Run.bind_of_ok hy]
    exact hk _ _ hv _ _ hm
  | error he hm =>
    rw [Run.bind_of_error hx, Run.bind_of_error hy]
    exact .error he hm

/-- Where both give the same, what follows is one continuation. -/
theorem bindEq {x y : Run α} {k : α → Run α'} {l : α → Run β'} (h : Run.Agree A Eq x y)
    (hk : ∀ a, Run.Agree A W (k a) (l a)) : Run.Agree A W (x >>= k) (y >>= l) :=
  h.bind fun a _ he => he ▸ hk a

end Run.Agree

/-! ## Steps of the machine -/

namespace Machine

variable {α β : Type} {V : α → β → Prop}

/-- A failure has the traceback of the innermost scope, to which of its span only the line
matters. -/
theorem agree_fail [A.KeepsLines] (fault : Fault) {s t : Span} (h : A.alike s t) :
    Run.Agree A V (fail fault s) (fail fault t) := by
  intro m n hm
  refine .error ⟨rfl, ?_⟩ hm
  -- of the span only its line gets into the traceback
  simp only [hm.stack.current, hm.stack.frames _ (Alignment.KeepsLines.line h)]

theorem agree_orFail [A.KeepsLines] (answer : Except Fault α) {s t : Span} (h : A.alike s t) :
    Run.Agree A Eq (orFail s answer) (orFail t answer) := by
  cases answer with
  | ok a => exact .pure rfl
  | error fault => exact agree_fail fault h

/-- A question to the heap that has one answer on heaps that are alike. -/
theorem agree_ask [A.KeepsLines] {question : Heap → Except Fault α} {s t : Span} (h : A.alike s t)
    (hq : ∀ h k, h.Like A k → question k = question h) :
    Run.Agree A Eq (ask s question) (ask t question) := by
  intro m n hm
  simp only [ask, hq _ _ hm.heap]
  exact agree_orFail _ h m n hm

/-- What is read off machines that are alike is the same. -/
theorem agree_read {view : Machine → α} (h : ∀ m n, m.Like A n → view n = view m) :
    Run.Agree A Eq (fun m => .ok (view m) m) (fun m => .ok (view m) m) :=
  fun m n hm => .ok (h m n hm).symm hm

theorem agree_display (v : Value) : Run.Agree A Eq (display v) (display v) :=
  agree_read fun _ _ hm => hm.heap.looksLike.display v

theorem agree_lookup? (name : String) : Run.Agree A Eq (lookup? name) (lookup? name) :=
  agree_read fun _ _ hm => by rw [hm.stack.current, hm.stack.lookup]

theorem agree_isTrue (v : Value) : Run.Agree A Eq (isTrue v) (isTrue v) :=
  agree_read fun _ _ hm => hm.heap.looksLike.isTruthy v

theorem agree_inFunction : Run.Agree A Eq inFunction inFunction :=
  agree_read fun _ _ hm => by rw [hm.stack.current]

theorem agree_debugging : Run.Agree A Eq debugging debugging :=
  agree_read fun _ _ hm => by rw [hm.settings]

theorem agree_callLimit : Run.Agree A Eq callLimit callLimit :=
  agree_read fun _ _ hm => by rw [hm.settings]

theorem agree_scopeName : Run.Agree A Eq scopeName scopeName :=
  agree_read fun _ _ hm => by rw [hm.stack.current, (hm.stack.scope _).name]

/-- The title of a box may be the name of the script, which is the same. -/
theorem agree_titleOrDefault : Run.Agree A Eq titleOrDefault titleOrDefault :=
  agree_read fun _ _ hm => by rw [hm.settings, hm.stack.module.source.name]

/-- The time of a box is what its number comes to, wherever that stands. -/
theorem agree_timeout {l k : Option NumberLiteral} (h : Option.Rel (NumberLiteral.Like A) l k) :
    Run.Agree A Eq (timeout l) (timeout k) := by
  intro m n hm
  refine .ok ?_ hm
  cases h with
  | none => rfl
  | some h => simp only [Option.map_some, hm.settings, h.value]

theorem agree_lookup [A.KeepsLines] (name : String) {s t : Span} (h : A.alike s t) :
    Run.Agree A Eq (lookup name s) (lookup name t) := by
  refine .bindEq (agree_lookup? name) fun v => ?_
  cases v with
  | some v => exact .pure rfl
  | none => exact agree_fail _ h

/-- A name stands for functions that are alike. -/
theorem agree_functionOf [A.KeepsLines] {i j : Identifier} (h : i.Like A j) :
    Run.Agree A (Function.Like A) (functionOf i) (functionOf j) := by
  rw [functionOf, functionOf, h.name]
  refine .bindEq (agree_lookup i.name h.span) fun v => ?_
  cases v with
  | function id => exact fun m n hm => .ok (hm.heap.function id) hm
  | number | text | boolean | array | table => exact agree_fail _ h.span

/-- What is made new is referred to by one handle in both. -/
theorem agree_newArray (items : List Value) : Run.Agree A Eq (newArray items) (newArray items) := by
  intro m n hm
  obtain ⟨hv, hh⟩ := hm.heap.newArray items.toArray
  exact .ok hv.symm { hm with heap := hh }

theorem agree_newTable (entries : OrderedMap TableKey Value) :
    Run.Agree A Eq (newTable entries) (newTable entries) := by
  intro m n hm
  obtain ⟨hv, hh⟩ := hm.heap.newTable entries
  exact .ok hv.symm { hm with heap := hh }

/-- A value is stored in both, or refused for the same reason. -/
theorem agree_store [A.KeepsLines] (object key value : Value) {s t : Span} (h : A.alike s t) :
    Run.Agree A Eq (store object key value s) (store object key value t) := by
  intro m n hm
  have hr := hm.heap.set object key value
  rw [store, store]
  generalize m.heap.set object key value = r, n.heap.set object key value = r' at hr
  cases hr with
  | ok hh => exact .ok rfl { hm with heap := hh }
  | error he =>
    subst he
    exact agree_fail _ h m n hm

/-- An assignment is made from the innermost scope. -/
theorem agree_assign (name : String) (v : Value) (isGlobal : Bool) :
    Run.Agree A Eq (assign name v isGlobal) (assign name v isGlobal) := by
  intro m n hm
  refine .ok rfl { hm with stack := ?_ }
  rw [hm.stack.current]
  exact hm.stack.assign _ name v isGlobal

/-- Declared functions are alike, since their bodies are and the scripts they stand in. -/
theorem agree_declare (name : String) (params : List String) {b c : Block}
    (h : List.Forall₂ (Stmt.Like A) b.statements c.statements) :
    Run.Agree A Eq (declare name params b) (declare name params c) := by
  intro m n hm
  have hs : (m.stack.scope m.stack.current).source.Like (n.stack.scope n.stack.current).source := by
    rw [hm.stack.current]
    exact (hm.stack.scope m.stack.current).source
  have hf : Function.Like A ⟨name, params, b, _⟩ ⟨name, params, c, _⟩ := ⟨rfl, rfl, h, hs⟩
  obtain ⟨hv, hh⟩ := hm.heap.newFunction hf
  refine .ok rfl { hm with heap := hh, stack := ?_ }
  have hv : Value.function ⟨n.heap.functions.size⟩ = .function ⟨m.heap.functions.size⟩ := hv
  rw [hv, hm.stack.current]
  exact hm.stack.setAt m.stack.current name _ false

/-- Whether a message is echoed is a setting. -/
theorem agree_echo (message : String) : Run.Agree A Eq (echo message) (echo message) := by
  intro m n hm
  rw [echo, echo, hm.settings]
  split
  · have he := congrArg (·.push message) hm.echoes
    exact .ok rfl ⟨rfl, hm.accepts, hm.stack, hm.heap, he, hm.shown, hm.journal⟩
  · exact .ok rfl hm

theorem agree_did (message : String) : Run.Agree A Eq (did message) (did message) :=
  .bindEq (agree_echo message) fun _ => .pure rfl

/-- A box is shown and put down in the journal, and whether it was accepted is asked of
one and the same function. -/
theorem agree_present (r : Request) : Run.Agree A Eq (present r) (present r) := by
  intro m n hm
  refine .ok (congrFun hm.accepts r).symm
    { hm with
      journal := congrArg (·.push (.showing r.options)) hm.journal
      shown := congrArg (·.push r) hm.shown }

/-- To enter a call is to push a scope, to bind the arguments in it and to say so in the
journal. -/
theorem agree_enter {f g : Function} (hf : f.Like A g) (args : List Value) {p q : Position}
    (hl : q.line = p.line) : Run.Agree A Eq (enter f args p) (enter g args q) := by
  intro m n hm
  have hp := hm.stack.push f.name m.stack.current hl hf.source
  refine .ok rfl { hm with stack := ?_, journal := ?_ }
  · rw [hf.name, hf.params, hm.stack.current]
    exact hp.bindAll (f.params.zip args)
  · rw [hf.name, hm.stack.current, hp.depth, hm.journal]

theorem agree_leave : Run.Agree A Eq leave leave := fun _ _ hm => .ok rfl hm.left

end Machine

/-! ## Expressions -/

section

variable [A.KeepsLines]

/-- References in a text are looked up one by one, and fail at the span of the text. -/
theorem agree_fill {s t : Span} (h : A.alike s t) (parts : List Text.Part) :
    Run.Agree A Eq (fill s parts) (fill t parts) := by
  induction parts with
  | nil => exact .pure rfl
  | cons part parts ih =>
    cases part with
    | char c => exact .bindEq ih fun _ => .pure rfl
    | reference name =>
      refine .bindEq (agree_lookup _ h) fun v => ?_
      exact .bindEq (agree_display v) fun _ => .bindEq ih fun _ => .pure rfl

theorem agree_interpolate (text : String) {s t : Span} (h : A.alike s t) :
    Run.Agree A Eq (interpolate text s) (interpolate text t) :=
  .bindEq (agree_fill h _) fun _ => .pure rfl

/-- The span is that of a key, which is blamed if it can be none. -/
theorem agree_putEntry (entries : OrderedMap TableKey Value) (key value : Value) {s t : Span}
    (h : A.alike s t) :
    Run.Agree A Eq (putEntry entries key value s) (putEntry entries key value t) :=
  .bindEq (agree_orFail _ h) fun _ => .pure rfl

/-- What calls do to functions that are alike is the same. -/
def Caller.Agree (A : Alignment) (call call' : Caller) : Prop :=
  ∀ f g args s t, f.Like A g → A.alike s t → Run.Agree A Eq (call f args s) (call' g args t)

section

set_option linter.unusedSectionVars false

variable {call call' : Caller} (hc : Caller.Agree A call call')
include hc

mutual

/-- **Like expressions have the same value**, or fail alike. -/
theorem Expr.agree_eval :
    ∀ e f : Expr, e.Like A f → Run.Agree A Eq (e.eval call) (f.eval call')
  | .number _, _, .number h => .pure (by rw [h.value])
  | .text _ false _, _, .text _ _ _ => .pure rfl
  | .text value true _, _, .text _ _ h => .bindEq (agree_interpolate value h) fun _ => .pure rfl
  | .boolean _ _, _, .boolean _ _ => .pure rfl
  | .array es _, _, .array h _ =>
    .bindEq (Expr.agree_evalAll es _ h) fun items => agree_newArray items
  | .table es _, _, .table h _ =>
    .bindEq (Expr.agree_evalEntries es _ .empty h) fun map => agree_newTable map
  | .name _, _, .name h => by
    rw [Expr.eval, Expr.eval, h.name]
    exact agree_lookup _ h.span
  | .access e k _, _, .access he hk _ => by
    refine .bindEq (Expr.agree_eval e _ he) fun o => .bindEq (Key.agree_eval k _ hk) fun v => ?_
    exact agree_ask hk.span fun h k hl => hl.looksLike.get o v
  | .binary op e e' _, _, .binary _ h h' hs => by
    refine .bindEq (Expr.agree_eval e _ h) fun a => .bindEq (Expr.agree_eval e' _ h') fun b => ?_
    exact agree_ask hs fun h k hl => op.apply_congr hl.looksLike a b
  | .unary op e _, _, .unary _ h hs =>
    .bindEq (Expr.agree_eval e _ h) fun v => agree_ask hs fun h k hl => op.apply_congr hl.looksLike v
  | .choice c e e' _, _, .choice hc' h h' _ => by
    refine .bindEq (Expr.agree_eval c _ hc') fun v => .bindEq (agree_isTrue v) fun b => ?_
    cases b with
    | true => exact Expr.agree_eval e _ h
    | false => exact Expr.agree_eval e' _ h'
  | .call _ es _, _, .call hi h hs => by
    refine .bind (agree_functionOf hi) fun f g hf => ?_
    rw [hf.params, hf.name, ← h.length_eq]
    split
    · exact .bindEq (Expr.agree_evalAll es _ h) fun values => hc f g values _ _ hf hs
    · exact agree_fail _ hs

theorem Key.agree_eval : ∀ k l : Key, k.Like A l → Run.Agree A Eq (k.eval call) (l.eval call')
  | .member _, _, .member h => .pure (by rw [h.name])
  | .index e, _, .index h => Expr.agree_eval e _ h

/-- Rows of expressions have the same values, from the left. -/
theorem Expr.agree_evalAll :
    ∀ es fs : List Expr, List.Forall₂ (Expr.Like A) es fs →
      Run.Agree A Eq (Expr.evalAll call es) (Expr.evalAll call' fs)
  | [], _, .nil => .pure rfl
  | e :: es, _, .cons h hs =>
    .bindEq (Expr.agree_eval e _ h) fun _ =>
      .bindEq (Expr.agree_evalAll es _ hs) fun _ => .pure rfl

/-- The key of an entry is evaluated, then its value, and then the entry is put in. -/
theorem Expr.agree_evalEntries :
    ∀ (es fs : List (Expr × Expr)) (map : OrderedMap TableKey Value),
      List.Forall₂ (Expr.EntryLike A) es fs →
      Run.Agree A Eq (Expr.evalEntries call map es) (Expr.evalEntries call' map fs)
  | [], _, _, .nil => .pure rfl
  | (k, e) :: es, _, map, .cons (.mk hk he) hs => by
    refine .bindEq (Expr.agree_eval k _ hk) fun key => .bindEq (Expr.agree_eval e _ he) fun v => ?_
    refine .bindEq (agree_putEntry map key v hk.span) fun map => ?_
    exact Expr.agree_evalEntries es _ map hs

end

/-! ## Statements -/

omit hc in
/-- Parameters have to be names; the first that is none is blamed. -/
theorem agree_paramNames {ps qs : List Expr} (h : List.Forall₂ (Expr.Like A) ps qs) :
    Run.Agree A Eq (paramNames ps) (paramNames qs) := by
  induction h with
  | nil => exact .pure rfl
  | @cons p q ps qs hp _ ih =>
    cases hp with
    | name hi =>
      rw [paramNames, paramNames, hi.name]
      exact .bindEq ih fun _ => .pure rfl
    | number h => exact agree_fail _ h.span
    | text _ _ h => exact agree_fail _ h
    | boolean _ h => exact agree_fail _ h
    | array _ h => exact agree_fail _ h
    | table _ h => exact agree_fail _ h
    | access _ _ h => exact agree_fail _ h
    | binary _ _ _ h => exact agree_fail _ h
    | unary _ _ h => exact agree_fail _ h
    | choice _ _ _ h => exact agree_fail _ h
    | call _ _ h => exact agree_fail _ h

/-- A part of a box is what its expression is shown as, or the default. -/
theorem agree_shownOr {default default' : Run String} (hd : Run.Agree A Eq default default')
    {e f : Option Expr} (h : Option.Rel (Expr.Like A) e f) :
    Run.Agree A Eq (shownOr call default e) (shownOr call' default' f) := by
  cases h with
  | none => exact hd
  | some h => exact .bindEq (Expr.agree_eval hc _ _ h) fun v => agree_display v

omit hc in
/-- The options of a box are a number, wherever that stands. -/
theorem boxOptions_like {l k : Option NumberLiteral} (h : Option.Rel (NumberLiteral.Like A) l k) :
    boxOptions k = boxOptions l := by
  cases h with
  | none => rfl
  | some h => rw [boxOptions, boxOptions, Option.bind_some, Option.bind_some, h.value]

/-- A box comes to the same request, and is echoed or presented alike. -/
theorem BoxArguments.agree_run {a b : BoxArguments} (h : a.Like A b) {s t : Span}
    (hs : A.alike s t) : Run.Agree A Eq (a.run call s) (b.run call' t) := by
  refine .bindEq (agree_shownOr hc agree_titleOrDefault h.title) fun title => ?_
  refine .bindEq (agree_shownOr hc (.pure rfl) h.text) fun text => ?_
  refine .bindEq (agree_timeout h.timeout) fun timeout => .bindEq agree_debugging fun debug => ?_
  cases debug with
  | true => exact agree_did _
  | false =>
    rw [boxOptions_like h.options]
    refine .bindEq (agree_present _) fun shown => ?_
    cases shown with
    | true => exact .pure rfl
    | false =>
      refine agree_fail _ ?_
      -- the options are blamed, or the whole box where it has none
      have ho := h.options
      generalize a.options = o, b.options = o' at ho
      cases ho with
      | none => exact hs
      | some h => exact h.span

mutual

/-- **Like statements do the same**, or fail alike. -/
theorem Stmt.agree_run :
    ∀ s t : Stmt, s.Like A t → Run.Agree A Eq (s.run call) (t.run call')
  | .assign _ _ isGlobal _, _, .assign _ hi he _ => by
    rw [Stmt.run, Stmt.run, hi.name]
    refine .bindEq (Expr.agree_eval hc _ _ he) fun v => .bindEq (agree_display v) fun _ => ?_
    refine .bindEq agree_scopeName fun _ => .bindEq (agree_assign _ v isGlobal) fun _ => ?_
    exact .bindEq (agree_did _) fun _ => .pure rfl
  | .store _ _ _ _, _, .store he hk he' _ => by
    rw [Stmt.run, Stmt.run]
    refine .bindEq (Expr.agree_eval hc _ _ he) fun o => ?_
    refine .bindEq (Key.agree_eval hc _ _ hk) fun k => ?_
    refine .bindEq (Expr.agree_eval hc _ _ he') fun v => .bindEq (agree_display k) fun _ => ?_
    refine .bindEq (agree_display v) fun _ => .bindEq (agree_store o k v hk.span) fun _ => ?_
    exact .bindEq (agree_did _) fun _ => .pure rfl
  | .branch _ b none _, _, .branch he hb .none _ => by
    rw [Stmt.run, Stmt.run]
    refine .bindEq (Expr.agree_eval hc _ _ he) fun v => .bindEq (agree_isTrue v) fun t => ?_
    cases t with
    | true => exact .bindEq (Block.agree_run b _ hb) fun _ => .pure rfl
    | false => exact .pure rfl
  | .branch _ b (some no) _, _, .branch he hb (.some hno) _ => by
    rw [Stmt.run, Stmt.run]
    refine .bindEq (Expr.agree_eval hc _ _ he) fun v => .bindEq (agree_isTrue v) fun t => ?_
    cases t with
    | true => exact .bindEq (Block.agree_run b _ hb) fun _ => .pure rfl
    | false => exact .bindEq (Block.agree_run no _ hno) fun _ => .pure rfl
  | .declare _ _ _ _, _, .declare hi hp hb _ => by
    rw [Stmt.run, Stmt.run, hi.name]
    refine .bindEq (agree_paramNames hp) fun names => ?_
    refine .bindEq (agree_declare _ names hb.statements) fun _ => ?_
    exact .bindEq (agree_did _) fun _ => .pure rfl
  | .give none _, _, .give .none hs => by
    rw [Stmt.run, Stmt.run]
    refine .bindEq agree_inFunction fun inside => ?_
    cases inside with
    | false => exact agree_fail _ hs
    | true => exact .pure rfl
  | .give (some _) _, _, .give (.some he) hs => by
    rw [Stmt.run, Stmt.run]
    refine .bindEq agree_inFunction fun inside => ?_
    cases inside with
    | false => exact agree_fail _ hs
    | true => exact .bindEq (Expr.agree_eval hc _ _ he) fun _ => .pure rfl
  | .box _ _, _, .box h hs => by
    rw [Stmt.run, Stmt.run]
    exact .bindEq (BoxArguments.agree_run hc h hs) fun _ => .pure rfl
  | .expr _ _, _, .expr h _ => by
    rw [Stmt.run, Stmt.run]
    exact .bindEq (Expr.agree_eval hc _ _ h) fun _ => .pure rfl

theorem Block.agree_run : ∀ b c : Block, b.Like A c → Run.Agree A Eq (b.run call) (c.run call')
  | .mk ss _, _, .mk h _ => by
    rw [Block.run, Block.run]
    exact Stmt.agree_runAll ss _ h

/-- Rows of statements do the same, up to the first that returns. -/
theorem Stmt.agree_runAll :
    ∀ ss ts : List Stmt, List.Forall₂ (Stmt.Like A) ss ts →
      Run.Agree A Eq (Stmt.runAll call ss) (Stmt.runAll call' ts)
  | [], _, .nil => .pure rfl
  | s :: ss, _, .cons h hs => by
    rw [Stmt.runAll, Stmt.runAll]
    refine .bindEq (Stmt.agree_run s _ h) fun ending => ?_
    cases ending with
    | give v => exact .pure rfl
    | next outcome =>
      refine .bindEq (Stmt.agree_runAll ss _ hs) fun ending => ?_
      cases ending <;> exact .pure rfl

end

end

/-! ## Calls and programs -/

theorem Block.run_eq (call : Caller) (b : Block) : b.run call = Stmt.runAll call b.statements := by
  cases b
  rfl

/-- **Calls do the same to functions that are alike**, to any depth. -/
theorem agree_callAt (n : Nat) : Caller.Agree A (callAt n) (callAt n) := by
  induction n with
  | zero =>
    intro f g args s t hf hs
    exact .bindEq agree_callLimit fun limit => agree_fail _ hs
  | succ n ih =>
    intro f g args s t hf hs
    -- the calls in the body are those with one less of them left
    rw [callAt_succ, callAt_succ, Block.run_eq, Block.run_eq]
    refine .bindEq (agree_enter hf args (Alignment.KeepsLines.line hs)) fun _ => ?_
    refine .bindEq (Stmt.agree_runAll ih _ _ hf.body) fun ending => ?_
    exact .bindEq agree_leave fun _ => .pure rfl

/-- **Like statements of the module are executed alike.** -/
theorem agree_execute {s t : Stmt} (h : s.Like A t) :
    Run.Agree A Eq (Machine.execute s) (Machine.execute t) := by
  intro m n hm
  have hr := Stmt.agree_run (agree_callAt m.callsLeft) s t h m n hm
  unfold Machine.execute
  rw [hm.callsLeft]
  generalize s.run (callAt m.callsLeft) m = r, t.run (callAt m.callsLeft) n = r' at hr
  cases hr with
  | @ok ending _ _ _ he hm' =>
    subst he
    cases ending with
    | next outcome => exact .ok rfl hm'
    | give v => exact .ok rfl hm'
  | error he hm' => exact .error he hm'.unwind

end

/-! ## What a console is shown -/

/-- The same shown, and the same error, if any. -/
structure Execution.Like (x y : Execution) : Prop where
  output : y.output = x.output
  failure : Option.Rel Error.Like x.failure y.failure

namespace Execution.Like

variable {x y : Execution}

/-- The error alone is reported. -/
theorem report (h : x.Like y) : y.report = x.report := by
  have hf := h.failure
  unfold Execution.report
  generalize x.failure = o, y.failure = o' at hf
  cases hf with
  | none => rfl
  | some he => simp only [Option.map_some, he.report]

/-- The status says no more than whether there is an error. -/
theorem status (h : x.Like y) : y.status = x.status := by
  have hf := h.failure
  unfold Execution.status
  generalize x.failure = o, y.failure = o' at hf
  cases hf <;> rfl

theorem after (shown : List Output) (h : x.Like y) : (x.after shown).Like (y.after shown) :=
  ⟨congrArg (shown ++ ·) h.output, h.failure⟩

end Execution.Like

namespace Session

/-- What a statement showed are the boxes that came to those before it, and the echoes. -/
theorem statementOutput_like {m n m' n' : Machine} (h : m.Like A n) (h' : m'.Like A n') :
    statementOutput n n' = statementOutput m m' := by
  rw [statementOutput, statementOutput, h.shown, h'.shown, h'.echoes]

/-- Values are shown as they are displayed, if a setting asks for it. -/
theorem valueLines_like {m n : Machine} (h : m.Like A n) (outcome : Outcome) :
    valueLines n outcome = valueLines m outcome := by
  simp only [valueLines, h.settings, h.heap.looksLike.display]

/-- **Statement by statement**, like programs show the same. -/
theorem executeFrom_like [A.KeepsLines] {ss ts : List Stmt} (h : List.Forall₂ (Stmt.Like A) ss ts)
    {m n : Machine} (hm : m.Like A n) :
    (executeFrom m ss).1.Like (executeFrom n ts).1 ∧
      (executeFrom m ss).2.Like A (executeFrom n ts).2 := by
  induction h generalizing m n with
  | nil => exact ⟨⟨rfl, .none⟩, hm⟩
  | @cons s t ss ts hs _ ih =>
    have hr := agree_execute hs m n hm
    generalize hx : Machine.execute s m = r, hy : Machine.execute t n = r' at hr
    cases hr with
    | ok he hm' =>
      subst he
      obtain ⟨hx', hm''⟩ := ih hm'.withoutEchoes
      rw [executeFrom_cons_ok hx, executeFrom_cons_ok hy, statementOutput_like hm hm',
        valueLines_like hm']
      exact ⟨hx'.after _, hm''⟩
    | error he hm' =>
      rw [executeFrom_cons_error hx, executeFrom_cons_error hy, statementOutput_like hm hm']
      exact ⟨⟨rfl, .some he⟩, hm'.withoutEchoes⟩

end Session

end HotkeyScript
