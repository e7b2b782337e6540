import HotkeyScript.Proofs.Plan.Clause
import HotkeyScript.Proofs.Session.Text
import HotkeyScript.Proofs.Termination
/-!
# Debug mode only observes

Debug mode is looked at in two places. An echo is kept in debug mode and
dropped out of it, and a message box is told of in debug mode and shown out of
it (`Plan.boxed`). Neither choice is seen by what comes after, so a program
comes to the same outcomes or the same error in either mode, with the same
names and objects behind it (`Plan.Ends.twin`). The one exception is a box that
cannot be shown, which only a run out of debug mode gets to know.

In debug mode no box is asked for, and out of it nothing is echoed, whether or
not the run succeeds.
-/

namespace HotkeyScript

/-- A machine with debug mode turned on or off. -/
def Machine.withDebug (m : Machine) (on : Bool) : Machine :=
  { m with settings := { m.settings with debug := on } }

/-- **Twin machines**: `m` is out of debug mode and `n` in it, and they differ
in nothing else but in what was echoed, shown and told to watchers. -/
structure Machine.Twin (m n : Machine) : Prop where
  quiet : m.settings.debug = false
  settings : n.settings = { m.settings with debug := true }
  accepts : n.accepts = m.accepts
  stack : n.stack = m.stack
  heap : n.heap = m.heap

/-- Whether an error says that a box could not be shown. -/
def Error.isRefusedBox (e : Error) : Bool :=
  match e.cause with
  | .runtime (.unsupportedBox _) => true
  | _ => false

namespace Result

variable {α : Type}

/-- Whether a run ended at a box that could not be shown. -/
def isRefusedBox : Result α → Bool
  | .ok _ _ => false
  | .error e _ => e.isRefusedBox

/-- The same value or the same error, on twin machines. -/
inductive Twin : Result α → Result α → Prop where
  | ok {a : α} {m n : Machine} : m.Twin n → Twin (.ok a m) (.ok a n)
  | error {e : Error} {m n : Machine} : m.Twin n → Twin (.error e m) (.error e n)

end Result

namespace Machine.Twin

variable {m n : Machine}

/-- What a machine makes of the two modes are twins. -/
theorem withDebug (m : Machine) : (m.withDebug false).Twin (m.withDebug true) :=
  ⟨rfl, rfl, rfl, rfl, rfl⟩

theorem debug (h : m.Twin n) : n.settings.debug = true := by rw [h.settings]

/-- Twins stay twins while the same is done to the stacks and the objects of
both. -/
theorem change (h : m.Twin n) {m' n' : Machine} (hm : m'.settings = m.settings)
    (hn : n'.settings = n.settings) (hma : m'.accepts = m.accepts) (hna : n'.accepts = n.accepts)
    (hs : n'.stack = m'.stack) (hh : n'.heap = m'.heap) : m'.Twin n' := by
  refine ⟨by rw [hm, h.quiet], by rw [hn, hm, h.settings], ?_, hs, hh⟩
  rw [hna, hma, h.accepts]

theorem left (h : m.Twin n) : m.left.Twin n.left := by
  unfold Machine.left
  rw [h.stack]
  cases m.stack.calls with
  | nil => exact h
  | cons c cs => exact h.change rfl rfl rfl rfl rfl h.heap

theorem unwind (h : m.Twin n) : m.unwind.Twin n.unwind := by
  rw [Machine.unwind, Machine.unwind, h.stack]
  exact unwindBy_rel (R := Machine.Twin) (fun _ _ h => h.left) m.stack.depth h

theorem entered (h : m.Twin n) (f : Function) (args : List Value) (entry : Position) :
    (m.entered f args entry).Twin (n.entered f args entry) := by
  refine h.change rfl rfl rfl rfl ?_ h.heap
  change List.foldl _ _ _ = List.foldl _ _ _
  rw [h.stack]

end Machine.Twin

/-! ## Actions -/

/-- Twins fail alike. -/
theorem Machine.Twin.orFail {m n : Machine} (h : m.Twin n) {α : Type} (span : Span)
    (answer : Except Fault α) :
    Result.Twin (Machine.orFail span answer m) (Machine.orFail span answer n) := by
  cases answer with
  | ok a => exact .ok h
  | error fault =>
    simp only [Machine.orFail, Machine.fail, h.stack]
    exact .error h

/-- Terms that ask for nothing but that boxes stay in their place. -/
def Plan.Terms.any : Plan.Terms := ⟨fun _ => True, fun _ => True, fun _ => True, False⟩

/-- **Plain actions do the same to twins.** An echo is kept by the one and
dropped by the other, and that is all. -/
theorem Op.Plain.twin {α : Type} {op : Op α} (hp : op.Plain .any)
    {m n : Machine} (h : m.Twin n) : Result.Twin (op.run m) (op.run n) := by
  cases op with
  | debugging | present => exact hp.elim
  | ask span question =>
    have ho := h.orFail span (question m.heap)
    simp only [Op.run, Machine.ask, h.heap]
    exact ho
  | store object key value span =>
    have ho (fault : Fault) := h.orFail span (.error fault : Except Fault Unit)
    simp only [Op.run, Machine.store, h.heap]
    cases m.heap.set object key value with
    | ok heap => exact .ok (h.change rfl rfl rfl rfl h.stack rfl)
    | error fault => exact ho fault
  | echo message =>
    simp only [Op.run, Machine.echo, h.quiet, h.debug]
    exact .ok (h.change rfl rfl rfl rfl h.stack h.heap)
  | see view =>
    simp only [Op.run, h.heap]
    exact .ok h
  | find name =>
    simp only [Op.run, Machine.lookup?, h.stack]
    exact .ok h
  | inFunction =>
    simp only [Op.run, Machine.inFunction, h.stack]
    exact .ok h
  | scopeName =>
    simp only [Op.run, Machine.scopeName, h.stack]
    exact .ok h
  | title =>
    simp only [Op.run, Machine.titleOrDefault, h.stack, h.settings]
    exact .ok h
  | timeout literal =>
    simp only [Op.run, Machine.timeout, h.settings]
    exact .ok h
  | newArray items =>
    simp only [Op.run, Machine.newArray, Heap.newArray, h.heap]
    exact .ok (h.change rfl rfl rfl rfl h.stack rfl)
  | newTable entries =>
    simp only [Op.run, Machine.newTable, Heap.newTable, h.heap]
    exact .ok (h.change rfl rfl rfl rfl h.stack rfl)
  | assign name v isGlobal =>
    simp only [Op.run, Machine.assign, h.stack]
    exact .ok (h.change rfl rfl rfl rfl rfl h.heap)
  | declare name params body =>
    simp only [Op.run, Machine.declare, Heap.newFunction, h.stack, h.heap]
    exact .ok (h.change rfl rfl rfl rfl rfl rfl)

/-! ## Message boxes -/

/-- The machine that was asked to show a box. -/
def Machine.presented (m : Machine) (r : Request) : Machine :=
  { m with journal := m.journal.push (.showing r.options), shown := m.shown.push r }

/-- The machine that was told of something worth an echo. -/
def Machine.echoed (m : Machine) (message : String) : Machine :=
  { m with echoes := m.echoes.push message }

namespace Plan

/-- An action ends with what it does. -/
theorem Ends.of_run {α : Type} {op : Op α} {m : Machine} {r : Result α} (h : op.run m = r) :
    (Plan.act op).Ends m r := h ▸ Plan.Ends.act

/-- Out of debug mode a box is shown, or the run ends at it. -/
theorem eq_of_boxed_quiet {m : Machine} (h : m.settings.debug = false) {message : String}
    {r : Request} {span : Span} {result : Result Outcome}
    (he : (boxed message r span).Ends m result) (hr : Result.isRefusedBox result = false) :
    result = .ok (.message message) (m.presented r) := by
  have hd : (act .debugging).run (callAt m.callsLeft) m = .ok false m := by
    rw [← h]
    rfl
  have hp : (act (.present r)).run (callAt m.callsLeft) m = .ok (m.accepts r) (m.presented r) := rfl
  have hrun := Plan.ends_iff.1 he
  rw [boxed, Plan.run, Run.bind_of_ok hd] at hrun
  simp only [Bool.false_eq_true, if_false, Plan.run_bind] at hrun
  rw [Run.bind_of_ok hp] at hrun
  cases ha : m.accepts r with
  | true =>
    rw [ha] at hrun
    exact hrun.symm
  | false =>
    rw [ha] at hrun
    subst hrun
    cases hr

/-- In debug mode it is told of. -/
theorem boxed_of_debug {n : Machine} (h : n.settings.debug = true) (message : String)
    (r : Request) (span : Span) :
    (boxed message r span).Ends n (.ok (.message message) (n.echoed message)) := by
  have hd : (Op.debugging).run n = .ok true n := by
    rw [← h]
    rfl
  have he : (Op.echo message).run n = .ok () (n.echoed message) := by
    rw [Op.run, Machine.echo, if_pos h, Machine.echoed]
  exact .next (.of_run hd) (.next (.of_run he) .done)

end Plan

/-! ## Runs on twins -/

/-- **Runs on twins agree**, unless the one out of debug mode ended at a box
that could not be shown. -/
theorem Plan.Ends.twin {α : Type} {p : Plan α} {m n : Machine} {r : Result α} (h : p.Ends m r)
    (hp : p.Clause .any) (hr : Result.isRefusedBox r = false) (ht : m.Twin n) :
    ∃ r', p.Ends n r' ∧ Result.Twin r r' := by
  induction h generalizing n with
  | done => exact ⟨_, .done, .ok ht⟩
  | act =>
    cases hp with
    | act hb => exact ⟨_, .act, hb.twin ht⟩
  | @job _ j _ _ _ ih =>
    obtain ⟨r', he, hr'⟩ := ih (j.clause_plan (fun _ _ => trivial) fun _ _ => trivial) hr ht
    exact ⟨r', .job he, hr'⟩
  | next h h' ih ih' =>
    cases hp with
    | andThen hp hp' =>
      obtain ⟨r, he, ⟨ht'⟩⟩ := ih hp rfl ht
      obtain ⟨r', he', hr'⟩ := ih' (hp' _) hr ht'
      exact ⟨r', .next he he', hr'⟩
    | function callee hp' =>
      obtain ⟨r, he, ⟨ht'⟩⟩ := ih (.lookup callee) rfl ht
      obtain ⟨r', he', hr'⟩ := ih' (hp' _ trivial) hr ht'
      exact ⟨r', .next he he', hr'⟩
    | boxed message req span =>
      -- the one place where the two part, and where they meet again at once
      obtain rfl := Plan.eq_of_boxed_quiet ht.quiet (.next h h') hr
      have he := Plan.boxed_of_debug ht.debug message req span
      exact ⟨_, he, .ok (ht.change rfl rfl rfl rfl ht.stack ht.heap)⟩
  | stop h ih =>
    cases hp with
    | andThen hp _ =>
      obtain ⟨r, he, hr'⟩ := ih hp hr ht
      cases hr' with
      | error ht' => exact ⟨_, .stop he, .error ht'⟩
    | function callee _ =>
      obtain ⟨r, he, hr'⟩ := ih (.lookup callee) hr ht
      cases hr' with
      | error ht' => exact ⟨_, .stop he, .error ht'⟩
    | boxed => cases h.of_act
  | @refused f args site m hd =>
    have hs : n.settings.maxCallDepth = m.settings.maxCallDepth := by rw [ht.settings]
    have hd' : n.settings.maxCallDepth ≤ n.stack.depth := by rwa [hs, ht.stack]
    refine ⟨_, .refused hd', ?_⟩
    rw [hs]
    simp only [Machine.fail, ht.stack]
    exact .error ht
  | @returned f args site m m' ending hd _ ih =>
    have hd' : n.stack.depth < n.settings.maxCallDepth := by rwa [ht.settings, ht.stack]
    obtain ⟨r, he, ⟨ht'⟩⟩ := ih (.job fun _ _ => trivial) rfl (ht.entered f args site.start)
    exact ⟨_, .returned hd' he, .ok ht'.left⟩
  | @failed f args site m m' e hd _ ih =>
    have hd' : n.stack.depth < n.settings.maxCallDepth := by rwa [ht.settings, ht.stack]
    obtain ⟨r, he, hr'⟩ := ih (.job fun _ _ => trivial) hr (ht.entered f args site.start)
    cases hr' with
    | error ht' => exact ⟨_, .failed hd' he, .error ht'⟩

/-! ## Programs -/

theorem Stmt.Runs.twin {ss : List Stmt} {m n : Machine} {r : Result (List Outcome)}
    (h : Stmt.Runs ss m r) (hr : Result.isRefusedBox r = false) (ht : m.Twin n) :
    ∃ r', Stmt.Runs ss n r' ∧ Result.Twin r r' := by
  induction h generalizing n with
  | nil => exact ⟨_, .nil, .ok ht⟩
  | cons hs _ ih =>
    obtain ⟨_, hs', ⟨ht'⟩⟩ := hs.twin (.job fun _ _ => trivial) rfl ht
    obtain ⟨_, hss, ⟨ht''⟩⟩ := ih rfl ht'
    exact ⟨_, .cons hs' hss, .ok ht''⟩
  | later hs _ ih =>
    obtain ⟨_, hs', ⟨ht'⟩⟩ := hs.twin (.job fun _ _ => trivial) rfl ht
    obtain ⟨_, hss, ht''⟩ := ih hr ht'
    cases ht'' with
    | error ht'' => exact ⟨_, .later hs' hss, .error ht''⟩
  | stop hs =>
    obtain ⟨_, hs', ht'⟩ := hs.twin (.job fun _ _ => trivial) hr ht
    cases ht' with
    | error ht' => exact ⟨_, .stop hs', .error ht'.unwind⟩

theorem executeAll_twin {ss : List Stmt} {m n : Machine} (ht : m.Twin n)
    (hr : Result.isRefusedBox (Machine.executeAll ss m) = false) :
    Result.Twin (Machine.executeAll ss m) (Machine.executeAll ss n) := by
  obtain ⟨r, hs⟩ := Stmt.exists_runs ss m
  rw [hs.executeAll_eq] at hr ⊢
  obtain ⟨r', hs', hr'⟩ := hs.twin hr ht
  rwa [hs'.executeAll_eq]

/-! ## What is recorded -/

theorem Result.Kept.debug_eq {m : Machine} {α : Type} {r : Result α} (h : Result.Kept m r) :
    (Result.machine r).settings.debug = m.settings.debug := by rw [h.settings_eq]

/-- Out of debug mode no action echoes anything. -/
theorem Machine.Changes.echoes_eq {m n : Machine} (h : m.Changes n)
    (hd : m.settings.debug = false) : n.echoes = m.echoes := by
  cases h with
  | echo message hd' => rw [hd] at hd'; cases hd'
  | nothing | objects | assign | declare | present => rfl

/-- A plain action asks for no box. -/
theorem Op.Plain.shown_eq {α : Type} {op : Op α} (hp : op.Plain .any)
    (m : Machine) : (Result.machine (op.run m)).shown = m.shown := by
  cases op with
  | debugging | present => exact hp.elim
  | ask span question => rw [Op.run, Machine.machine_ask]
  | store object key value span =>
    simp only [Op.run, Machine.store]
    split <;> rfl
  | echo message =>
    simp only [Op.run, Machine.echo]
    split <;> rfl
  | _ => rfl

/-- **Out of debug mode nothing is echoed.** -/
theorem Plan.Ends.echoes_eq {α : Type} {p : Plan α} {m : Machine} {r : Result α}
    (h : p.Ends m r) (hd : m.settings.debug = false) : (Result.machine r).echoes = m.echoes := by
  induction h with
  | done | refused => rfl
  | @act _ op m => exact (op.changes m).echoes_eq hd
  | job _ ih => exact ih hd
  | next h _ ih ih' => exact (ih' (h.kept.debug_eq.trans hd)).trans (ih hd)
  | stop _ ih => exact ih hd
  | returned _ _ ih => exact (Machine.echoes_left _).trans (ih hd)
  | failed _ _ ih => exact ih hd

/-- **In debug mode no box is asked for.** -/
theorem Plan.Ends.shown_eq {α : Type} {p : Plan α} {m : Machine} {r : Result α}
    (h : p.Ends m r) (hp : p.Clause .any)
    (hd : m.settings.debug = true) : (Result.machine r).shown = m.shown := by
  induction h with
  | done | refused => rfl
  | @act _ op m =>
    cases hp with
    | act hp => exact hp.shown_eq m
  | @job _ j _ _ _ ih => exact ih (j.clause_plan (fun _ _ => trivial) fun _ _ => trivial) hd
  | next h h' ih ih' =>
    have hd' := h.kept.debug_eq.trans hd
    cases hp with
    | andThen hp hp' => exact (ih' (hp' _) hd').trans (ih hp hd)
    | function callee hp' => exact (ih' (hp' _ trivial) hd').trans (ih (.lookup callee) hd)
    | boxed message req span =>
      have he : (Plan.boxed message req span).Ends _ _ := .next h h'
      rw [he.unique (Plan.boxed_of_debug hd message req span)]
      rfl
  | stop h ih =>
    cases hp with
    | andThen hp _ => exact ih hp hd
    | function callee _ => exact ih (.lookup callee) hd
    | boxed => cases h.of_act
  | returned _ _ ih => exact (Machine.shown_left _).trans (ih (.job fun _ _ => trivial) hd)
  | failed _ _ ih => exact ih (.job fun _ _ => trivial) hd

theorem Stmt.Runs.echoes_eq {ss : List Stmt} {m : Machine} {r : Result (List Outcome)}
    (h : Stmt.Runs ss m r) (hd : m.settings.debug = false) :
    (Result.machine r).echoes = m.echoes := by
  induction h with
  | nil => rfl
  | cons hs _ ih => exact (ih (hs.kept.debug_eq.trans hd)).trans (hs.echoes_eq hd)
  | later hs _ ih => exact (ih (hs.kept.debug_eq.trans hd)).trans (hs.echoes_eq hd)
  | stop hs => exact (Machine.echoes_unwindBy _ _).trans (hs.echoes_eq hd)

theorem Stmt.Runs.shown_eq {ss : List Stmt} {m : Machine} {r : Result (List Outcome)}
    (h : Stmt.Runs ss m r) (hd : m.settings.debug = true) :
    (Result.machine r).shown = m.shown := by
  have hp (s : Stmt) : (Plan.job (.stmt s)).Clause .any :=
    .job fun _ _ => trivial
  induction h with
  | nil => rfl
  | cons hs _ ih =>
    exact (ih (hs.kept.debug_eq.trans hd)).trans (hs.shown_eq (hp _) hd)
  | later hs _ ih =>
    exact (ih (hs.kept.debug_eq.trans hd)).trans (hs.shown_eq (hp _) hd)
  | stop hs => exact (Machine.shown_unwindBy _ _).trans (hs.shown_eq (hp _) hd)

theorem echoes_executeAll {m : Machine} (hd : m.settings.debug = false) (ss : List Stmt) :
    (Result.machine (Machine.executeAll ss m)).echoes = m.echoes := by
  obtain ⟨r, hr⟩ := Stmt.exists_runs ss m
  rw [hr.executeAll_eq]
  exact hr.echoes_eq hd

theorem shown_executeAll {m : Machine} (hd : m.settings.debug = true) (ss : List Stmt) :
    (Result.machine (Machine.executeAll ss m)).shown = m.shown := by
  obtain ⟨r, hr⟩ := Stmt.exists_runs ss m
  rw [hr.executeAll_eq]
  exact hr.shown_eq hd

/-! ## Sessions -/

namespace Session

/-- Two sessions under one name, on twin machines. -/
structure Twin (s t : Session) : Prop where
  name : t.name = s.name
  machine : s.machine.Twin t.machine

variable {s t : Session} {text : String}

theorem Twin.ready (h : s.Twin t) (text : String) : (s.ready text).Twin (t.ready text) := by
  refine ⟨h.name, h.machine.change rfl rfl rfl rfl ?_ h.machine.heap⟩
  simp only [Session.ready, Session.withScript, Session.told, h.name, h.machine.stack]

theorem Twin.told (h : s.Twin t) (events : Array Event) : (s.told events).Twin (t.told events) :=
  ⟨h.name, h.machine.change rfl rfl rfl rfl h.machine.stack h.machine.heap⟩

theorem run_twin (h : s.Twin t) (hr : ∀ e, (s.run text).1 = .error e → e.isRefusedBox = false) :
    (t.run text).1 = (s.run text).1 ∧ (s.run text).2.Twin (t.run text).2 := by
  cases hp : (⟨s.name, text⟩ : Source).program with
  | error e =>
    have hp' : (⟨t.name, text⟩ : Source).program = .error e := by rw [h.name, hp]
    rw [run_of_error hp, run_of_error hp', h.name]
    exact ⟨rfl, h.told _⟩
  | ok program =>
    have hp' : (⟨t.name, text⟩ : Source).program = .ok program := by rw [h.name, hp]
    have hm := (h.ready text).machine
    rw [run_of_ok hp] at hr
    rw [run_of_ok hp, run_of_ok hp']
    have hu : Result.isRefusedBox
        (Machine.executeAll program.statements (s.ready text).machine) = false := by
      cases hx : Machine.executeAll program.statements (s.ready text).machine with
      | ok outcomes m => rfl
      | error e m => rw [hx] at hr; exact hr e rfl
    have ht := executeAll_twin hm hu
    generalize Machine.executeAll program.statements (s.ready text).machine = r at ht
    generalize Machine.executeAll program.statements (t.ready text).machine = r' at ht
    cases ht with
    | ok ht => exact ⟨rfl, h.name, ht⟩
    | error ht => exact ⟨rfl, h.name, ht⟩

theorem eval_twin (h : s.Twin t) (hr : ∀ e, (s.eval text).1 = .error e → e.isRefusedBox = false) :
    (t.eval text).1 = (s.eval text).1 ∧ (s.eval text).2.Twin (t.eval text).2 := by
  have hu : ∀ e, (s.run text).1 = .error e → e.isRefusedBox = false := by
    intro e he
    refine hr e ?_
    rw [fst_eval, he]
    rfl
  obtain ⟨ha, ht⟩ := run_twin h hu
  rw [fst_eval, fst_eval, snd_eval, snd_eval, ha]
  exact ⟨rfl, ht⟩

/-- Statement by statement, for what is taken in between is what twins differ
in. -/
theorem executeFrom_twin {m n : Machine} {ss : List Stmt} (h : m.Twin n)
    (hr : ∀ e, (executeFrom m ss).1.failure = some e → e.isRefusedBox = false) :
    (executeFrom n ss).1.failure = (executeFrom m ss).1.failure ∧
      (executeFrom m ss).2.Twin (executeFrom n ss).2 := by
  have hw {m n : Machine} (h : m.Twin n) : (withoutEchoes m).Twin (withoutEchoes n) :=
    h.change rfl rfl rfl rfl h.stack h.heap
  induction ss generalizing m n with
  | nil => exact ⟨rfl, h⟩
  | cons s ss ih =>
    obtain ⟨r, hs⟩ := (Plan.job (.stmt s)).exists_ends m
    cases r with
    | error e m' =>
      rw [executeFrom_cons_error (Machine.execute_error hs)] at hr ⊢
      obtain ⟨r', hs', ht⟩ := hs.twin (.job fun _ _ => trivial) (hr e rfl) h
      cases ht with
      | error ht =>
        rw [executeFrom_cons_error (Machine.execute_error hs')]
        exact ⟨rfl, hw ht.unwind⟩
    | ok ending m' =>
      rw [executeFrom_cons_ok (Machine.execute_ok hs)] at hr ⊢
      obtain ⟨r', hs', ⟨ht⟩⟩ := hs.twin (.job fun _ _ => trivial) rfl h
      rw [executeFrom_cons_ok (Machine.execute_ok hs')]
      exact ih (hw ht) hr

theorem execute_twin (h : s.Twin t)
    (hr : ∀ e, (s.execute text).1.failure = some e → e.isRefusedBox = false) :
    (t.execute text).1.failure = (s.execute text).1.failure ∧
      (s.execute text).2.Twin (t.execute text).2 := by
  cases hp : (⟨s.name, text⟩ : Source).program with
  | error e =>
    have hp' : (⟨t.name, text⟩ : Source).program = .error e := by rw [h.name, hp]
    rw [execute_of_error hp, execute_of_error hp', h.name]
    exact ⟨rfl, h.told _⟩
  | ok program =>
    have hp' : (⟨t.name, text⟩ : Source).program = .ok program := by rw [h.name, hp]
    rw [execute_of_ok hp] at hr
    rw [execute_of_ok hp, execute_of_ok hp']
    obtain ⟨hf, ht⟩ := executeFrom_twin (h.ready text).machine hr
    exact ⟨hf, h.name, ht⟩

/-! ### What sessions record -/

/-- Out of debug mode a text is run without an echo. -/
theorem echoes_run (hd : s.machine.settings.debug = false) (text : String) :
    (s.run text).2.machine.echoes = s.machine.echoes := by
  cases hp : (⟨s.name, text⟩ : Source).program with
  | error e =>
    rw [run_of_error hp]
    rfl
  | ok program =>
    rw [machine_run_of_ok hp]
    exact echoes_executeAll (m := (s.ready text).machine) hd program.statements

/-- And in debug mode without a box. -/
theorem shown_run (hd : s.machine.settings.debug = true) (text : String) :
    (s.run text).2.machine.shown = s.machine.shown := by
  cases hp : (⟨s.name, text⟩ : Source).program with
  | error e =>
    rw [run_of_error hp]
    rfl
  | ok program =>
    rw [machine_run_of_ok hp]
    exact shown_executeAll (m := (s.ready text).machine) hd program.statements

/-! ### What a console is shown -/

/-- The lines that a statement printed are its echoes. -/
theorem line_mem_statementOutput {m n : Machine} {line : String} :
    .line line ∈ statementOutput m n ↔ line ∈ n.echoes := by
  have hb : Output.line line ∉ (n.shown.toList.drop m.shown.size).map .box := by
    simp only [List.mem_map, not_exists, not_and]
    intro r _ hr
    cases hr
  rw [statementOutput, List.mem_append, or_iff_right hb]
  simp

/-- It showed no box where none was asked for. -/
theorem box_notMem_statementOutput {m n : Machine} (h : n.shown = m.shown) (r : Request) :
    .box r ∉ statementOutput m n := by
  have hd : n.shown.toList.drop m.shown.size = [] :=
    List.drop_eq_nil_of_le (Nat.le_of_eq (by rw [h, Array.length_toList]))
  simp [statementOutput, hd]

theorem box_notMem_valueLines (m : Machine) (outcome : Outcome) (r : Request) :
    .box r ∉ valueLines m outcome := by
  unfold valueLines
  split <;> simp

/-- Out of debug mode a console is shown nothing but boxes, and what was echoed
before the run. -/
theorem executeFrom_quiet {m : Machine} (hd : m.settings.debug = false) (ss : List Stmt) :
    ∀ line, .line line ∈ (executeFrom m ss).1.output → line ∈ m.echoes := by
  induction ss generalizing m with
  | nil =>
    intro line hl
    cases hl
  | cons s ss ih =>
    intro line hl
    obtain ⟨r, hs⟩ := (Plan.job (.stmt s)).exists_ends m
    have he := hs.echoes_eq hd
    have hd' := hs.kept.debug_eq.trans hd
    cases r with
    | error e m' =>
      rw [executeFrom_cons_error (Machine.execute_error hs)] at hl
      rw [← he, ← Machine.echoes_unwindBy m'.stack.depth]
      exact line_mem_statementOutput.1 hl
    | ok ending m' =>
      change m'.settings.debug = false at hd'
      have hv : valueLines m' ending.outcome = [] := by rw [valueLines, hd']; rfl
      rw [executeFrom_cons_ok (Machine.execute_ok hs), hv, List.append_nil] at hl
      rcases List.mem_append.1 hl with hl | hl
      · rw [← he]
        exact line_mem_statementOutput.1 hl
      · -- the echoes were taken, and no more were added
        have hn : line ∈ (#[] : Array String) := ih (m := withoutEchoes m') hd' line hl
        exact absurd hn (Array.not_mem_empty line)

/-- And in debug mode no box, for none is asked for. -/
theorem executeFrom_debug {m : Machine} (hd : m.settings.debug = true) (ss : List Stmt) :
    (∀ r, .box r ∉ (executeFrom m ss).1.output) ∧ (executeFrom m ss).2.shown = m.shown := by
  induction ss generalizing m with
  | nil =>
    refine ⟨fun r hr => ?_, rfl⟩
    cases hr
  | cons s ss ih =>
    obtain ⟨r, hs⟩ := (Plan.job (.stmt s)).exists_ends m
    have hb := hs.shown_eq (.job fun _ _ => trivial) hd
    have hd' := hs.kept.debug_eq.trans hd
    cases r with
    | error e m' =>
      have hu : m'.unwind.shown = m.shown := (Machine.shown_unwindBy _ _).trans hb
      rw [executeFrom_cons_error (Machine.execute_error hs)]
      exact ⟨box_notMem_statementOutput hu, hu⟩
    | ok ending m' =>
      obtain ⟨ihb, ihs⟩ := ih (m := withoutEchoes m') hd'
      rw [executeFrom_cons_ok (Machine.execute_ok hs)]
      refine ⟨fun r hr => ?_, ihs.trans hb⟩
      rcases List.mem_append.1 hr with hr | hr
      · rcases List.mem_append.1 hr with hr | hr
        · exact box_notMem_statementOutput hb r hr
        · exact box_notMem_valueLines m' _ r hr
      · exact ihb r hr

theorem execute_quiet (hd : s.machine.settings.debug = false) (text : String) :
    ∀ line, .line line ∈ (s.execute text).1.output → line ∈ s.machine.echoes := by
  cases hp : (⟨s.name, text⟩ : Source).program with
  | error e =>
    rw [execute_of_error hp]
    intro line hl
    cases hl
  | ok program =>
    rw [execute_of_ok hp]
    exact executeFrom_quiet (m := (s.ready text).machine) hd program.statements

theorem execute_debug (hd : s.machine.settings.debug = true) (text : String) :
    (∀ r, .box r ∉ (s.execute text).1.output) ∧
      (s.execute text).2.machine.shown = s.machine.shown := by
  cases hp : (⟨s.name, text⟩ : Source).program with
  | error e =>
    rw [execute_of_error hp]
    refine ⟨fun r hr => ?_, rfl⟩
    cases hr
  | ok program =>
    rw [execute_of_ok hp]
    exact executeFrom_debug (m := (s.ready text).machine) hd program.statements

end Session

/-! ## The two modes -/

/-- **Debug mode only observes.** Whatever a machine or a session holds, a
program and a text come to the same outcomes or the same error in debug mode as
out of it, with the same names and objects behind them, unless out of it a box
could not be shown. In debug mode no box is asked for, and out of it nothing is
echoed. -/
theorem debug_only_observes :
    (∀ (p : Program) (m : Machine),
      let off := Machine.executeAll p.statements (m.withDebug false)
      let on := Machine.executeAll p.statements (m.withDebug true)
      (Result.isRefusedBox off = false → Result.Twin off on) ∧
        (Result.machine on).shown = m.shown ∧ (Result.machine off).echoes = m.echoes) ∧
    ∀ (s : Session) (text : String),
      let off := s.setDebug false
      let on := s.setDebug true
      ((∀ e, (off.run text).1 = .error e → e.isRefusedBox = false) →
        (on.run text).1 = (off.run text).1 ∧ (off.run text).2.Twin (on.run text).2) ∧
      ((∀ e, (off.eval text).1 = .error e → e.isRefusedBox = false) →
        (on.eval text).1 = (off.eval text).1 ∧ (off.eval text).2.Twin (on.eval text).2) ∧
      ((∀ e, (off.execute text).1.failure = some e → e.isRefusedBox = false) →
        (on.execute text).1.failure = (off.execute text).1.failure ∧
          (off.execute text).2.Twin (on.execute text).2) ∧
      ((on.run text).2.machine.shown = s.machine.shown ∧
        (off.run text).2.machine.echoes = s.machine.echoes) ∧
      ((on.eval text).2.machine.shown = s.machine.shown ∧
        (off.eval text).2.machine.echoes = s.machine.echoes) ∧
      (∀ r, .box r ∉ (on.execute text).1.output) ∧
      (on.execute text).2.machine.shown = s.machine.shown ∧
      ∀ line, .line line ∈ (off.execute text).1.output → line ∈ s.machine.echoes := by
  refine ⟨fun p m => ⟨executeAll_twin (.withDebug m), ?_, ?_⟩, fun s text => ?_⟩
  · exact shown_executeAll rfl p.statements
  · exact echoes_executeAll rfl p.statements
  intro off on
  have ht : off.Twin on := ⟨rfl, .withDebug s.machine⟩
  obtain ⟨hbox, hshown⟩ := Session.execute_debug (s := on) rfl text
  refine ⟨Session.run_twin ht, Session.eval_twin ht, Session.execute_twin ht, ?_, ?_, hbox, hshown,
    Session.execute_quiet (s := off) rfl text⟩
  · exact ⟨Session.shown_run (s := on) rfl text, Session.echoes_run (s := off) rfl text⟩
  · rw [Session.snd_eval, Session.snd_eval]
    exact ⟨Session.shown_run (s := on) rfl text, Session.echoes_run (s := off) rfl text⟩

/-- An answer that is no error says of no box that it could not be shown. -/
theorem not_isRefusedBox_of_toBool {α : Type} {x : Except Error α} (h : x.toBool = true) :
    ∀ e, x = .error e → e.isRefusedBox = false := by
  rintro e rfl
  cases h

/-- An assignment and a box, as a program and as a text: out of debug mode the
box is shown, in debug mode both are echoed, and they come to the same. -/
theorem debug_only_observes_assignThenBox :
    let p : Program := ⟨[
      .assign ⟨"x", default⟩ (.boolean true default) false default,
      .box ⟨none, none, some (.name ⟨"x", default⟩), none⟩ default]⟩
    let s := Session.start "boxes" {} fun _ => true
    let text := "x := true\nMsgBox % x"
    let off := Machine.executeAll p.statements (s.machine.withDebug false)
    let on := Machine.executeAll p.statements (s.machine.withDebug true)
    (Result.isRefusedBox off = false ∧ (Result.machine off).shown.size = 1 ∧
      (Result.machine on).echoes.size = 2 ∧ Result.Twin off on) ∧
    (((s.setDebug false).run text).1.toBool = true ∧
      ((s.setDebug true).run text).1 = ((s.setDebug false).run text).1) ∧
    (((s.setDebug false).eval text).1.toBool = true ∧
      ((s.setDebug true).eval text).1 = ((s.setDebug false).eval text).1) ∧
    ((s.setDebug false).execute text).1.failure = none ∧
      ((s.setDebug true).execute text).1.failure = none := by
  intro p s text off on
  have hr : Result.isRefusedBox off = false := by decide +kernel
  have hrun : ((s.setDebug false).run text).1.toBool = true := by decide +kernel
  have heval : ((s.setDebug false).eval text).1.toBool = true := by decide +kernel
  have hexecute : ((s.setDebug false).execute text).1.failure = none := by decide +kernel
  obtain ⟨hprogram, -⟩ := debug_only_observes.1 p s.machine
  obtain ⟨h, h', h'', -⟩ := debug_only_observes.2 s text
  refine ⟨⟨hr, by decide +kernel, by decide +kernel, hprogram hr⟩, ⟨hrun, ?_⟩, ⟨heval, ?_⟩,
    hexecute, ?_⟩
  · exact (h (not_isRefusedBox_of_toBool hrun)).1
  · exact (h' (not_isRefusedBox_of_toBool heval)).1
  · refine (h'' fun e he => ?_).1.trans hexecute
    rw [hexecute] at he
    cases he

end HotkeyScript
