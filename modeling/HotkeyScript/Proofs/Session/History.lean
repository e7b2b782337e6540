import HotkeyScript.Proofs.Plan.Origin
import HotkeyScript.Proofs.Quiescence
/-!
# Sessions — the runs of their operations

An operation that runs a text goes through the text's statements, one after
another (`Stmt.Passes`), and ends behind the last or at the first that fails
(`Stmt.Leaves`); the three ways to run a text differ only in what is done
between two statements. The points of a session's runs are those that its
statements come to (`Session.ComesTo`). They are sound (`Session.Starts.sound`),
and every error at run time is raised at one of them (`Session.exists_raises`).
-/

namespace HotkeyScript

/-! ## Statements, one after another -/

/-- Running statements comes to a statement, on a machine. -/
inductive Stmt.Passes (between : Machine → Machine) :
    List Stmt → Machine → Stmt → Machine → Prop where
  | head {s : Stmt} {ss : List Stmt} {m : Machine} : Passes between (s :: ss) m s m
  | tail {s t : Stmt} {ss : List Stmt} {m m' n : Machine} {ending : Ending Outcome} :
      (Plan.job (.stmt s)).Ends m (.ok ending m') → Passes between ss (between m') t n →
      Passes between (s :: ss) m t n

/-- Running statements leaves a machine, and an error if one of them failed. -/
inductive Stmt.Leaves (between : Machine → Machine) :
    List Stmt → Machine → Machine → Option Error → Prop where
  | nil {m : Machine} : Leaves between [] m m none
  | cons {s : Stmt} {ss : List Stmt} {m m' n : Machine} {ending : Ending Outcome}
      {failure : Option Error} :
      (Plan.job (.stmt s)).Ends m (.ok ending m') → Leaves between ss (between m') n failure →
      Leaves between (s :: ss) m n failure
  | stop {s : Stmt} {ss : List Stmt} {m m' : Machine} {e : Error} :
      (Plan.job (.stmt s)).Ends m (.error e m') →
      Leaves between (s :: ss) m (between m'.unwind) (some e)

/-- The error of a result, if it is one. -/
def Result.failure? {α : Type} : Result α → Option Error
  | .ok _ _ => none
  | .error e _ => some e

namespace Stmt

variable {between : Machine → Machine} {ss : List Stmt} {m n : Machine}

theorem Runs.leaves {r : Result (List Outcome)} (h : Runs ss m r) :
    Leaves id ss m (Result.machine r) (Result.failure? r) := by
  induction h with
  | nil => exact .nil
  | cons hs _ ih => exact .cons hs ih
  | later hs _ ih => exact .cons hs ih
  | stop hs => exact .stop hs

theorem leaves_executeAll (ss : List Stmt) (m : Machine) :
    Leaves id ss m (Result.machine (Machine.executeAll ss m))
      (Result.failure? (Machine.executeAll ss m)) := by
  obtain ⟨r, hr⟩ := Stmt.exists_runs ss m
  rw [hr.executeAll_eq]
  exact hr.leaves

theorem leaves_executeFrom (ss : List Stmt) (m : Machine) :
    Leaves Session.withoutEchoes ss m (Session.executeFrom m ss).2
      (Session.executeFrom m ss).1.failure := by
  induction ss generalizing m with
  | nil => exact .nil
  | cons s ss ih =>
    obtain ⟨r, hr⟩ := (Plan.job (.stmt s)).exists_ends m
    cases r with
    | ok ending m' =>
      rw [Session.executeFrom_cons_ok (Machine.execute_ok hr)]
      exact .cons hr (ih _)
    | error e m' =>
      rw [Session.executeFrom_cons_error (Machine.execute_error hr)]
      exact .stop hr

/-- A failure is that of a statement that the run came to. -/
theorem Leaves.exists_passes {e : Error} (h : Leaves between ss m n (some e)) :
    ∃ s m' n', Passes between ss m s m' ∧ (Plan.job (.stmt s)).Ends m' (.error e n') := by
  generalize hf : some e = failure at h
  induction h with
  | nil => cases hf
  | cons hs _ ih =>
    obtain ⟨t, m', n', hp, he⟩ := ih hf
    exact ⟨t, m', n', .tail hs hp, he⟩
  | @stop s ss m m' e' hs =>
    cases hf
    exact ⟨s, m, m', .head, hs⟩

/-- The statements that a run comes to are among those that it runs. -/
theorem Passes.mem {s : Stmt} (h : Passes between ss m s n) : s ∈ ss := by
  induction h with
  | head => exact List.mem_cons_self ..
  | tail _ _ ih => exact List.mem_cons_of_mem _ ih

variable {P : Machine → Prop}

/-- What every statement that succeeds keeps holds at each that is come to. -/
theorem Passes.keeps {s : Stmt} (h : Passes between ss m s n) (hm : P m)
    (hb : ∀ k, P k → P (between k))
    (hs : ∀ t k ending k', Passes between ss m t k → P k →
      (Plan.job (.stmt t)).Ends k (.ok ending k') → P k') : P n := by
  induction h with
  | head => exact hm
  | tail he _ ih =>
    exact ih (hb _ (hs _ _ _ _ .head hm he)) fun t k r k' hp => hs t k r k' (.tail he hp)

/-- What every statement keeps holds behind them all, if leaving calls keeps it
too. -/
theorem Leaves.keeps {failure : Option Error} (h : Leaves between ss m n failure) (hm : P m)
    (hb : ∀ k, P k → P (between k)) (hu : ∀ k, P k → P k.unwind)
    (hs : ∀ t k r, Passes between ss m t k → P k → (Plan.job (.stmt t)).Ends k r →
      P (Result.machine r)) : P n := by
  induction h with
  | nil => exact hm
  | cons he _ ih =>
    exact ih (hb _ (hs _ _ _ .head hm he)) fun t k r hp => hs t k r (.tail he hp)
  | stop he => exact hb _ (hu _ (hs _ _ _ .head hm he))

end Stmt

/-! ## Operations -/

/-- The error of an answer, if it is one. -/
def failureOf {α : Type} : Except Error α → Option Error
  | .ok _ => none
  | .error e => some e

namespace Session

/-- The text that an operation runs, if it runs one. -/
def Operation.text? : Operation → Option String
  | run text | eval text | execute text => some text
  | setDebug _ | reset | takeEchoes => none

/-- What an operation does between two statements. -/
def Operation.between : Operation → Machine → Machine
  | execute _ => withoutEchoes
  | _ => id

/-- The error that an operation comes to, if it comes to one. -/
def failure? (s : Session) : Operation → Option Error
  | .run text => failureOf (s.run text).1
  | .eval text => failureOf (s.eval text).1
  | .execute text => (s.execute text).1.failure
  | .setDebug _ | .reset | .takeEchoes => none

/-- A session after some operations. -/
def performAll (s : Session) (ops : List Operation) : Session := ops.foldl perform s

variable {s : Session} {op : Operation} {text : String}

theorem failure?_eval (s : Session) (text : String) :
    s.failure? (.eval text) = s.failure? (.run text) := by
  simp only [failure?, fst_eval]
  cases (s.run text).1 <;> rfl

/-- Running a text by `run` leaves what its statements leave. -/
theorem leaves_run {program : Program} (hp : (⟨s.name, text⟩ : Source).program = .ok program) :
    Stmt.Leaves id program.statements (s.ready text).machine (s.run text).2.machine
      (s.failure? (.run text)) := by
  have hl := Stmt.leaves_executeAll program.statements (s.ready text).machine
  rw [failure?, run_of_ok hp]
  cases hr : Machine.executeAll program.statements (s.ready text).machine with
  | ok outcomes m => rw [hr] at hl; exact hl
  | error e m => rw [hr] at hl; exact hl

/-- **An operation that runs a text** leaves what the text's statements leave. -/
theorem leaves_perform (ht : op.text? = some text) {program : Program}
    (hp : (⟨s.name, text⟩ : Source).program = .ok program) :
    Stmt.Leaves op.between program.statements (s.ready text).machine (s.perform op).machine
      (s.failure? op) := by
  cases op with
  | run t => cases ht; exact leaves_run hp
  | eval t =>
    cases ht
    rw [perform, snd_eval, failure?_eval]
    exact leaves_run hp
  | execute t =>
    cases ht
    rw [perform, failure?, execute_of_ok hp]
    exact Stmt.leaves_executeFrom ..
  | setDebug | reset | takeEchoes => cases ht

/-- One with a text that cannot be read tells of it. -/
theorem perform_of_error (ht : op.text? = some text) {e : Error}
    (hp : (⟨s.name, text⟩ : Source).program = .error e) :
    s.perform op = s.told (⟨s.name, text⟩ : Source).events ∧ s.failure? op = some e := by
  cases op with
  | run t =>
    cases ht
    rw [perform, failure?, run_of_error hp]
    exact ⟨rfl, rfl⟩
  | eval t =>
    cases ht
    rw [perform, snd_eval, failure?_eval, failure?, run_of_error hp]
    exact ⟨rfl, rfl⟩
  | execute t =>
    cases ht
    rw [perform, failure?, execute_of_error hp]
    exact ⟨rfl, rfl⟩
  | setDebug | reset | takeEchoes => cases ht

end Session

/-- A text that cannot be read fails among its tokens or in its grammar. -/
theorem Source.program_eq_error {source : Source} {e : Error} (h : source.program = .error e) :
    (∃ fault, tokenize source.text = .error fault ∧ e = .ofLexical source fault) ∨
    ∃ tokens mistake, tokenize source.text = .ok tokens ∧
      Program.ofTokens tokens = .error mistake ∧ e = .ofGrammar source mistake := by
  unfold Source.program Source.tokens at h
  cases ht : tokenize source.text with
  | error fault =>
    rw [ht] at h
    cases h
    exact .inl ⟨fault, rfl, rfl⟩
  | ok tokens =>
    rw [ht] at h
    have hg : (Program.ofTokens tokens).mapError (Error.ofGrammar source) = .error e := h
    cases hp : Program.ofTokens tokens with
    | error mistake =>
      rw [hp] at hg
      cases hg
      exact .inr ⟨tokens, mistake, rfl, hp, rfl⟩
    | ok program => rw [hp] at hg; cases hg

/-- And so it does not fail at run time. -/
theorem Source.cause_ne_runtime {source : Source} {e : Error} (h : source.program = .error e)
    (fault : Fault) : e.cause ≠ .runtime fault := by
  obtain ⟨fault', -, rfl⟩ | ⟨tokens, mistake, -, -, rfl⟩ := source.program_eq_error h
  · exact fun hc => by cases hc
  · exact fun hc => by cases hc

/-! ## Histories -/

namespace Session

/-- The points that an operation starts from behind some others: it runs a script
and comes to a statement of it. -/
inductive Starts (s : Session) (before : List Operation) (op : Operation) (script : Source) :
    Point → Prop where
  | mk {program : Program} {stmt : Stmt} {m : Machine} :
      op.text? = some script.text → s.name = script.name → script.program = .ok program →
      Stmt.Passes op.between program.statements ((s.performAll before).ready script.text).machine
        stmt m →
      Starts s before op script (.rest (.job (.stmt stmt)) m)

/-- **The points that an operation comes to** behind some others while it runs a
script. -/
def Visits (s : Session) (before : List Operation) (op : Operation) (script : Source) (b : Point) :
    Prop :=
  ∃ root, s.Starts before op script root ∧ root.ComesTo b

/-- The points that a session comes to while one of its operations runs a
script. -/
def ComesTo (s : Session) (ops : List Operation) (script : Source) (b : Point) : Prop :=
  ∃ before op after, ops = before ++ op :: after ∧ s.Visits before op script b

theorem performAll_append (s : Session) (ops more : List Operation) :
    s.performAll (ops ++ more) = (s.performAll ops).performAll more := List.foldl_append

theorem performAll_concat (s : Session) (ops : List Operation) (op : Operation) :
    s.performAll (ops ++ [op]) = (s.performAll ops).perform op := performAll_append s ops [op]

/-! ## What stays of a session -/

theorem name_perform (s : Session) (op : Operation) : (s.perform op).name = s.name := by
  cases op with
  | run text => exact s.name_run text
  | eval text => exact s.name_eval text
  | execute text => exact s.name_execute text
  | setDebug | reset | takeEchoes => rfl

theorem name_performAll (s : Session) (ops : List Operation) :
    (s.performAll ops).name = s.name := by
  induction ops generalizing s with
  | nil => rfl
  | cons op ops ih => exact (ih (s.perform op)).trans (s.name_perform op)

end Session

/-- What is done between statements changes no machine but in its echoes. -/
theorem Session.Operation.level_between (op : Operation) (m : Machine) :
    m.Level (op.between m) := by
  cases op with
  | execute => exact ⟨rfl, rfl, .refl _⟩
  | _ => exact .refl m

namespace Session

variable {s : Session} {before ops : List Operation} {op : Operation} {script : Source} {b : Point}

/-- A session keeps its limit on calls and whoever shows its boxes. -/
theorem setup_perform (s : Session) (op : Operation) :
    (s.perform op).machine.settings.maxCallDepth = s.machine.settings.maxCallDepth ∧
      (s.perform op).machine.accepts = s.machine.accepts := by
  cases ht : op.text? with
  | none =>
    cases op with
    | run | eval | execute => cases ht
    | setDebug | reset | takeEchoes => exact ⟨rfl, rfl⟩
  | some text =>
    cases hp : (⟨s.name, text⟩ : Source).program with
    | error e =>
      rw [(perform_of_error ht hp).1]
      exact ⟨rfl, rfl⟩
    | ok program =>
      refine (leaves_perform ht hp).keeps
        (P := fun m => m.settings.maxCallDepth = s.machine.settings.maxCallDepth ∧
          m.accepts = s.machine.accepts) ⟨rfl, rfl⟩ ?_ ?_ ?_
      · intro k hk
        have hl := op.level_between k
        exact ⟨(congrArg _ hl.settings).trans hk.1, hl.accepts.trans hk.2⟩
      · intro k hk
        have hs := Machine.settings_unwindBy k.stack.depth k
        exact ⟨(congrArg _ hs).trans hk.1, (Machine.accepts_unwindBy _ k).trans hk.2⟩
      · intro t k r _ hk he
        exact ⟨(congrArg _ he.kept.settings_eq).trans hk.1, he.kept.accepts_eq.trans hk.2⟩

theorem maxCallDepth_perform (s : Session) (op : Operation) :
    (s.perform op).machine.settings.maxCallDepth = s.machine.settings.maxCallDepth :=
  (s.setup_perform op).1

theorem maxCallDepth_performAll (s : Session) (ops : List Operation) :
    (s.performAll ops).machine.settings.maxCallDepth = s.machine.settings.maxCallDepth := by
  induction ops generalizing s with
  | nil => rfl
  | cons op ops ih => exact (ih (s.perform op)).trans (s.maxCallDepth_perform op)

theorem accepts_performAll (s : Session) (ops : List Operation) :
    (s.performAll ops).machine.accepts = s.machine.accepts := by
  induction ops generalizing s with
  | nil => rfl
  | cons op ops ih => exact (ih (s.perform op)).trans (s.setup_perform op).2

theorem session_performAll (s : Signalled) (ops : List Operation) :
    (s.performAll ops).session = s.session.performAll ops := by
  induction ops generalizing s with
  | nil => rfl
  | cons op ops ih => exact ih (s.perform op)

/-- A session is at rest between its operations. -/
theorem atRest_performAll (name : String) (settings : Settings) (accepts : Request → Bool)
    (ops : List Operation) : ((start name settings accepts).performAll ops).machine.AtRest := by
  have hq := (Signalled.quiescent_start name settings accepts).performAll ops
  exact session_performAll (Signalled.start name settings accepts) ops ▸ hq.machine

/-! ## Points and errors -/

/-- **A session starts from sound points.** -/
theorem Starts.sound {name : String} {settings : Settings} {accepts : Request → Bool}
    {root : Point} (h : (start name settings accepts).Starts before op script root) :
    root.Sound script settings.maxCallDepth := by
  obtain @⟨program, stmt, m, -, hname, -, hp⟩ := h
  have hr := atRest_performAll name settings accepts before
  have hn : ((start name settings accepts).performAll before).name = script.name :=
    (name_performAll _ before).trans hname
  refine hp.keeps (P := fun k => ∀ t, (Point.rest (.job (.stmt t)) k).Sound script
    settings.maxCallDepth) (fun t => ?_) ?_ ?_ stmt
  · have hc : (((start name settings accepts).performAll before).ready
        script.text).machine.stack.calls = [] := hr.calls
    refine ⟨hr.module, ?_, maxCallDepth_performAll _ before, ?_, rfl, Nat.zero_le _⟩
    · change (⟨((start name settings accepts).performAll before).name, script.text⟩ : Source) = _
      rw [hn]
    · change Entered.OnStack [] _
      exact hc ▸ .nil
  · exact fun k hk t => (hk t).level (op.level_between k)
  · exact fun t k ending k' _ hk he t' => (hk t').level he.kept

theorem ComesTo.sound {name : String} {settings : Settings} {accepts : Request → Bool}
    (h : (start name settings accepts).ComesTo ops script b) :
    b.Sound script settings.maxCallDepth := by
  obtain ⟨before, op, after, -, root, hr, hb⟩ := h
  exact hb.sound hr.sound

/-- **Where errors come from**: the text of an operation cannot be read, or the error is
raised at a point of the run that it ends. -/
theorem failure_cases {e : Error} (h : (s.performAll before).failure? op = some e) :
    ∃ script : Source, op.text? = some script.text ∧ script.name = s.name ∧
      (script.program = .error e ∨ ∃ b, s.Visits before op script b ∧ b.Raises e) := by
  cases ht : op.text? with
  | none =>
    cases op with
    | run | eval | execute => cases ht
    | setDebug | reset | takeEchoes => cases h
  | some text =>
    have hn := s.name_performAll before
    refine ⟨⟨s.name, text⟩, rfl, rfl, ?_⟩
    cases hp : (⟨(s.performAll before).name, text⟩ : Source).program with
    | error e' =>
      rw [(perform_of_error ht hp).2] at h
      cases h
      exact .inl (hn ▸ hp)
    | ok program =>
      have hl := leaves_perform ht hp
      rw [h] at hl
      obtain ⟨stmt, m, n, hs, he⟩ := hl.exists_passes
      obtain ⟨b, hb, hraises, -⟩ := he.exists_raises [] 0
      exact .inr ⟨b, ⟨_, .mk ht rfl (hn ▸ hp) hs, hb⟩, hraises⟩

/-- **Every error at run time is raised at a point** of the run that it ends. -/
theorem exists_raises {e : Error}
    (h : (s.performAll before).failure? op = some e) {fault : Fault}
    (he : e.cause = .runtime fault) :
    ∃ script b, op.text? = some script.text ∧ script.name = s.name ∧
      s.Visits before op script b ∧ b.Raises e := by
  obtain ⟨script, ht, hn, hp | ⟨b, hb, hraises⟩⟩ := failure_cases h
  · exact (Source.cause_ne_runtime hp fault he).elim
  · exact ⟨script, b, ht, hn, hb, hraises⟩

end Session

end HotkeyScript
