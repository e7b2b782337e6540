import HotkeyScript.Proofs.Plan.Record
import HotkeyScript.Proofs.Session.History
/-!
# A reset leaves no trace

Behind a reset a session differs from a fresh one in the script of its module
and in what was shown and told before. Neither is seen: a text that can be read
replaces the script before it runs, and one that cannot does not run. So the two
sessions give the same answers and stay so (`Session.Retraces.perform`), for as
long as they are asked the same.
-/

namespace HotkeyScript

namespace Session

/-! ## What is seen of a session -/

/-- What an operation answers. -/
inductive Answer where
  | outcomes (answer : Except Error (List Outcome))
  | value (answer : Except Error (Option Value))
  | execution (x : Execution)
  | echoes (lines : List String)
  | nothing

def answer (s : Session) : Operation → Answer
  | .run text => .outcomes (s.run text).1
  | .eval text => .value (s.eval text).1
  | .execute text => .execution (s.execute text).1
  | .takeEchoes => .echoes s.takeEchoes.1
  | .setDebug _ | .reset => .nothing

/-- All that is seen of an operation: its answer, the boxes that were asked for and
the events that were told, and the names, the objects and the echoes behind
it. -/
structure Observation where
  answer : Answer
  boxes : List Request
  events : List Event
  globals : SymbolTable
  heap : Heap
  echoes : List String

/-- What is seen of an operation. -/
def observe (s : Session) (op : Operation) : Observation where
  answer := s.answer op
  boxes := s.machine.newShown (s.perform op).machine
  events := s.machine.newEvents (s.perform op).machine
  globals := (s.perform op).globals
  heap := (s.perform op).machine.heap
  echoes := (s.perform op).machine.echoes.toList

/-- What is seen of operations, one after another. -/
def observeAll : Session → List Operation → List Observation
  | _, [] => []
  | s, op :: ops => s.observe op :: observeAll (s.perform op) ops

/-! ## The script of the module -/

variable {s t : Session} {text : String} {source : Source} {past : Record}

/-- A text that can be read replaces the script of the module, and one that cannot
leaves it. -/
theorem run_withScript (s : Session) (source : Source) (text : String) :
    ∃ source', (s.withScript source).run text =
      ((s.run text).1, (s.run text).2.withScript source') := by
  cases hp : (⟨s.name, text⟩ : Source).program with
  | error e =>
    have hp' : (⟨(s.withScript source).name, text⟩ : Source).program = .error e := hp
    rw [run_of_error hp, run_of_error hp']
    exact ⟨source, rfl⟩
  | ok program =>
    have hp' : (⟨(s.withScript source).name, text⟩ : Source).program = .ok program := hp
    -- the text is the script of the module before its first statement runs
    have hr : (s.withScript source).ready text = s.ready text := rfl
    refine ⟨(s.run text).2.machine.stack.module.source, ?_⟩
    rw [run_of_ok hp, run_of_ok hp', hr]
    cases Machine.executeAll program.statements (s.ready text).machine <;> rfl

theorem execute_withScript (s : Session) (source : Source) (text : String) :
    ∃ source', (s.withScript source).execute text =
      ((s.execute text).1, (s.execute text).2.withScript source') := by
  cases hp : (⟨s.name, text⟩ : Source).program with
  | error e =>
    have hp' : (⟨(s.withScript source).name, text⟩ : Source).program = .error e := hp
    rw [execute_of_error hp, execute_of_error hp']
    exact ⟨source, rfl⟩
  | ok program =>
    have hp' : (⟨(s.withScript source).name, text⟩ : Source).program = .ok program := hp
    refine ⟨(s.execute text).2.machine.stack.module.source, ?_⟩
    rw [execute_of_ok hp, execute_of_ok hp']
    rfl

/-! ## Sessions that are seen alike -/

/-- **`s` goes the way of `t` again**: it is `t` with another script of the module,
behind something that was shown and told before. -/
structure Retraces (past : Record) (s t : Session) : Prop where
  echoes : past.echoes = #[]
  exists_eq : ∃ source, s = (t.withScript source).behind past

/-- **What goes the same way is seen alike**, whatever is asked, and goes on the same
way. -/
theorem Retraces.perform (h : s.Retraces past t) (op : Operation) :
    s.answer op = t.answer op ∧ (s.perform op).Retraces past (t.perform op) := by
  obtain ⟨he, source, rfl⟩ := h
  cases op with
  | run text =>
    obtain ⟨source', hr⟩ := t.run_withScript source text
    simp only [answer, Session.perform, run_behind, hr]
    exact ⟨trivial, he, source', rfl⟩
  | eval text =>
    obtain ⟨source', hr⟩ := t.run_withScript source text
    simp only [answer, Session.perform, eval_behind, fst_eval, snd_eval, hr]
    exact ⟨trivial, he, source', rfl⟩
  | execute text =>
    obtain ⟨source', hr⟩ := t.execute_withScript source text
    simp only [answer, Session.perform, execute_behind he, hr]
    exact ⟨trivial, he, source', rfl⟩
  | setDebug on => exact ⟨rfl, he, source, rfl⟩
  | reset =>
    refine ⟨rfl, he, source, ?_⟩
    simp only [Session.perform, reset, behind, Machine.behind, withScript, he, Array.append_empty]
    rfl
  | takeEchoes =>
    -- no echo waits from before, so both take the same
    refine ⟨?_, he, source, ?_⟩
    · simp only [answer, takeEchoes, behind, Machine.behind, withScript, he, Array.empty_append]
    · simp only [Session.perform, takeEchoes, behind, Machine.behind, withScript, he,
        Array.append_empty]

theorem Retraces.observe (h : s.Retraces past t) (op : Operation) :
    s.observe op = t.observe op := by
  obtain ⟨ha, he, source', hp⟩ := h.perform op
  obtain ⟨-, source, rfl⟩ := h
  have hb : ((t.withScript source).behind past).machine.newShown
        (((t.perform op).withScript source').behind past).machine =
      t.machine.newShown (t.perform op).machine := Machine.newShown_past _ _ past
  have hv : ((t.withScript source).behind past).machine.newEvents
        (((t.perform op).withScript source').behind past).machine =
      t.machine.newEvents (t.perform op).machine := Machine.newEvents_past _ _ past
  have hm : (((t.perform op).withScript source').behind past).machine.echoes =
      (t.perform op).machine.echoes := by
    simp only [behind, Machine.behind, he, Array.empty_append]
    rfl
  rw [Session.observe, ha, hp, hb, hv, hm]
  rfl

theorem Retraces.observeAll (h : s.Retraces past t) (ops : List Operation) :
    s.observeAll ops = t.observeAll ops := by
  induction ops generalizing s t with
  | nil => rfl
  | cons op ops ih => rw [Session.observeAll, Session.observeAll, h.observe, ih (h.perform op).2]

/-- Behind a reset a session goes the way of a fresh one. -/
theorem retraces_reset (s : Session) :
    s.reset.Retraces ⟨#[], s.machine.shown, s.machine.journal⟩
      (start s.name s.machine.settings s.machine.accepts) := by
  refine ⟨rfl, s.machine.stack.module.source, ?_⟩
  simp only [reset, start, behind, Machine.behind, withScript, Array.append_empty]
  rfl

/-- **A reset leaves no trace.** Whatever was asked of a session, behind a reset it
holds the names of a fresh one under its name, with the settings that it has by
then and the same answers to boxes; and whatever it is asked from there on, all
that is seen of it is what is seen of the fresh one. -/
theorem reset_leaves_no_trace (s : Session) (history further : List Operation) :
    let past := s.performAll history
    let fresh := start s.name past.machine.settings s.machine.accepts
    past.reset.globals = fresh.globals ∧
      past.reset.observeAll further = fresh.observeAll further := by
  intro past fresh
  have hr : past.reset.Retraces _ (start past.name past.machine.settings past.machine.accepts) :=
    retraces_reset past
  rw [name_performAll, accepts_performAll] at hr
  exact ⟨rfl, hr.observeAll further⟩

end Session

end HotkeyScript
