import HotkeyScript.Proofs.DebugMode
import HotkeyScript.Proofs.Plan.Record
import HotkeyScript.Proofs.Session.History
/-!
# The three ways to run a text agree

A text is run together, for its outcomes (`Session.run`) or for its last value
(`Session.eval`), or statement by statement with the echoes taken in between
(`Session.execute`). A statement does not see whether the echoes before it were
taken (`exists_execute`), so each way stops at the same place, with the same
error, and leaves the same machine but for its echoes (`executeFrom_of_runs`).
What a console is shown is what the machine records when the text is run together:
the boxes (`boxes_executeFrom`), and in debug mode the echoes with the values in
between (`lines_executeFrom`).
-/

namespace HotkeyScript

/-! ## What is shown -/

def Output.line? : Output → Option String
  | line s => some s
  | box _ => none

def Output.box? : Output → Option Request
  | line _ => none
  | box r => some r

namespace Execution

/-- The lines that a console is shown. -/
def lines (x : Execution) : List String := x.output.filterMap Output.line?

/-- The boxes that are shown. -/
def boxes (x : Execution) : List Request := x.output.filterMap Output.box?

theorem lines_after (x : Execution) (shown : List Output) :
    (x.after shown).lines = shown.filterMap Output.line? ++ x.lines :=
  List.filterMap_append

theorem boxes_after (x : Execution) (shown : List Output) :
    (x.after shown).boxes = shown.filterMap Output.box? ++ x.boxes :=
  List.filterMap_append

end Execution

/-- **What debug mode prints** of statements that are run together: what each
echoes, and then, if it goes on, the values in its outcome as they are shown
right behind it. -/
def Machine.printed : List Stmt → Machine → List String
  | [], _ => []
  | s :: ss, m =>
    match Machine.execute s m with
    | .error _ m' => m.newEchoes m'
    | .ok outcome m' => m.newEchoes m' ++ outcome.values.map m'.heap.display ++ printed ss m'

/-- What debug mode prints of a text. -/
def Session.printed (s : Session) (text : String) : List String :=
  match s.load text with
  | (.error _, _) => []
  | (.ok program, s) => Machine.printed program.statements s.machine

namespace Session

open Machine

variable {m m' : Machine} {s : Stmt} {ss : List Stmt}

/-! ## Statement by statement -/

/-- The boxes and then the lines that are recorded on the way from one machine to
another. -/
def recordedOutput (before after : Machine) : List Output :=
  (newShown before after).map .box ++ (newEchoes before after).map .line

theorem lines_recordedOutput (m m' : Machine) :
    (recordedOutput m m').filterMap Output.line? = newEchoes m m' := by
  have hb : ((newShown m m').map .box).filterMap Output.line? = [] := by
    rw [List.filterMap_map, List.filterMap_eq_nil_iff]
    exact fun _ _ => rfl
  have hl : Output.line? ∘ Output.line = some := rfl
  rw [recordedOutput, List.filterMap_append, hb, List.nil_append, List.filterMap_map, hl,
    List.filterMap_some]

theorem boxes_recordedOutput (m m' : Machine) :
    (recordedOutput m m').filterMap Output.box? = newShown m m' := by
  have hl : ((newEchoes m m').map .line).filterMap Output.box? = [] := by
    rw [List.filterMap_map, List.filterMap_eq_nil_iff]
    exact fun _ _ => rfl
  have hb : Output.box? ∘ Output.box = some := rfl
  rw [recordedOutput, List.filterMap_append, hl, List.append_nil, List.filterMap_map, hb,
    List.filterMap_some]

/-- The lines of values are those that debug mode shows. -/
theorem lines_valueLines (m : Machine) (outcome : Outcome) :
    (valueLines m outcome).filterMap Output.line? =
      if m.settings.debug then outcome.values.map m.heap.display else [] := by
  have hl : Output.line? ∘ (fun v => Output.line (m.heap.display v)) =
      fun v => some (m.heap.display v) := rfl
  unfold valueLines
  split
  · rw [List.filterMap_map, hl, List.filterMap_eq_map']
  · rfl

theorem boxes_valueLines (m : Machine) (outcome : Outcome) :
    (valueLines m outcome).filterMap Output.box? = [] := by
  unfold valueLines
  split
  · rw [List.filterMap_map, List.filterMap_eq_nil_iff]
    exact fun _ _ => rfl
  · rfl

/-- From a machine whose echoes were taken, what a statement adds is shown. -/
theorem statementOutput_behind (m n : Machine) :
    statementOutput (withoutEchoes m) (n.behind ⟨#[], m.shown, m.journal⟩) =
      recordedOutput m (n.behind m.record) := by
  rw [recordedOutput, newShown_behind, newEchoes_behind]
  simp [statementOutput, withoutEchoes, Machine.behind]

/-- A statement adds to what was recorded, and does not see whether the echoes
before it were taken. -/
theorem exists_execute (s : Stmt) (m : Machine) :
    ∃ r, Machine.execute s m = Result.behind m.record r ∧
      Machine.execute s (withoutEchoes m) = Result.behind ⟨#[], m.shown, m.journal⟩ r := by
  have hm : withoutEchoes m = m.unrecorded.behind ⟨#[], m.shown, m.journal⟩ :=
    (behind_record (withoutEchoes m)).symm
  refine ⟨Machine.execute s m.unrecorded, ?_, ?_⟩
  · rw [← Machine.execute_behind, behind_record]
  · rw [hm, Machine.execute_behind]

theorem executeFrom_withoutEchoes_ok {outcome : Outcome} (h : Machine.execute s m = .ok outcome m')
    (ss : List Stmt) :
    executeFrom (withoutEchoes m) (s :: ss) =
      ((executeFrom (withoutEchoes m') ss).1.after (recordedOutput m m' ++ valueLines m' outcome),
        (executeFrom (withoutEchoes m') ss).2) := by
  obtain ⟨r, hr, hr'⟩ := exists_execute s m
  rw [h] at hr
  cases r with
  | error e n => cases hr
  | ok outcome n =>
    cases hr
    rw [executeFrom_cons_ok hr', statementOutput_behind]
    rfl

theorem executeFrom_withoutEchoes_error {e : Error} (h : Machine.execute s m = .error e m')
    (ss : List Stmt) :
    executeFrom (withoutEchoes m) (s :: ss) =
      (⟨recordedOutput m m', some e⟩, withoutEchoes m') := by
  obtain ⟨r, hr, hr'⟩ := exists_execute s m
  rw [h] at hr
  cases r with
  | ok outcome n => cases hr
  | error e n =>
    cases hr
    rw [executeFrom_cons_error hr', statementOutput_behind]
    rfl

/-- **Statement by statement, statements come to what they come to together**: to
the same error, if any, on the same machine but for its echoes. -/
theorem executeFrom_of_runs {r : Result (List Outcome)} (h : Stmt.Runs ss m r) :
    (executeFrom (withoutEchoes m) ss).1.failure = Result.failure? r ∧
      (executeFrom (withoutEchoes m) ss).2 = withoutEchoes (Result.machine r) := by
  induction h with
  | nil => exact ⟨rfl, rfl⟩
  | cons hs _ ih | later hs _ ih =>
    rw [executeFrom_withoutEchoes_ok (execute_ok hs)]
    exact ih
  | stop hs =>
    rw [executeFrom_withoutEchoes_error (execute_error hs)]
    exact ⟨rfl, rfl⟩

/-! ## What a console is shown -/

/-- Out of debug mode nothing is echoed on the way. -/
theorem newEchoes_quiet {α : Type} {p : Plan α} {r : Result α} (h : p.Ends m r)
    (hd : ¬m.settings.debug = true) : newEchoes m (Result.machine r) = [] := by
  rw [newEchoes, h.echoes_eq (eq_false_of_ne_true hd),
    List.drop_eq_nil_of_le (Nat.le_of_eq Array.length_toList)]

/-- **In debug mode a console is shown what debug mode prints**, and out of it no
line. -/
theorem lines_executeFrom (m : Machine) (ss : List Stmt) :
    (executeFrom (withoutEchoes m) ss).1.lines =
      if m.settings.debug then Machine.printed ss m else [] := by
  induction ss generalizing m with
  | nil => split <;> rfl
  | cons s ss ih =>
    obtain ⟨r, hs⟩ := (Plan.job (.stmt s)).exists_ends m
    cases r with
    | error e m' =>
      have hx := execute_error hs
      have hu : newEchoes m m'.unwind = newEchoes m m' := by
        rw [newEchoes, newEchoes, unwind, echoes_unwindBy]
      rw [executeFrom_withoutEchoes_error hx, Execution.lines, lines_recordedOutput,
        Machine.printed, hx]
      split
      next hd => rfl
      next hd => exact hu.trans (newEchoes_quiet hs hd)
    | ok ending m' =>
      have hx := execute_ok hs
      have hk : m'.settings.debug = m.settings.debug := hs.kept.debug_eq
      -- the rest is shown as it prints from here on, in the mode of before
      rw [executeFrom_withoutEchoes_ok hx, Execution.lines_after, List.filterMap_append,
        lines_recordedOutput, lines_valueLines, ih, Machine.printed, hx, hk]
      split
      next hd => rfl
      next hd =>
        have hq : newEchoes m m' = [] := newEchoes_quiet hs hd
        rw [hq]
        rfl

/-- Boxes that are asked for on the way there and on from there are asked for on
the whole way. -/
theorem newShown_append {n k : Machine} (h : m.shown.toList <+: n.shown.toList)
    (h' : n.shown.toList <+: k.shown.toList) :
    newShown m n ++ newShown n k = newShown m k := by
  obtain ⟨t, ht⟩ := h
  obtain ⟨u, hu⟩ := h'
  simp only [newShown, ← Array.length_toList, ← hu, ← ht, List.drop_left, List.append_assoc]
  rw [← List.append_assoc, List.drop_left]

/-- **The boxes that are shown** are those that the statements ask for together. -/
theorem boxes_executeFrom {r : Result (List Outcome)} (h : Stmt.Runs ss m r) :
    (executeFrom (withoutEchoes m) ss).1.boxes = newShown m (Result.machine r) := by
  induction h with
  | nil => exact (List.drop_eq_nil_of_le (Nat.le_of_eq Array.length_toList)).symm
  | @cons s ss m m' m'' ending outcomes hs hss ih | @later s ss m m' m'' ending e hs hss ih =>
    have hp : m.shown.toList <+: m'.shown.toList := hs.shown_prefix
    rw [executeFrom_withoutEchoes_ok (execute_ok hs), Execution.boxes_after, List.filterMap_append,
      boxes_recordedOutput, boxes_valueLines, List.append_nil, ih]
    exact newShown_append hp hss.shown_prefix
  | stop hs =>
    rw [executeFrom_withoutEchoes_error (execute_error hs), Execution.boxes, boxes_recordedOutput]
    rfl

/-! ## Texts -/

/-- The error console is told of the error, and the status says whether there was
one. -/
theorem report_of_failure {x : Execution} {α : Type} {answer : Except Error α}
    (h : x.failure = failureOf answer) :
    (x.status = 0 ↔ ∃ a, answer = .ok a) ∧ (∀ a, answer = .ok a → x.report = "") ∧
      ∀ e, answer = .error e → x.report = e.report := by
  cases answer with
  | ok a =>
    have hf : x.failure = none := h
    refine ⟨by simp [Execution.status, hf], ?_, ?_⟩
    · exact fun _ _ => by simp [Execution.report, hf]
    · exact fun _ he => by cases he
  | error e =>
    have hf : x.failure = some e := h
    refine ⟨by simp [Execution.status, hf], ?_, ?_⟩
    · exact fun _ ho => by cases ho
    · exact fun _ he => by cases he; simp [Execution.report, hf]

variable {s : Session}

theorem withoutEchoes_eq (h : m.echoes = #[]) : withoutEchoes m = m := by
  rw [withoutEchoes, ← h]

/-- Where no echo waits to be taken, statements that could be read run from a machine
whose echoes were taken. -/
theorem execute_of_runs (h : s.machine.echoes = #[]) {text : String} {program : Program}
    (hp : (⟨s.name, text⟩ : Source).program = .ok program) :
    let x := executeFrom (withoutEchoes (s.ready text).machine) program.statements
    s.execute text = (x.1, { s with machine := x.2 }) := by
  rw [withoutEchoes_eq (m := (s.ready text).machine) h]
  exact execute_of_ok hp

theorem failure_execute (h : s.machine.echoes = #[]) (text : String) :
    (s.execute text).1.failure = failureOf (s.run text).1 := by
  cases hp : (⟨s.name, text⟩ : Source).program with
  | error e =>
    rw [execute_of_error hp, run_of_error hp]
    rfl
  | ok program =>
    obtain ⟨r, hr⟩ := Stmt.exists_runs program.statements (s.ready text).machine
    rw [execute_of_runs h hp, run_of_ok hp, hr.executeAll_eq]
    refine (executeFrom_of_runs hr).1.trans ?_
    cases r <;> rfl

theorem session_execute (h : s.machine.echoes = #[]) (text : String) :
    (s.execute text).2 =
      { (s.run text).2 with machine := withoutEchoes (s.run text).2.machine } := by
  cases hp : (⟨s.name, text⟩ : Source).program with
  | error e =>
    rw [execute_of_error hp, run_of_error hp, withoutEchoes_eq (m := (s.told _).machine) h]
  | ok program =>
    obtain ⟨r, hr⟩ := Stmt.exists_runs program.statements (s.ready text).machine
    rw [execute_of_runs h hp, run_of_ok hp, hr.executeAll_eq, (executeFrom_of_runs hr).2]
    cases r <;> rfl

theorem boxes_execute (h : s.machine.echoes = #[]) (text : String) :
    (s.execute text).1.boxes = s.machine.newShown (s.run text).2.machine := by
  cases hp : (⟨s.name, text⟩ : Source).program with
  | error e =>
    rw [execute_of_error hp, run_of_error hp]
    exact (List.drop_eq_nil_of_le (Nat.le_of_eq Array.length_toList)).symm
  | ok program =>
    obtain ⟨r, hr⟩ := Stmt.exists_runs program.statements (s.ready text).machine
    rw [execute_of_runs h hp, machine_run_of_ok hp, hr.executeAll_eq]
    exact boxes_executeFrom hr

theorem lines_execute (h : s.machine.echoes = #[]) (text : String) :
    (s.execute text).1.lines = if s.machine.settings.debug then s.printed text else [] := by
  cases hp : (⟨s.name, text⟩ : Source).program with
  | error e =>
    rw [execute_of_error hp, printed, load_of_error hp, ite_self]
    rfl
  | ok program =>
    rw [execute_of_runs h hp, printed, load_of_ok hp]
    exact lines_executeFrom (s.ready text).machine program.statements

/-- **The three ways to run a text agree.** In a session whose echoes were taken,
running a text statement by statement succeeds where running it together does,
and leaves the same session but for the echoes, with the same boxes shown. The
error console is told of the error, and of nothing else. The console is shown no
line out of debug mode, and in it what debug mode prints of the statements. The
last value is the last in all the outcomes. -/
theorem three_ways_agree (s : Session) (text : String) (h : s.machine.echoes = #[]) :
    let ran := s.run text
    let executed := s.execute text
    (executed.1.status = 0 ↔ ∃ outcomes, ran.1 = .ok outcomes) ∧
      executed.2 = { ran.2 with machine := withoutEchoes ran.2.machine } ∧
      executed.1.boxes = s.machine.newShown ran.2.machine ∧
      (∀ outcomes, ran.1 = .ok outcomes → executed.1.report = "") ∧
      (∀ e, ran.1 = .error e → executed.1.report = e.report) ∧
      executed.1.lines = (if s.machine.settings.debug then s.printed text else []) ∧
      s.eval text =
        (ran.1.map fun outcomes => (Outcome.valuesOf outcomes).getLast?, ran.2) := by
  intro ran executed
  obtain ⟨hstatus, hok, herror⟩ := report_of_failure (failure_execute h text)
  refine ⟨hstatus, session_execute h text, boxes_execute h text, hok, herror,
    lines_execute h text, ?_⟩
  exact Prod.ext (s.fst_eval text) (s.snd_eval text)

/-- In debug mode, a text with a branch that is taken and a statement that fails:
the console is shown the echoes with the values in between, up to the failure. -/
theorem three_ways_agree_failing :
    let s := (Session.start "ways" {} fun _ => true).setDebug true
    let text := "x := true\nif x \x7b\n x\n x := \"a\"\n\x7d\nx\ny"
    s.machine.echoes = #[] ∧ (s.execute text).1.status = 1 ∧
      (s.execute text).1.lines = s.printed text ∧ s.printed text =
        ["'x' inside '<module>' has been assigned the value 'true'.",
          "'x' inside '<module>' has been assigned the value 'a'.", "true", "a"] := by
  intro s text
  obtain ⟨-, -, -, -, -, hl, -⟩ := three_ways_agree s text rfl
  exact ⟨rfl, by decide +kernel, hl, by decide +kernel⟩

end Session

end HotkeyScript
