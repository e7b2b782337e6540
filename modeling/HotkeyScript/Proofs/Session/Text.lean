import HotkeyScript.Proofs.Plan.Basic
import HotkeyScript.Session.Basic
/-!
# Sessions — what becomes of a text

What a session makes of a text depends on whether it can be read. One that
cannot is told of and nothing else happens; one that can becomes the script
of the module, and then its statements run, together (`Session.run_of_ok`) or
one at a time with the echoes taken in between (`Session.execute_of_ok`).
-/

namespace HotkeyScript

/-- What is told of a source while it is read. -/
def Source.events (source : Source) : Array Event :=
  match source.tokens with
  | .error _ => #[]
  | .ok tokens =>
    match source.programOf tokens with
    | .error _ => #[.lexed tokens.length source.name]
    | .ok program =>
      #[.lexed tokens.length source.name, .parsed program.statements.length]

namespace Session

/-- A session whose watcher was told of some events. -/
def told (s : Session) (events : Array Event) : Session :=
  { s with machine := { s.machine with journal := s.machine.journal ++ events } }

/-- A session whose module runs a script. -/
def withScript (s : Session) (source : Source) : Session :=
  { s with machine := { s.machine with stack := s.machine.stack.setSource source } }

/-- A session that has read a text and is about to run it. -/
def ready (s : Session) (text : String) : Session :=
  (s.told (⟨s.name, text⟩ : Source).events).withScript ⟨s.name, text⟩

variable {s : Session} {text : String}

/-- A text that cannot be read is told of, as far as reading it came, and leaves the
module's script as it was. -/
theorem load_of_error {e : Error} (h : (⟨s.name, text⟩ : Source).program = .error e) :
    s.load text = (.error e, s.told (⟨s.name, text⟩ : Source).events) := by
  unfold Source.program at h
  cases ht : (⟨s.name, text⟩ : Source).tokens with
  | error e' =>
    rw [ht] at h
    cases h
    simp only [load, Source.events, ht, told, Array.append_empty]
  | ok tokens =>
    have hp : (⟨s.name, text⟩ : Source).programOf tokens = .error e := by
      rw [ht] at h
      exact h
    simp only [load, Source.events, ht, hp]
    rfl

/-- A text that can be read becomes the module's script. -/
theorem load_of_ok {program : Program} (h : (⟨s.name, text⟩ : Source).program = .ok program) :
    s.load text = (.ok program, s.ready text) := by
  unfold Source.program at h
  cases ht : (⟨s.name, text⟩ : Source).tokens with
  | error e' => rw [ht] at h; cases h
  | ok tokens =>
    have hp : (⟨s.name, text⟩ : Source).programOf tokens = .ok program := by
      rw [ht] at h
      exact h
    simp only [load, ready, Source.events, ht, hp]
    rfl

/-! ## Running what was read -/

theorem run_of_error {e : Error} (h : (⟨s.name, text⟩ : Source).program = .error e) :
    s.run text = (.error e, s.told (⟨s.name, text⟩ : Source).events) := by
  rw [run, load_of_error h]

/-- Its statements run together, and the machine stays as they leave it, also where one
fails. -/
theorem run_of_ok {program : Program} (h : (⟨s.name, text⟩ : Source).program = .ok program) :
    s.run text =
      match Machine.executeAll program.statements (s.ready text).machine with
      | .ok outcomes machine => (.ok outcomes, { s with machine })
      | .error e machine => (.error e, { s with machine }) := by
  rw [run, load_of_ok h]
  rfl

/-- The machine behind a text is the one behind its statements. -/
theorem machine_run_of_ok {program : Program}
    (h : (⟨s.name, text⟩ : Source).program = .ok program) :
    (s.run text).2.machine =
      Result.machine (Machine.executeAll program.statements (s.ready text).machine) := by
  rw [run_of_ok h]
  cases Machine.executeAll program.statements (s.ready text).machine <;> rfl

/-- The last value that a text came to, where it came to outcomes. -/
theorem fst_eval (s : Session) (text : String) :
    (s.eval text).1 = (s.run text).1.map fun outcomes => (Outcome.valuesOf outcomes).getLast? := by
  unfold eval
  split
  next outcomes s' hs => rw [hs]; rfl
  next e s' hs => rw [hs]; rfl

/-- And it is left behind as by running it. -/
theorem snd_eval (s : Session) (text : String) : (s.eval text).2 = (s.run text).2 := by
  unfold eval
  split
  next outcomes s' hs => rw [hs]
  next e s' hs => rw [hs]

/-- Nothing is shown but the fault. -/
theorem execute_of_error {e : Error} (h : (⟨s.name, text⟩ : Source).program = .error e) :
    s.execute text = (⟨[], some e⟩, s.told (⟨s.name, text⟩ : Source).events) := by
  rw [execute, load_of_error h]

/-- Statements run one at a time, and what each of them echoed is shown before the next
one runs. -/
theorem execute_of_ok {program : Program} (h : (⟨s.name, text⟩ : Source).program = .ok program) :
    s.execute text =
      ((executeFrom (s.ready text).machine program.statements).1,
        { s with machine := (executeFrom (s.ready text).machine program.statements).2 }) := by
  rw [execute, load_of_ok h]
  rfl

/-- Texts go by one name for as long as the session lives. -/
theorem name_run (s : Session) (text : String) : (s.run text).2.name = s.name := by
  cases hp : (⟨s.name, text⟩ : Source).program with
  | error e => rw [run_of_error hp, told]
  | ok program =>
    rw [run_of_ok hp]
    cases Machine.executeAll program.statements (s.ready text).machine <;> rfl

theorem name_eval (s : Session) (text : String) : (s.eval text).2.name = s.name := by
  rw [snd_eval, name_run]

theorem name_execute (s : Session) (text : String) : (s.execute text).2.name = s.name := by
  cases hp : (⟨s.name, text⟩ : Source).program with
  | error e => rw [execute_of_error hp, told]
  | ok program => rw [execute_of_ok hp]

/-! ## One statement at a time -/

/-- A machine whose echoes were taken. -/
def withoutEchoes (m : Machine) : Machine := { m with echoes := #[] }

/-- What a statement showed, echoed and came to stands in front of what comes of the
others. -/
theorem executeFrom_cons_ok {m m' : Machine} {stmt : Stmt} {outcome : Outcome}
    (h : Machine.execute stmt m = .ok outcome m') (stmts : List Stmt) :
    executeFrom m (stmt :: stmts) =
      ((executeFrom (withoutEchoes m') stmts).1.after
          (statementOutput m m' ++ valueLines m' outcome),
        (executeFrom (withoutEchoes m') stmts).2) := by
  rw [executeFrom, h]
  rfl

/-- The first fault ends it, and what the statement showed before is not lost. -/
theorem executeFrom_cons_error {m m' : Machine} {stmt : Stmt} {e : Error}
    (h : Machine.execute stmt m = .error e m') (stmts : List Stmt) :
    executeFrom m (stmt :: stmts) = (⟨statementOutput m m', some e⟩, withoutEchoes m') := by
  rw [executeFrom, h]
  rfl

end Session

end HotkeyScript
