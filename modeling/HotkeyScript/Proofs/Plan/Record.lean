import HotkeyScript.Proofs.Session.Text
import HotkeyScript.Proofs.Termination
/-!
# What was recorded before a run

A run adds to what its machine echoed, showed and told its watcher, and reads
none of it. So it comes to the same whatever was recorded before
(`Plan.Ends.behind`), and what it records stands behind that. Seen from a
machine with nothing recorded, all that is recorded is the run's own
(`Machine.behind_record`).
-/

namespace HotkeyScript

/-- What a machine keeps of what it did: what was echoed and not yet taken, the
boxes that were asked for, and what its watcher was told. -/
structure Record where
  echoes : Array String := #[]
  shown : Array Request := #[]
  journal : Array Event := #[]

namespace Machine

/-- What a machine has recorded. -/
def record (m : Machine) : Record := ⟨m.echoes, m.shown, m.journal⟩

/-- A machine with nothing recorded. -/
def unrecorded (m : Machine) : Machine := { m with echoes := #[], shown := #[], journal := #[] }

/-- A machine that has recorded something before all that it has. -/
def behind (m : Machine) (past : Record) : Machine :=
  { m with
    echoes := past.echoes ++ m.echoes
    shown := past.shown ++ m.shown
    journal := past.journal ++ m.journal }

/-- A machine is what is left without its record, behind that record. -/
theorem behind_record (m : Machine) : m.unrecorded.behind m.record = m := by
  simp only [behind, unrecorded, record, Array.append_empty]

/-- What is echoed on the way from one machine to another. -/
def newEchoes (before after : Machine) : List String := after.echoes.toList.drop before.echoes.size

/-- The boxes that are asked for on the way from one machine to another. -/
def newShown (before after : Machine) : List Request := after.shown.toList.drop before.shown.size

/-- What the watcher is told on the way from one machine to another. -/
def newEvents (before after : Machine) : List Event := after.journal.toList.drop before.journal.size

theorem newEchoes_behind (m n : Machine) : newEchoes m (n.behind m.record) = n.echoes.toList := by
  simp [newEchoes, behind, record]

/-- Seen from what was recorded before, all that stands behind it is new. -/
theorem newShown_behind (m n : Machine) : newShown m (n.behind m.record) = n.shown.toList := by
  simp [newShown, behind, record]

/-- What is recorded on the way does not depend on what was recorded before. -/
theorem newShown_past (m n : Machine) (past : Record) :
    newShown (m.behind past) (n.behind past) = newShown m n := by
  simp [newShown, behind, List.drop_append]

theorem newEvents_past (m n : Machine) (past : Record) :
    newEvents (m.behind past) (n.behind past) = newEvents m n := by
  simp [newEvents, behind, List.drop_append]

end Machine

/-- A result on a machine that has recorded something before. -/
def Result.behind {α : Type} (past : Record) : Result α → Result α
  | .ok a m => .ok a (m.behind past)
  | .error e m => .error e (m.behind past)

theorem Result.machine_behind {α : Type} (past : Record) (r : Result α) :
    Result.machine (Result.behind past r) = (Result.machine r).behind past := by
  cases r <;> rfl

/-! ## Steps -/

namespace Machine

theorem left_behind (m : Machine) (past : Record) : (m.behind past).left = m.left.behind past := by
  obtain ⟨settings, accepts, ⟨module, calls⟩, heap, echoes, shown, journal⟩ := m
  cases calls with
  | nil => rfl
  | cons c cs => simp only [left, behind, Array.push_append]

/-- Unwinding leaves one call after another, so it records its leaving in the same place. -/
theorem unwind_behind (m : Machine) (past : Record) :
    (m.behind past).unwind = m.unwind.behind past :=
  unwind_comm (f := fun m => m.behind past) (fun m => m.left_behind past) rfl

/-- A call is entered alike, and the watcher is told of it behind all that it was told
before. -/
theorem entered_behind (m : Machine) (past : Record) (f : Function) (args : List Value)
    (entry : Position) :
    (m.behind past).entered f args entry = (m.entered f args entry).behind past := by
  simp only [entered, enter, behind, Result.machine, Array.push_append]

end Machine

/-- Every action does the same, and records it behind what was recorded. -/
theorem Op.run_behind {α : Type} (op : Op α) (m : Machine) (past : Record) :
    op.run (m.behind past) = Result.behind past (op.run m) := by
  have hh : (m.behind past).heap = m.heap := rfl
  cases op with
  | ask span question =>
    simp only [Op.run, Machine.ask, hh]
    cases question m.heap <;> rfl
  | store object key value span =>
    simp only [Op.run, Machine.store, hh]
    cases m.heap.set object key value <;> rfl
  | echo message =>
    have hd : (m.behind past).settings.debug = m.settings.debug := rfl
    simp only [Op.run, Machine.echo, hd]
    split
    · simp only [Machine.behind, Result.behind, Array.push_append]
    · rfl
  | present r =>
    simp only [Op.run, Machine.present, Machine.behind, Result.behind, Array.push_append]
  | _ => rfl

/-! ## Plans and programs -/

/-- **A plan ends the same whatever was recorded before it.** -/
theorem Plan.Ends.behind {α : Type} {p : Plan α} {m : Machine} {r : Result α} (h : p.Ends m r)
    (past : Record) : p.Ends (m.behind past) (Result.behind past r) := by
  induction h with
  | done => exact .done
  | @act _ op m =>
    rw [← Op.run_behind]
    exact .act
  | job _ ih => exact .job ih
  | next _ _ ih ih' => exact .next ih ih'
  | stop _ ih => exact .stop ih
  | refused hd => exact .refused hd
  | @returned f args site m m' ending hd _ ih =>
    -- the watcher is told of entering and leaving, behind all that it was told before
    change Ends _ _ (.ok ending.value (m'.left.behind past))
    rw [← Machine.left_behind]
    rw [← Machine.entered_behind] at ih
    exact .returned hd ih
  | failed hd _ ih =>
    rw [← Machine.entered_behind] at ih
    exact .failed hd ih

/-- All that a plan records is its own. -/
theorem Plan.Ends.exists_unrecorded {α : Type} {p : Plan α} {m : Machine} {r : Result α}
    (h : p.Ends m r) : ∃ r', p.Ends m.unrecorded r' ∧ r = Result.behind m.record r' := by
  obtain ⟨r', hr'⟩ := p.exists_ends m.unrecorded
  have hb := hr'.behind m.record
  rw [Machine.behind_record] at hb
  exact ⟨r', hr', h.unique hb⟩

/-- Boxes that were asked for stay asked for. -/
theorem Plan.Ends.shown_prefix {α : Type} {p : Plan α} {m : Machine} {r : Result α}
    (h : p.Ends m r) : m.shown.toList <+: (Result.machine r).shown.toList := by
  obtain ⟨r', -, rfl⟩ := h.exists_unrecorded
  rw [Result.machine_behind]
  exact ⟨(Result.machine r').shown.toList, Array.toList_append.symm⟩

/-- Nor does a list of statements take a box back, the unwinding behind a fault included. -/
theorem Stmt.Runs.shown_prefix {ss : List Stmt} {m : Machine} {r : Result (List Outcome)}
    (h : Stmt.Runs ss m r) : m.shown.toList <+: (Result.machine r).shown.toList := by
  induction h with
  | nil => exact List.prefix_rfl
  | cons hs _ ih | later hs _ ih => exact hs.shown_prefix.trans ih
  | @stop s ss m m' e hs =>
    have hp : m.shown.toList <+: m'.shown.toList := hs.shown_prefix
    change _ <+: m'.unwind.shown.toList
    rwa [Machine.unwind, Machine.shown_unwindBy]

/-- One statement executed to its end, with the unwinding that a fault brings about. -/
theorem Machine.execute_behind (s : Stmt) (m : Machine) (past : Record) :
    Machine.execute s (m.behind past) = Result.behind past (Machine.execute s m) := by
  obtain ⟨r, hr⟩ := (Plan.job (.stmt s)).exists_ends m
  have hr' := hr.behind past
  cases r with
  | ok ending m' =>
    rw [Machine.execute_ok hr, Machine.execute_ok hr']
    rfl
  | error e m' =>
    rw [Machine.execute_error hr, Machine.execute_error hr', Machine.unwind_behind]
    rfl

/-- **Statements run the same whatever was recorded before them.** -/
theorem Stmt.Runs.behind {ss : List Stmt} {m : Machine} {r : Result (List Outcome)}
    (h : Stmt.Runs ss m r) (past : Record) :
    Stmt.Runs ss (m.behind past) (Result.behind past r) := by
  induction h with
  | nil => exact .nil
  | cons hs _ ih => exact .cons (hs.behind past) ih
  | later hs _ ih => exact .later (hs.behind past) ih
  | @stop s ss m m' e hs =>
    change Stmt.Runs _ _ (.error e (m'.unwind.behind past))
    rw [← Machine.unwind_behind]
    exact .stop (hs.behind past)

/-- And so do all statements of a program. -/
theorem Machine.executeAll_behind (ss : List Stmt) (m : Machine) (past : Record) :
    Machine.executeAll ss (m.behind past) = Result.behind past (Machine.executeAll ss m) := by
  obtain ⟨r, hr⟩ := Stmt.exists_runs ss m
  rw [hr.executeAll_eq, (hr.behind past).executeAll_eq]

/-! ## Sessions -/

namespace Session

variable {past : Record}

/-- Where no echo waits to be taken, a console is shown the same. -/
theorem executeFrom_behind (he : past.echoes = #[]) (m : Machine) (ss : List Stmt) :
    executeFrom (m.behind past) ss = ((executeFrom m ss).1, (executeFrom m ss).2.behind past) := by
  have hw (n : Machine) : withoutEchoes (n.behind past) = (withoutEchoes n).behind past := by
    simp only [withoutEchoes, Machine.behind, he, Array.append_empty]
  have ho (n n' : Machine) :
      statementOutput (n.behind past) (n'.behind past) = statementOutput n n' := by
    simp [statementOutput, Machine.behind, he, List.drop_append]
  induction ss generalizing m with
  | nil => rfl
  | cons s ss ih =>
    have hs := Machine.execute_behind s m past
    cases hx : Machine.execute s m with
    | error e m' =>
      rw [hx] at hs
      rw [executeFrom_cons_error hx, executeFrom_cons_error hs, ho, hw]
    | ok outcome m' =>
      rw [hx] at hs
      rw [executeFrom_cons_ok hx, executeFrom_cons_ok hs, ho, hw, ih]
      rfl

/-- A session that has recorded something before all that it has. -/
def behind (s : Session) (past : Record) : Session := { s with machine := s.machine.behind past }

theorem told_behind (s : Session) (events : Array Event) :
    (s.behind past).told events = (s.told events).behind past := by
  simp only [told, behind, Machine.behind, Array.append_assoc]

theorem ready_behind (s : Session) (text : String) :
    (s.behind past).ready text = (s.ready text).behind past := by
  rw [ready, told_behind]
  rfl

/-- A session's texts come to the same, be they refused, cut short or run to their end. -/
theorem run_behind (s : Session) (text : String) :
    (s.behind past).run text = ((s.run text).1, (s.run text).2.behind past) := by
  cases hp : (⟨s.name, text⟩ : Source).program with
  | error e =>
    have hp' : (⟨(s.behind past).name, text⟩ : Source).program = .error e := hp
    rw [run_of_error hp, run_of_error hp', told_behind]
    rfl
  | ok program =>
    have hp' : (⟨(s.behind past).name, text⟩ : Source).program = .ok program := hp
    have hm : ((s.behind past).ready text).machine = (s.ready text).machine.behind past := by
      rw [ready_behind, behind]
    rw [run_of_ok hp, run_of_ok hp', hm, Machine.executeAll_behind]
    cases Machine.executeAll program.statements (s.ready text).machine <;> rfl

theorem eval_behind (s : Session) (text : String) :
    (s.behind past).eval text = ((s.eval text).1, (s.eval text).2.behind past) := by
  refine Prod.ext ?_ ?_
  · rw [fst_eval, fst_eval, run_behind]
  · rw [snd_eval, snd_eval, run_behind]

/-- A console, too, where no echo waits to be taken: those that wait are printed with the
first statement. -/
theorem execute_behind (he : past.echoes = #[]) (s : Session) (text : String) :
    (s.behind past).execute text = ((s.execute text).1, (s.execute text).2.behind past) := by
  cases hp : (⟨s.name, text⟩ : Source).program with
  | error e =>
    have hp' : (⟨(s.behind past).name, text⟩ : Source).program = .error e := hp
    rw [execute_of_error hp, execute_of_error hp', told_behind]
    rfl
  | ok program =>
    have hp' : (⟨(s.behind past).name, text⟩ : Source).program = .ok program := hp
    have hm : ((s.behind past).ready text).machine = (s.ready text).machine.behind past := by
      rw [ready_behind, behind]
    rw [execute_of_ok hp, execute_of_ok hp', hm, executeFrom_behind he]
    rfl

end Session

end HotkeyScript
