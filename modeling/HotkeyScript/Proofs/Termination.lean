import HotkeyScript.Proofs.Plan.Halting
/-!
# Programs end

`Program.Runs` says how a program goes, statement by statement, by rules that
count no steps: inside a statement they are those of `Plan.Ends`, where the
one limit is that on calls under way. Every program runs to outcomes or to an
error on every machine, and `Machine.executeAll` is what it comes to.
-/

namespace HotkeyScript

/-- What a statement of the module did. A value given back goes nowhere. -/
def Ending.outcome : Ending Outcome → Outcome
  | next outcome => outcome
  | give _ => .empty

/-- **How statements of the module run.** `Runs ss m r` says that running
`ss` on `m` comes to an end, with `r`. -/
inductive Stmt.Runs : List Stmt → Machine → Result (List Outcome) → Prop where
  | nil {m : Machine} : Runs [] m (.ok [] m)
  | cons {s : Stmt} {ss : List Stmt} {m m' m'' : Machine} {ending : Ending Outcome}
      {outcomes : List Outcome} :
      (Plan.job (.stmt s)).Ends m (.ok ending m') → Runs ss m' (.ok outcomes m'') →
      Runs (s :: ss) m (.ok (ending.outcome :: outcomes) m'')
  | later {s : Stmt} {ss : List Stmt} {m m' m'' : Machine} {ending : Ending Outcome} {e : Error} :
      (Plan.job (.stmt s)).Ends m (.ok ending m') → Runs ss m' (.error e m'') →
      Runs (s :: ss) m (.error e m'')
  /-- The first failure ends the run, and the calls that it left under way
  are left. -/
  | stop {s : Stmt} {ss : List Stmt} {m m' : Machine} {e : Error} :
      (Plan.job (.stmt s)).Ends m (.error e m') → Runs (s :: ss) m (.error e m'.unwind)

/-- How a program runs. -/
def Program.Runs (p : Program) (m : Machine) (r : Result (List Outcome)) : Prop :=
  Stmt.Runs p.statements m r

/-! ## One statement -/

/-- A statement that ends is executed to what it did. -/
theorem Machine.execute_ok {s : Stmt} {m m' : Machine} {ending : Ending Outcome}
    (h : (Plan.job (.stmt s)).Ends m (.ok ending m')) :
    Machine.execute s m = .ok ending.outcome m' := by
  have hr : s.run (callAt m.callsLeft) m = .ok ending m' := Job.ends_iff.1 h
  rw [Machine.execute, hr]
  cases ending <;> rfl

/-- One that fails leaves no call under way. -/
theorem Machine.execute_error {s : Stmt} {m m' : Machine} {e : Error}
    (h : (Plan.job (.stmt s)).Ends m (.error e m')) :
    Machine.execute s m = .error e m'.unwind := by
  have hr : s.run (callAt m.callsLeft) m = .error e m' := Job.ends_iff.1 h
  rw [Machine.execute, hr]

/-! ## Programs -/

/-- Running statements comes to nothing but what the machine comes to. -/
theorem Stmt.Runs.executeAll_eq {ss : List Stmt} {m : Machine} {r : Result (List Outcome)}
    (h : Stmt.Runs ss m r) : Machine.executeAll ss m = r := by
  induction h with
  | nil => rfl
  | cons hs _ ih =>
    rw [Machine.executeAll, Run.bind_of_ok (Machine.execute_ok hs), Run.bind_of_ok ih]
    rfl
  | later hs _ ih =>
    rw [Machine.executeAll, Run.bind_of_ok (Machine.execute_ok hs), Run.bind_of_error ih]
  | stop hs => rw [Machine.executeAll, Run.bind_of_error (Machine.execute_error hs)]

/-- Statements run to an end, one after another. -/
theorem Stmt.exists_runs (ss : List Stmt) (m : Machine) : ∃ r, Stmt.Runs ss m r := by
  induction ss generalizing m with
  | nil => exact ⟨_, .nil⟩
  | cons s ss ih =>
    obtain ⟨r, hs⟩ := (Plan.job (.stmt s)).exists_ends m
    cases r with
    | error e m' => exact ⟨_, .stop hs⟩
    | ok ending m' =>
      obtain ⟨r, hss⟩ := ih m'
      cases r with
      | error e m'' => exact ⟨_, .later hs hss⟩
      | ok outcomes m'' => exact ⟨_, .cons hs hss⟩

/-- **Every program ends.** Whatever names, functions and objects the machine
holds and however many calls it allows, a program runs to outcomes or to an
error, and in one way only, which is how the machine executes it. -/
theorem Program.runs_to_end (p : Program) (m : Machine) :
    ((∃ outcomes m', p.Runs m (.ok outcomes m')) ∨ (∃ e m', p.Runs m (.error e m'))) ∧
      ∀ r, p.Runs m r ↔ Machine.executeAll p.statements m = r := by
  obtain ⟨r, hr⟩ := Stmt.exists_runs p.statements m
  constructor
  · cases r with
    | ok outcomes m' => exact .inl ⟨outcomes, m', hr⟩
    | error e m' => exact .inr ⟨e, m', hr⟩
  · refine fun r' => ⟨Stmt.Runs.executeAll_eq, ?_⟩
    rintro rfl
    rwa [hr.executeAll_eq]

end HotkeyScript
