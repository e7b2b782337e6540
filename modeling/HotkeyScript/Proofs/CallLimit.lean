import HotkeyScript.Proofs.Session.Text
import HotkeyScript.Proofs.Termination
/-!
# The limit on calls only cuts runs short

A run that no call was refused in does not know its limit. Carried out from
the same machine under any greater limit it takes the same actions, enters
the same calls and comes to the same end (`Plan.Ends.withLimit`), so programs
and sessions come to the same outcomes or the same error, with the same names,
objects, echoes and boxes behind them.
-/

namespace HotkeyScript

/-- A machine on which at most `n` calls may be under way. -/
def Machine.withLimit (m : Machine) (n : Nat) : Machine :=
  { m with settings := { m.settings with maxCallDepth := n } }

/-- Whether an error says that a call was refused for the limit. -/
def Error.isCut (e : Error) : Bool :=
  match e.cause with
  | .runtime (.callDepth _) => true
  | _ => false

namespace Result

variable {α : Type}

/-- A result with the limit of its machine changed. -/
def withLimit (n : Nat) : Result α → Result α
  | .ok a m => .ok a (m.withLimit n)
  | .error e m => .error e (m.withLimit n)

/-- Whether the limit cut a run short. -/
def isCut : Result α → Bool
  | .ok _ _ => false
  | .error e _ => e.isCut

end Result

/-! ## Nothing but calls reads the limit -/

theorem Machine.left_withLimit (m : Machine) (n : Nat) :
    (m.withLimit n).left = m.left.withLimit n := by
  obtain ⟨settings, accepts, ⟨module, calls⟩, heap, echoes, shown, journal⟩ := m
  cases calls <;> rfl

/-- Every action is the same under every limit. -/
theorem Op.run_withLimit {α : Type} (op : Op α) (m : Machine) (n : Nat) :
    op.run (m.withLimit n) = Result.withLimit n (op.run m) := by
  have hh : (m.withLimit n).heap = m.heap := rfl
  cases op with
  | ask span question =>
    simp only [Op.run, Machine.ask, hh]
    cases question m.heap <;> rfl
  | store object key value span =>
    simp only [Op.run, Machine.store, hh]
    cases m.heap.set object key value <;> rfl
  | echo message =>
    have hd : (m.withLimit n).settings.debug = m.settings.debug := rfl
    simp only [Op.run, Machine.echo, hd]
    split <;> rfl
  | _ => rfl

/-! ## Plans -/

/-- **A plan that was not cut short ends just so under every greater
limit.** The induction is on how it ended; the one rule that reads the limit
upward is the refusal, and that is the cut. -/
theorem Plan.Ends.withLimit {α : Type} {p : Plan α} {m : Machine} {r : Result α}
    (h : p.Ends m r) (hc : Result.isCut r = false) {n : Nat} (hn : m.settings.maxCallDepth ≤ n) :
    p.Ends (m.withLimit n) (Result.withLimit n r) := by
  induction h with
  | done => exact .done
  | @act _ op m =>
    rw [← Op.run_withLimit]
    exact .act
  | job _ ih => exact .job (ih hc hn)
  | @next _ _ _ _ m m' _ r hp _ ih ih' =>
    have hl : m.Level m' := hp.kept
    exact .next (ih rfl hn) (ih' hc (hl.settings ▸ hn))
  | stop _ ih => exact .stop (ih hc hn)
  | refused => cases hc
  | @returned f args site m m' ending hd _ ih =>
    change Ends _ _ (.ok ending.value (m'.left.withLimit n))
    rw [← Machine.left_withLimit]
    exact .returned (Nat.lt_of_lt_of_le hd hn) (ih rfl hn)
  | failed hd _ ih => exact .failed (Nat.lt_of_lt_of_le hd hn) (ih hc hn)

/-! ## Programs -/

namespace Machine

theorem unwind_withLimit (m : Machine) (n : Nat) :
    (m.withLimit n).unwind = m.unwind.withLimit n :=
  unwind_comm (f := fun m => m.withLimit n) (fun m => m.left_withLimit n) rfl

end Machine

/-- Programs pass the limit on to their statements. -/
theorem Stmt.Runs.withLimit {ss : List Stmt} {m : Machine} {r : Result (List Outcome)}
    (h : Stmt.Runs ss m r) (hc : Result.isCut r = false) {n : Nat}
    (hn : m.settings.maxCallDepth ≤ n) :
    Stmt.Runs ss (m.withLimit n) (Result.withLimit n r) := by
  induction h with
  | nil => exact .nil
  | @cons s ss m m' m'' ending outcomes hs _ ih =>
    have hl : m.Level m' := hs.kept
    exact .cons (hs.withLimit rfl hn) (ih rfl (hl.settings ▸ hn))
  | @later s ss m m' m'' ending e hs _ ih =>
    have hl : m.Level m' := hs.kept
    exact .later (hs.withLimit rfl hn) (ih hc (hl.settings ▸ hn))
  | @stop s ss m m' e hs =>
    change Stmt.Runs _ _ (.error e (m'.unwind.withLimit n))
    rw [← Machine.unwind_withLimit]
    exact .stop (hs.withLimit hc hn)

/-- And so does what the machine makes of them. -/
theorem executeAll_withLimit {ss : List Stmt} {m : Machine}
    (hc : Result.isCut (Machine.executeAll ss m) = false) {n : Nat}
    (hn : m.settings.maxCallDepth ≤ n) :
    Machine.executeAll ss (m.withLimit n) = Result.withLimit n (Machine.executeAll ss m) := by
  obtain ⟨r, hr⟩ := Stmt.exists_runs ss m
  rw [hr.executeAll_eq] at hc ⊢
  exact (hr.withLimit hc hn).executeAll_eq

/-! ## Sessions -/

namespace Session

variable {s : Session} {text : String} {n : Nat}

/-- A session in which at most `n` calls may be under way. -/
def withLimit (s : Session) (n : Nat) : Session := { s with machine := s.machine.withLimit n }

theorem run_withLimit (hc : ∀ e, (s.run text).1 = .error e → e.isCut = false)
    (hn : s.machine.settings.maxCallDepth ≤ n) :
    (s.withLimit n).run text = ((s.run text).1, (s.run text).2.withLimit n) := by
  cases hp : (⟨s.name, text⟩ : Source).program with
  | error e =>
    have hp' : (⟨(s.withLimit n).name, text⟩ : Source).program = .error e := hp
    rw [run_of_error hp, run_of_error hp']
    rfl
  | ok program =>
    have hp' : (⟨(s.withLimit n).name, text⟩ : Source).program = .ok program := hp
    have hm : ((s.withLimit n).ready text).machine = (s.ready text).machine.withLimit n := rfl
    rw [run_of_ok hp] at hc
    have hu :
        Result.isCut (Machine.executeAll program.statements (s.ready text).machine) = false := by
      cases hr : Machine.executeAll program.statements (s.ready text).machine with
      | ok outcomes m => rfl
      | error e m => rw [hr] at hc; exact hc e rfl
    rw [run_of_ok hp, run_of_ok hp', hm, executeAll_withLimit hu hn]
    cases Machine.executeAll program.statements (s.ready text).machine <;> rfl

theorem eval_withLimit (hc : ∀ e, (s.eval text).1 = .error e → e.isCut = false)
    (hn : s.machine.settings.maxCallDepth ≤ n) :
    (s.withLimit n).eval text = ((s.eval text).1, (s.eval text).2.withLimit n) := by
  have hu : ∀ e, (s.run text).1 = .error e → e.isCut = false := by
    intro e he
    refine hc e ?_
    unfold eval
    split
    next outcomes s' hs => rw [hs] at he; cases he
    next e' s' hs => rw [hs] at he; cases he; rfl
  unfold eval
  rw [run_withLimit hu hn]
  obtain ⟨answer, s'⟩ := s.run text
  cases answer <;> rfl

/-- Statement by statement, for the echoes that are taken in between do not
depend on the limit. -/
theorem executeFrom_withLimit {m : Machine} {ss : List Stmt}
    (hc : ∀ e, (executeFrom m ss).1.failure = some e → e.isCut = false)
    (hn : m.settings.maxCallDepth ≤ n) :
    executeFrom (m.withLimit n) ss =
      ((executeFrom m ss).1, (executeFrom m ss).2.withLimit n) := by
  induction ss generalizing m with
  | nil => rfl
  | cons s ss ih =>
    obtain ⟨r, hr⟩ := (Plan.job (.stmt s)).exists_ends m
    cases r with
    | error e m' =>
      have he := executeFrom_cons_error (Machine.execute_error hr) ss
      rw [he] at hc ⊢
      have hr' := hr.withLimit (hc e rfl) hn
      rw [executeFrom_cons_error (Machine.execute_error hr'), Machine.unwind_withLimit]
      rfl
    | ok ending m' =>
      have hl : m.Level m' := hr.kept
      have he := executeFrom_cons_ok (Machine.execute_ok hr) ss
      have hr' := hr.withLimit rfl hn
      rw [he] at hc ⊢
      have hs : (withoutEchoes m').settings.maxCallDepth ≤ n := hl.settings ▸ hn
      have hw : withoutEchoes (m'.withLimit n) = (withoutEchoes m').withLimit n := rfl
      rw [executeFrom_cons_ok (Machine.execute_ok hr'), hw, ih hc hs]
      rfl

theorem execute_withLimit (hc : ∀ e, (s.execute text).1.failure = some e → e.isCut = false)
    (hn : s.machine.settings.maxCallDepth ≤ n) :
    (s.withLimit n).execute text = ((s.execute text).1, (s.execute text).2.withLimit n) := by
  cases hp : (⟨s.name, text⟩ : Source).program with
  | error e =>
    have hp' : (⟨(s.withLimit n).name, text⟩ : Source).program = .error e := hp
    rw [execute_of_error hp, execute_of_error hp']
    rfl
  | ok program =>
    have hp' : (⟨(s.withLimit n).name, text⟩ : Source).program = .ok program := hp
    have hm : ((s.withLimit n).ready text).machine = (s.ready text).machine.withLimit n := rfl
    rw [execute_of_ok hp] at hc
    rw [execute_of_ok hp, execute_of_ok hp', hm, executeFrom_withLimit hc hn]
    rfl

end Session

/-! ## Two limits -/

/-- **A limit on calls only cuts runs short.** Where no call was refused under
the limit `k`, any limit `n` from there on leads to the same: a program comes
to the same outcomes or the same error, a text gives the same in each of the
ways to run it, and what is left behind differs in the limit alone. -/
theorem limit_only_cuts {k n : Nat} (h : k ≤ n) :
    (∀ (p : Program) (m : Machine),
      Result.isCut (Machine.executeAll p.statements (m.withLimit k)) = false →
      Machine.executeAll p.statements (m.withLimit n) =
        Result.withLimit n (Machine.executeAll p.statements (m.withLimit k))) ∧
    ∀ (s : Session) (text : String),
      ((∀ e, ((s.withLimit k).run text).1 = .error e → e.isCut = false) →
        (s.withLimit n).run text =
          (((s.withLimit k).run text).1, ((s.withLimit k).run text).2.withLimit n)) ∧
      ((∀ e, ((s.withLimit k).eval text).1 = .error e → e.isCut = false) →
        (s.withLimit n).eval text =
          (((s.withLimit k).eval text).1, ((s.withLimit k).eval text).2.withLimit n)) ∧
      ((∀ e, ((s.withLimit k).execute text).1.failure = some e → e.isCut = false) →
        (s.withLimit n).execute text =
          (((s.withLimit k).execute text).1, ((s.withLimit k).execute text).2.withLimit n)) := by
  refine ⟨fun p m hc => executeAll_withLimit hc h, fun s text => ⟨?_, ?_, ?_⟩⟩
  · exact fun hc => Session.run_withLimit hc h
  · exact fun hc => Session.eval_withLimit hc h
  · exact fun hc => Session.execute_withLimit hc h

/-- A function that gives back a value, and a call of it. -/
def Program.oneCall : Program where
  statements := [
    .declare ⟨"f", default⟩ [] (.mk [.give (some (.boolean true default)) default] default) default,
    .expr (.call ⟨"f", default⟩ [] default) default]

/-- One call is cut short where none may be under way, and no limit from one
on makes a difference to it. -/
theorem limit_only_cuts_oneCall :
    let m := (Session.start "calls" {} fun _ => true).machine
    Result.isCut (Machine.executeAll Program.oneCall.statements (m.withLimit 0)) = true ∧
      1 ≤ 200 ∧
      Result.isCut (Machine.executeAll Program.oneCall.statements (m.withLimit 1)) = false ∧
      Machine.executeAll Program.oneCall.statements (m.withLimit 200) =
        Result.withLimit 200 (Machine.executeAll Program.oneCall.statements (m.withLimit 1)) :=
  have hc : Result.isCut (Machine.executeAll Program.oneCall.statements
      ((Session.start "calls" {} fun _ => true).machine.withLimit 1)) = false := by decide +kernel
  ⟨by decide +kernel, by decide, hc, (limit_only_cuts (by decide)).1 .oneCall _ hc⟩

end HotkeyScript
