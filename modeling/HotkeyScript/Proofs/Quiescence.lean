import HotkeyScript.Proofs.Session.Text
import HotkeyScript.Proofs.Termination
/-!
# Sessions come to rest

Between two texts no call of a session is under way and nothing waits to be
given back (`Signalled.Quiescent`), whatever texts the session was given and
wherever they failed. A statement of the module gives nothing back, for that
takes a function; a statement that succeeds leaves the calls that it found;
and where one fails, the calls that it left open are left behind it.
-/

namespace HotkeyScript

/-! ## Giving back takes a function -/

/-- Where no call is under way the plan gives nothing back. -/
structure Plan.Proceeds {α : Type} (p : Plan (Ending α)) : Prop where
  not_give : ∀ m : Machine, m.stack.current = 0 → ∀ v n, ¬ p.Ends m (.ok (.give v) n)

namespace Plan.Proceeds

variable {α β : Type}

theorem next (a : α) : (Plan.done (.next a)).Proceeds :=
  ⟨fun _ _ _ _ h => by cases h.of_done⟩

theorem job {j : Job (Ending α)} (h : j.plan.Proceeds) : (Plan.job j).Proceeds :=
  ⟨fun m hm v n hj => h.not_give m hm v n hj.of_job⟩

/-- What comes second runs where what came first did. -/
theorem bind {p : Plan β} {k : β → Plan (Ending α)} (hk : ∀ b, (k b).Proceeds) :
    (p >>= k).Proceeds := by
  refine ⟨fun m hm v n h => ?_⟩
  obtain ⟨b, m', hp, h⟩ := h.of_bind_ok
  have hl : m.Level m' := hp.kept
  exact (hk b).not_give m' (hl.stack.current_eq.trans hm) v n h

/-- Where the first part proceeds, the second has to do so only behind a
statement that went on. -/
theorem bind_ending {p : Plan (Ending β)} {k : Ending β → Plan (Ending α)} (hp : p.Proceeds)
    (hk : ∀ b, (k (.next b)).Proceeds) : (p >>= k).Proceeds := by
  refine ⟨fun m hm v n h => ?_⟩
  obtain ⟨ending, m', h', h⟩ := h.of_bind_ok
  have hl : m.Level m' := h'.kept
  cases ending with
  | next b => exact (hk b).not_give m' (hl.stack.current_eq.trans hm) v n h
  | give w => exact hp.not_give m hm w m' h'

end Plan.Proceeds

open Plan

/-- **Giving back fails where no call is under way.** -/
theorem proceeds_give (value : Option Expr) (span : Span) :
    (Stmt.give value span).plan.Proceeds := by
  refine ⟨fun m hm v n h => ?_⟩
  obtain ⟨b, m', hb, h⟩ := h.of_bind_ok
  have hb : (.ok b m' : Result Bool) = .ok (m.stack.current != 0) m := hb.of_act
  rw [hm] at hb
  cases hb
  exact Plan.Ends.not_fail_ok h

mutual

/-- Only `return` gives anything back; a branch does what its statements do. -/
theorem Stmt.proceeds : ∀ s : Stmt, (job (.stmt s)).Proceeds
  | .assign _ _ _ _ => by
    refine .job (.bind fun v => .bind fun shown => .bind fun scope => ?_)
    exact .bind fun _ => .bind fun outcome => .next outcome
  | .store _ _ _ _ => by
    refine .job (.bind fun o => .bind fun k => .bind fun v => ?_)
    refine .bind fun shownKey => .bind fun shown => ?_
    exact .bind fun _ => .bind fun outcome => .next outcome
  | .branch _ yes no _ => by
    refine .job (.bind fun v => .bind fun b => ?_)
    match b, no with
    | true, _ => exact .bind_ending yes.proceeds fun outcomes => .next _
    | false, none => exact .next _
    | false, some no => exact .bind_ending no.proceeds fun outcomes => .next _
  | .declare _ _ _ _ =>
    .job (.bind fun names => .bind fun _ => .bind fun outcome => .next outcome)
  | .give value span => .job (proceeds_give value span)
  | .box _ _ => .job (.bind fun outcome => .next outcome)
  | .expr _ _ => .job (.bind fun v => .next _)

theorem Block.proceeds : ∀ b : Block, (job (.block b)).Proceeds
  | .mk statements _ => .job (Stmt.proceeds_all statements)

theorem Stmt.proceeds_all : ∀ ss : List Stmt, (job (.stmts ss)).Proceeds
  | [] => .job (.next _)
  | s :: ss => by
    refine .job (.bind_ending s.proceeds fun outcome => ?_)
    exact .bind_ending (Stmt.proceeds_all ss) fun outcomes => .next (outcome :: outcomes)

end

namespace Machine

/-! ## Machines at rest -/

/-- **No call is under way**, and the outermost scope is the module's, which
is entered from nowhere. -/
structure AtRest (m : Machine) : Prop where
  calls : m.stack.calls = []
  module : m.stack.module.name = moduleName

namespace AtRest

variable {m n : Machine}

/-- What is level with a machine at rest is at rest. -/
theorem level (h : m.AtRest) (hl : m.Level n) : n.AtRest := by
  refine ⟨hl.stack.nil_iff.2 h.calls, ?_⟩
  have hb : n.stack.module.bare.name = m.stack.module.bare.name := by rw [hl.stack.module]
  exact hb.trans h.module

/-- Leaving every call comes to rest over a machine that was at rest. -/
theorem unwind_under (h : m.AtRest) (above : List Call) : (m.under above).unwind.AtRest := by
  constructor
  · rw [unwind, calls_unwindBy, CallStack.depth, List.drop_length]
  · rw [unwind, module_unwindBy]
    exact h.module

theorem ends_ok (h : m.AtRest) {α : Type} {p : Plan α} {a : α} (hp : p.Ends m (.ok a n)) :
    n.AtRest :=
  h.level hp.kept

theorem ends_error (h : m.AtRest) {α : Type} {p : Plan α} {e : Error}
    (hp : p.Ends m (.error e n)) : n.unwind.AtRest := by
  obtain ⟨base, above, hl, rfl⟩ := hp.kept
  exact (h.level hl).unwind_under above

/-- At rest, no statement gives anything back. -/
theorem not_give (h : m.AtRest) (s : Stmt) (v : Value) :
    ¬ (Plan.job (.stmt s)).Ends m (.ok (.give v) n) :=
  s.proceeds.not_give m (by rw [CallStack.current, h.calls]) v n

/-- Statements run from rest to rest. -/
theorem runs (h : m.AtRest) {ss : List Stmt} {r : Result (List Outcome)}
    (hr : Stmt.Runs ss m r) : (Result.machine r).AtRest := by
  induction hr with
  | nil => exact h
  | cons hs _ ih => exact ih (h.ends_ok hs)
  | later hs _ ih => exact ih (h.ends_ok hs)
  | stop hs => exact h.ends_error hs

theorem executeAll (h : m.AtRest) (ss : List Stmt) :
    (Result.machine (Machine.executeAll ss m)).AtRest := by
  obtain ⟨r, hr⟩ := Stmt.exists_runs ss m
  rw [hr.executeAll_eq]
  exact h.runs hr

theorem withoutEchoes (h : m.AtRest) : (Session.withoutEchoes m).AtRest := ⟨h.calls, h.module⟩

theorem executeFrom (h : m.AtRest) (ss : List Stmt) : (Session.executeFrom m ss).2.AtRest := by
  induction ss generalizing m with
  | nil => exact h
  | cons s ss ih =>
    obtain ⟨r, hr⟩ := (Plan.job (.stmt s)).exists_ends m
    cases r with
    | ok ending n =>
      rw [Session.executeFrom_cons_ok (Machine.execute_ok hr)]
      exact ih (h.ends_ok hr).withoutEchoes
    | error e n =>
      rw [Session.executeFrom_cons_error (Machine.execute_error hr)]
      exact (h.ends_error hr).withoutEchoes

end AtRest

end Machine

/-! ## Values with no call to take them -/

/-- The value given back by what ended so. -/
def Ending.given? {α : Type} : Ending α → Option Value
  | next _ => none
  | give v => some v

/-- The value that statements of the module leave behind for a call to take,
where `pending` was left before them. Each statement starts with none, a
failure drops it, and `between` is what is done after each statement. -/
def Machine.pendingAfter (between : Machine → Machine) :
    List Stmt → Machine → Option Value → Option Value
  | [], _, pending => pending
  | s :: ss, m, _ =>
    match s.run (callAt m.callsLeft) m with
    | .ok ending n => pendingAfter between ss (between n) ending.given?
    | .error _ _ => none

/-- From rest nothing is left behind. -/
theorem Machine.AtRest.pendingAfter_eq_none {between : Machine → Machine}
    (hb : ∀ n : Machine, n.AtRest → (between n).AtRest) {m : Machine} (h : m.AtRest)
    (ss : List Stmt) : Machine.pendingAfter between ss m none = none := by
  induction ss generalizing m with
  | nil => rfl
  | cons s ss ih =>
    unfold Machine.pendingAfter
    cases hr : s.run (callAt m.callsLeft) m with
    | error e n => rfl
    | ok ending n =>
      have hs : (Plan.job (.stmt s)).Ends m (.ok ending n) := Job.ends_iff.2 hr
      cases ending with
      | give v => exact absurd hs (h.not_give s v)
      | next outcome => exact ih (hb n (h.ends_ok hs))

/-! ## Sessions -/

/-- What can be asked of a session. -/
inductive Session.Operation where
  | run (text : String)
  | eval (text : String)
  | execute (text : String)
  | setDebug (on : Bool)
  | reset
  | takeEchoes

/-- A session, and the value that was given back in it with no call to take
it. -/
structure Signalled where
  session : Session
  pending : Option Value

namespace Session

/-- A session after an operation. -/
def perform (s : Session) : Operation → Session
  | .run text => (s.run text).2
  | .eval text => (s.eval text).2
  | .execute text => (s.execute text).2
  | .setDebug on => s.setDebug on
  | .reset => s.reset
  | .takeEchoes => s.takeEchoes.2

/-- What running a text leaves behind with no call to take it. -/
def pendingAfter (s : Session) (between : Machine → Machine) (text : String)
    (pending : Option Value) : Option Value :=
  match s.load text with
  | (.error _, _) => pending
  | (.ok program, s) => Machine.pendingAfter between program.statements s.machine pending

end Session

namespace Signalled

/-- The session in which nothing was run. -/
def start (name : String) (settings : Settings) (accepts : Request → Bool) : Signalled :=
  ⟨.start name settings accepts, none⟩

/-- What an operation does. -/
def perform (s : Signalled) (op : Session.Operation) : Signalled where
  session := s.session.perform op
  pending :=
    match op with
    | .run text | .eval text => s.session.pendingAfter id text s.pending
    | .execute text => s.session.pendingAfter Session.withoutEchoes text s.pending
    | .setDebug _ | .takeEchoes => s.pending
    | .reset => none

/-- What operations do, one after another. -/
def performAll (s : Signalled) (ops : List Session.Operation) : Signalled := ops.foldl perform s

/-- **A session that has come to rest.** -/
structure Quiescent (s : Signalled) : Prop where
  machine : s.session.machine.AtRest
  pending : s.pending = none

/-- **A text is refused with an error.** Each way to run it gives the error
and no output, and leaves the session as it was, but for what its watcher is
told. -/
structure Refuses (s : Signalled) (text : String) (e : Error) : Prop where
  run : (s.session.run text).1 = .error e
  eval : (s.session.eval text).1 = .error e
  execute : (s.session.execute text).1 = ⟨[], some e⟩
  untouched : ∀ op ∈ [.run text, .eval text, .execute text],
    s.perform op = ⟨s.session.told (⟨s.session.name, text⟩ : Source).events, s.pending⟩

end Signalled

/-! ## Rest, whatever was asked -/

namespace Signalled

variable {s : Signalled}

theorem quiescent_start (name : String) (settings : Settings) (accepts : Request → Bool) :
    (start name settings accepts).Quiescent :=
  ⟨⟨rfl, rfl⟩, rfl⟩

/-- A text that can be read starts on a machine at rest. -/
theorem Quiescent.ready (h : s.Quiescent) (text : String) :
    (s.session.ready text).machine.AtRest :=
  ⟨h.machine.calls, h.machine.module⟩

theorem Quiescent.run (h : s.Quiescent) (text : String) :
    (s.session.run text).2.machine.AtRest := by
  cases hp : (⟨s.session.name, text⟩ : Source).program with
  | error e =>
    rw [Session.run_of_error hp]
    exact ⟨h.machine.calls, h.machine.module⟩
  | ok program =>
    have hm := (h.ready text).executeAll program.statements
    rw [Session.run_of_ok hp]
    cases hr : Machine.executeAll program.statements (s.session.ready text).machine with
    | ok outcomes m => rw [hr] at hm; exact hm
    | error e m => rw [hr] at hm; exact hm

theorem Quiescent.eval (h : s.Quiescent) (text : String) :
    (s.session.eval text).2.machine.AtRest := by
  have hr := h.run text
  unfold Session.eval
  split
  next outcomes s' hs => rw [hs] at hr; exact hr
  next e s' hs => rw [hs] at hr; exact hr

theorem Quiescent.execute (h : s.Quiescent) (text : String) :
    (s.session.execute text).2.machine.AtRest := by
  cases hp : (⟨s.session.name, text⟩ : Source).program with
  | error e =>
    rw [Session.execute_of_error hp]
    exact ⟨h.machine.calls, h.machine.module⟩
  | ok program =>
    rw [Session.execute_of_ok hp]
    exact (h.ready text).executeFrom program.statements

theorem Quiescent.pendingAfter (h : s.Quiescent) {between : Machine → Machine}
    (hb : ∀ n : Machine, n.AtRest → (between n).AtRest) (text : String) :
    s.session.pendingAfter between text s.pending = none := by
  unfold Session.pendingAfter
  rw [h.pending]
  cases hp : (⟨s.session.name, text⟩ : Source).program with
  | error e => rw [Session.load_of_error hp]
  | ok program =>
    rw [Session.load_of_ok hp]
    exact (h.ready text).pendingAfter_eq_none hb program.statements

/-- **Every operation leads from rest to rest.** -/
theorem Quiescent.perform (h : s.Quiescent) (op : Session.Operation) :
    (s.perform op).Quiescent := by
  cases op with
  | run text => exact ⟨h.run text, h.pendingAfter (fun _ hn => hn) text⟩
  | eval text => exact ⟨h.eval text, h.pendingAfter (fun _ hn => hn) text⟩
  | execute text =>
    have hb (n : Machine) (hn : n.AtRest) : (Session.withoutEchoes n).AtRest := hn.withoutEchoes
    exact ⟨h.execute text, h.pendingAfter hb text⟩
  | setDebug on => exact ⟨⟨h.machine.calls, h.machine.module⟩, h.pending⟩
  | reset => exact ⟨⟨rfl, rfl⟩, rfl⟩
  | takeEchoes => exact ⟨⟨h.machine.calls, h.machine.module⟩, h.pending⟩

theorem Quiescent.performAll (h : s.Quiescent) (ops : List Session.Operation) :
    (s.performAll ops).Quiescent := by
  induction ops generalizing s with
  | nil => exact h
  | cons op ops ih => exact ih (h.perform op)

/-- A text that cannot be read is refused, by every session. -/
theorem refuses_of_program_error (s : Signalled) {text : String} {e : Error}
    (h : (⟨s.session.name, text⟩ : Source).program = .error e) : s.Refuses text e := by
  have hr := Session.run_of_error h
  have hv : s.session.eval text =
      (.error e, s.session.told (⟨s.session.name, text⟩ : Source).events) := by
    rw [Session.eval, hr]
  have hx := Session.execute_of_error h
  have hp (between : Machine → Machine) :
      s.session.pendingAfter between text s.pending = s.pending := by
    rw [Session.pendingAfter, Session.load_of_error h]
  refine ⟨by rw [hr], by rw [hv], by rw [hx], ?_⟩
  intro op hop
  simp only [List.mem_cons, List.not_mem_nil, or_false] at hop
  obtain rfl | rfl | rfl := hop
  · simp only [Signalled.perform, Session.perform, hr, hp]
  · simp only [Signalled.perform, Session.perform, hv, hp]
  · simp only [Signalled.perform, Session.perform, hx, hp]

theorem name_performAll (s : Signalled) (ops : List Session.Operation) :
    (s.performAll ops).session.name = s.session.name := by
  induction ops generalizing s with
  | nil => rfl
  | cons op ops ih =>
    refine (ih (s.perform op)).trans ?_
    cases op with
    | run text => exact s.session.name_run text
    | eval text => exact s.session.name_eval text
    | execute text => exact s.session.name_execute text
    | setDebug | reset | takeEchoes => rfl

/-- **Sessions come to rest.** After any operations, with whatever texts, no
call of a session is under way, its outermost scope is the module's and
nothing waits to be given back; and a text that cannot be read is refused and
leaves no trace. -/
theorem quiescent_after_operations (name : String) (settings : Settings)
    (accepts : Request → Bool) (ops : List Session.Operation) :
    ((start name settings accepts).performAll ops).Quiescent ∧
      ∀ text e, (⟨name, text⟩ : Source).program = .error e →
        ((start name settings accepts).performAll ops).Refuses text e := by
  refine ⟨(quiescent_start name settings accepts).performAll ops, fun text e h => ?_⟩
  refine refuses_of_program_error _ ?_
  rw [name_performAll]
  exact h

/-- Behind a call that failed the session is at rest, and refuses a sum that
is not finished. -/
theorem refuses_behind_failed_call :
    let s := (start "calls" {} fun _ => true).performAll
      [.setDebug true, .execute "f() \x7b\n return 1 / 0\n\x7d\nf()"]
    ∃ e, (⟨"calls", "1 +"⟩ : Source).program = .error e ∧ s.Quiescent ∧ s.Refuses "1 +" e := by
  intro s
  have hb : (⟨"calls", "1 +"⟩ : Source).program.toBool = false := by decide +kernel
  obtain ⟨e, he⟩ : ∃ e, (⟨"calls", "1 +"⟩ : Source).program = .error e := by
    cases hp : (⟨"calls", "1 +"⟩ : Source).program with
    | error e => exact ⟨e, rfl⟩
    | ok program => rw [hp] at hb; cases hb
  obtain ⟨hq, hr⟩ := quiescent_after_operations "calls" {} (fun _ => true)
    [.setDebug true, .execute "f() \x7b\n return 1 / 0\n\x7d\nf()"]
  exact ⟨e, he, hq, hr "1 +" e he⟩

end Signalled

end HotkeyScript
