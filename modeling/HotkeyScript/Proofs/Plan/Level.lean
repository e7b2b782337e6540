import HotkeyScript.Proofs.Plan.Ends
/-!
# Plans — what they leave of the calls

Two stacks are level when they have the same calls under way and differ at
most in the names that the module and the innermost scope hold. A plan that
succeeds leaves a level stack, and one that fails leaves calls open above a
level one (`Plan.Ends.kept`): entering and leaving balance, in every form of
expression and statement. In particular the calls below the innermost are
left as they were, names and all.
-/

namespace HotkeyScript

/-- A scope without its names. -/
def Scope.bare (s : Scope) : Scope := { s with symbols := .empty }

/-- A call without the names of its scope. -/
def Call.bare (c : Call) : Call := { c with scope := c.scope.bare }

namespace CallStack

/-- **The same calls under way**: `t` has the calls of `s`, and only the
names of the module and of the innermost call may differ. -/
structure Level (s t : CallStack) : Prop where
  module : t.module.bare = s.module.bare
  innermost : t.calls.head?.map Call.bare = s.calls.head?.map Call.bare
  outer : t.calls.tail = s.calls.tail

theorem Level.refl (s : CallStack) : s.Level s := ⟨rfl, rfl, rfl⟩

theorem Level.trans {s t u : CallStack} (h : s.Level t) (h' : t.Level u) : s.Level u :=
  ⟨h'.module.trans h.module, h'.innermost.trans h.innermost, h'.outer.trans h.outer⟩

/-- A call under way in the one stack is under way in the other. -/
theorem Level.exists_cons {s t : CallStack} {c : Call} {cs : List Call} (h : s.Level t)
    (hs : s.calls = c :: cs) : ∃ c', t.calls = c' :: cs ∧ c'.bare = c.bare := by
  obtain ⟨-, hi, ho⟩ := h
  rw [hs] at hi ho
  cases ht : t.calls with
  | nil => rw [ht] at hi; cases hi
  | cons c' cs' =>
    rw [ht] at hi ho
    simp only [List.head?_cons, Option.map_some, Option.some.injEq] at hi
    exact ⟨c', congrArg (c' :: ·) ho, hi⟩

theorem Level.nil_iff {s t : CallStack} (h : s.Level t) : t.calls = [] ↔ s.calls = [] := by
  have hi := h.innermost
  cases hs : s.calls <;> cases ht : t.calls <;> simp_all

/-- Level stacks are equally deep. -/
theorem Level.depth_eq {s t : CallStack} (h : s.Level t) : t.depth = s.depth := by
  unfold depth
  cases hs : s.calls with
  | nil => rw [h.nil_iff.2 hs]
  | cons c cs =>
    obtain ⟨c', ht, -⟩ := h.exists_cons hs
    rw [ht, List.length_cons, List.length_cons]

/-- And their innermost scopes have one number. -/
theorem Level.current_eq {s t : CallStack} (h : s.Level t) : t.current = s.current := by
  unfold current
  cases hs : s.calls with
  | nil => rw [h.nil_iff.2 hs]
  | cons c cs =>
    obtain ⟨c', ht, hb⟩ := h.exists_cons hs
    rw [ht]
    have hn : c'.bare.number = c.bare.number := by rw [hb]
    exact hn

/-! ## Writing names -/

theorem level_setInModule (s : CallStack) (name : String) (v : Value) (isGlobal : Bool) :
    s.Level (s.setInModule name v isGlobal) := ⟨rfl, rfl, rfl⟩

/-- A name is written in the innermost scope, not below it. -/
theorem level_setAt (s : CallStack) (name : String) (v : Value) (isGlobal : Bool) :
    s.Level (s.setAt s.current name v isGlobal) := by
  unfold setAt
  split
  · exact s.level_setInModule name v isGlobal
  · cases hs : s.calls with
    | nil => exact ⟨rfl, by simp [setIn, hs], by simp [setIn, hs]⟩
    | cons c cs =>
      have hc : s.current = c.number := by rw [current, hs]
      refine ⟨rfl, ?_, ?_⟩ <;> simp [setIn, hs, hc, Call.bare, Scope.bare]

theorem level_assign (s : CallStack) (name : String) (v : Value) (isGlobal : Bool) :
    s.Level (s.assign s.current name v isGlobal) := by
  unfold assign
  split
  · exact s.level_setInModule name v true
  · exact s.level_setAt name v isGlobal

/-- Arguments are bound in the innermost scope, which is a call's. -/
theorem level_bindArguments {s : CallStack} (h : s.current ≠ 0) (args : List (String × Value)) :
    s.Level (args.foldl (fun s a => s.bind s.current a.1 a.2) s) ∧
      (args.foldl (fun s a => s.bind s.current a.1 a.2) s).module = s.module := by
  induction args generalizing s with
  | nil => exact ⟨.refl s, rfl⟩
  | cons a args ih =>
    have hl := s.level_setAt a.1 a.2 false
    have hm : (s.setAt s.current a.1 a.2 false).module = s.module := by rw [setAt, if_neg h]
    obtain ⟨ihl, ihm⟩ := ih (hl.current_eq ▸ h)
    exact ⟨hl.trans ihl, ihm.trans hm⟩

end CallStack

/-! ## Machines -/

namespace Machine

/-- Machines with level stacks that are set up alike. -/
structure Level (m n : Machine) : Prop where
  settings : n.settings = m.settings
  accepts : n.accepts = m.accepts
  stack : m.stack.Level n.stack

theorem Level.refl (m : Machine) : m.Level m := ⟨rfl, rfl, .refl _⟩

theorem Level.trans {m n k : Machine} (h : m.Level n) (h' : n.Level k) : m.Level k :=
  ⟨h'.settings.trans h.settings, h'.accepts.trans h.accepts, h.stack.trans h'.stack⟩

/-- Level machines may enter equally many calls. -/
theorem Level.callsLeft_eq {m n : Machine} (h : m.Level n) : n.callsLeft = m.callsLeft := by
  rw [callsLeft, callsLeft, h.settings, h.stack.depth_eq]

/-- Every change leaves a level machine. -/
theorem Changes.level {m n : Machine} (h : m.Changes n) : m.Level n := by
  cases h with
  | nothing => exact .refl m
  | assign name v isGlobal => exact ⟨rfl, rfl, m.stack.level_assign name v isGlobal⟩
  | declare name => exact ⟨rfl, rfl, m.stack.level_setAt name _ false⟩
  | objects | echo | present => exact ⟨rfl, rfl, .refl _⟩

/-- A machine with further calls under way. -/
def under (m : Machine) (above : List Call) : Machine :=
  { m with stack := { m.stack with calls := above ++ m.stack.calls } }

/-- Entering a call puts it on the stack and touches no other scope. -/
theorem entered_stack (m : Machine) (f : Function) (args : List Value) (entry : Position) :
    (m.stack.push f.name m.stack.current entry f.source).Level (m.entered f args entry).stack ∧
      (m.entered f args entry).stack.module = m.stack.module :=
  CallStack.level_bindArguments (s := m.stack.push f.name m.stack.current entry f.source)
    (Nat.succ_ne_zero _) (f.params.zip args)

theorem callsLeft_entered (m : Machine) (f : Function) (args : List Value) (entry : Position) :
    (m.entered f args entry).callsLeft = m.callsLeft - 1 := by
  have hd : (m.entered f args entry).stack.depth = m.stack.depth + 1 :=
    (m.entered_stack f args entry).1.depth_eq
  have hs : (m.entered f args entry).settings = m.settings := rfl
  rw [callsLeft, callsLeft, hd, hs]
  omega

/-- **What stays level with an entered call is level without it.** -/
theorem level_of_level_entered {m n : Machine} {f : Function} {args : List Value}
    {entry : Position} (h : (m.entered f args entry).Level n) :
    ∃ c, n.stack.calls = c :: m.stack.calls ∧ m.Level { n with stack := n.stack.pop } := by
  obtain ⟨hl, hm⟩ := m.entered_stack f args entry
  obtain ⟨c, hc, -⟩ := (hl.trans h.stack).exists_cons rfl
  have hp : n.stack.pop.calls = m.stack.calls := by rw [CallStack.pop, hc, List.tail_cons]
  refine ⟨c, hc, h.settings, h.accepts, ?_, by rw [hp], by rw [hp]⟩
  rw [← hm]
  exact h.stack.module

/-! ## Leaving calls -/

/-- **Leaving calls** takes them off the stack and tells the watcher, and nothing
else. -/
theorem exists_left (m : Machine) :
    ∃ journal, m.left = { m with stack := m.stack.pop, journal } := by
  unfold left
  split
  next h =>
    refine ⟨m.journal, ?_⟩
    have hp : m.stack.pop = m.stack := by rw [CallStack.pop, h, List.tail_nil, ← h]
    rw [hp]
  next c cs h => exact ⟨_, rfl⟩

theorem exists_unwindBy (n : Nat) (m : Machine) :
    ∃ journal, m.unwindBy n =
      { m with stack := { m.stack with calls := m.stack.calls.drop n }, journal } := by
  induction n generalizing m with
  | zero => exact ⟨m.journal, rfl⟩
  | succ n ih =>
    obtain ⟨journal, hl⟩ := m.exists_left
    obtain ⟨journal', hu⟩ := ih m.left
    refine ⟨journal', ?_⟩
    rw [unwindBy, hu, hl]
    simp only [CallStack.pop, List.drop_tail]

/-- What holds of two machines and stays when each leaves a call stays when each
leaves several. -/
theorem unwindBy_rel {R : Machine → Machine → Prop} (hR : ∀ m n, R m n → R m.left n.left)
    (k : Nat) {m n : Machine} (h : R m n) : R (m.unwindBy k) (n.unwindBy k) := by
  induction k generalizing m n with
  | zero => exact h
  | succ k ih => exact ih (hR m n h)

/-- What commutes with leaving one call commutes with leaving them all, if it leaves
the number of calls. -/
theorem unwind_comm {f : Machine → Machine} (hf : ∀ m, (f m).left = f m.left) {m : Machine}
    (hd : (f m).stack.depth = m.stack.depth) : (f m).unwind = f m.unwind := by
  rw [unwind, unwind, hd]
  refine unwindBy_rel (R := fun m n => m = f n) (fun m n h => ?_) m.stack.depth rfl
  rw [h, hf]

/-- Leaving a call leaves the module as it is. -/
theorem module_left (m : Machine) : m.left.stack.module = m.stack.module := by
  obtain ⟨_, h⟩ := m.exists_left
  rw [h]
  rfl

theorem calls_unwindBy (n : Nat) (m : Machine) :
    (m.unwindBy n).stack.calls = m.stack.calls.drop n := by
  obtain ⟨_, h⟩ := exists_unwindBy n m
  rw [h]

theorem module_unwindBy (n : Nat) (m : Machine) : (m.unwindBy n).stack.module = m.stack.module := by
  obtain ⟨_, h⟩ := exists_unwindBy n m
  rw [h]

theorem settings_unwindBy (n : Nat) (m : Machine) : (m.unwindBy n).settings = m.settings := by
  obtain ⟨_, h⟩ := exists_unwindBy n m
  rw [h]

theorem accepts_unwindBy (n : Nat) (m : Machine) : (m.unwindBy n).accepts = m.accepts := by
  obtain ⟨_, h⟩ := exists_unwindBy n m
  rw [h]

theorem heap_left (m : Machine) : m.left.heap = m.heap := by
  obtain ⟨_, h⟩ := m.exists_left
  rw [h]

theorem heap_unwindBy (n : Nat) (m : Machine) : (m.unwindBy n).heap = m.heap := by
  obtain ⟨_, h⟩ := exists_unwindBy n m
  rw [h]

theorem echoes_left (m : Machine) : m.left.echoes = m.echoes := by
  obtain ⟨_, h⟩ := m.exists_left
  rw [h]

theorem echoes_unwindBy (n : Nat) (m : Machine) : (m.unwindBy n).echoes = m.echoes := by
  obtain ⟨_, h⟩ := exists_unwindBy n m
  rw [h]

theorem shown_left (m : Machine) : m.left.shown = m.shown := by
  obtain ⟨_, h⟩ := m.exists_left
  rw [h]

theorem shown_unwindBy (n : Nat) (m : Machine) : (m.unwindBy n).shown = m.shown := by
  obtain ⟨_, h⟩ := exists_unwindBy n m
  rw [h]

end Machine

/-! ## Plans -/

/-- A result is level with a machine: on success as it is, on failure below
the calls that were left open. -/
def Result.Kept (m : Machine) {α : Type} : Result α → Prop
  | .ok _ n => m.Level n
  | .error _ n => ∃ base above, m.Level base ∧ n = base.under above

theorem Machine.Level.kept {m n : Machine} {α : Type} {r : Result α} (h : m.Level n)
    (hr : Result.Kept n r) : Result.Kept m r := by
  cases r with
  | ok => exact h.trans hr
  | error =>
    obtain ⟨base, above, hb, rfl⟩ := hr
    exact ⟨base, above, h.trans hb, rfl⟩

theorem Machine.Level.kept_error {m n : Machine} {α : Type} {e : Error} (h : m.Level n) :
    Result.Kept m (.error e n : Result α) := ⟨n, [], h, rfl⟩

/-- Settings stay, whatever is left open. -/
theorem Result.Kept.settings_eq {m : Machine} {α : Type} {r : Result α} (h : Result.Kept m r) :
    (Result.machine r).settings = m.settings := by
  cases r with
  | ok a n => exact h.settings
  | error e n =>
    obtain ⟨base, above, hb, rfl⟩ := h
    exact hb.settings

theorem Result.Kept.accepts_eq {m : Machine} {α : Type} {r : Result α} (h : Result.Kept m r) :
    (Result.machine r).accepts = m.accepts := by
  cases r with
  | ok a n => exact h.accepts
  | error e n =>
    obtain ⟨base, above, hb, rfl⟩ := h
    exact hb.accepts

theorem Op.kept {α : Type} (op : Op α) (m : Machine) : Result.Kept m (op.run m) := by
  have h := (op.changes m).level
  cases hr : (op.run m : Result α) with
  | ok => rw [hr] at h; exact h
  | error => rw [hr] at h; exact h.kept_error

/-- **Calls balance.** A plan that succeeds leaves the calls under way that
it found, and one that fails leaves more of them above those. -/
theorem Plan.Ends.kept {α : Type} {p : Plan α} {m : Machine} {r : Result α} (h : p.Ends m r) :
    Result.Kept m r := by
  induction h with
  | done => exact Machine.Level.refl _
  | act => exact Op.kept _ _
  | job _ ih => exact ih
  | next _ _ ih ih' => exact Machine.Level.kept ih ih'
  | stop _ ih => exact ih
  | refused => exact Machine.Level.kept_error (.refl _)
  | returned _ _ ih =>
    obtain ⟨c, hc, hl⟩ := Machine.level_of_level_entered ih
    rw [Machine.left, hc]
    exact ⟨hl.settings, hl.accepts, hl.stack⟩
  | failed _ _ ih =>
    -- the call that failed is the lowest of those left open
    obtain ⟨base, above, hb, rfl⟩ := ih
    obtain ⟨c, hc, hl⟩ := Machine.level_of_level_entered hb
    refine ⟨_, above ++ [c], hl, ?_⟩
    simp [Machine.under, CallStack.pop, hc]

end HotkeyScript
