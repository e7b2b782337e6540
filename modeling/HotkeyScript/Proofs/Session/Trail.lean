import HotkeyScript.Proofs.Plan.Trail
import HotkeyScript.Proofs.Session.History
/-!
# Sessions — the machines that their operations go through

An operation that runs a text goes through the machine that has read it and then
through those of its statements, one after another, up to the first that fails
(`Stmt.Trail`). What every action keeps of the heap is kept along everything that a
session goes through, for as long as it is not told to forget its objects
(`Session.Trail.path`).
-/

namespace HotkeyScript

/-- The machines that running statements goes through, where `between` is what is done
after each of them. -/
inductive Stmt.Trail (between : Machine → Machine) :
    List Stmt → Machine → List Machine → Machine → Prop where
  | nil {m : Machine} : Trail between [] m [] m
  | cons {s : Stmt} {ss : List Stmt} {m m' n : Machine} {ms ms' : List Machine}
      {ending : Ending Outcome} :
      (Plan.job (.stmt s)).Trail m ms (.ok ending m') → Trail between ss (between m') ms' n →
      Trail between (s :: ss) m (ms ++ between m' :: ms') n
  | stop {s : Stmt} {ss : List Stmt} {m m' : Machine} {ms : List Machine} {e : Error} :
      (Plan.job (.stmt s)).Trail m ms (.error e m') →
      Trail between (s :: ss) m (ms ++ [between m'.unwind]) (between m'.unwind)

namespace Session

/-- The machines that one operation goes through. One that runs no text goes through no
other machine than it leaves. -/
inductive Traverses (s : Session) (op : Operation) : List Machine → Prop where
  | read {text : String} {program : Program} {ms : List Machine} :
      op.text? = some text → (⟨s.name, text⟩ : Source).program = .ok program →
      Stmt.Trail op.between program.statements (s.ready text).machine ms (s.perform op).machine →
      Traverses s op ((s.ready text).machine :: ms)
  | unread {text : String} {e : Error} :
      op.text? = some text → (⟨s.name, text⟩ : Source).program = .error e →
      Traverses s op [(s.perform op).machine]
  | other : op.text? = none → Traverses s op [(s.perform op).machine]

/-- **The machines that operations go through**, one after another. -/
inductive Trail : Session → List Operation → List Machine → Prop where
  | nil {s : Session} : Trail s [] []
  | cons {s : Session} {op : Operation} {ops : List Operation} {ms ms' : List Machine} :
      s.Traverses op ms → Trail (s.perform op) ops ms' → Trail s (op :: ops) (ms ++ ms')

end Session

/-! ## There is a trail -/

/-- Statements that leave a machine have gone through others on the way. -/
theorem Stmt.Leaves.exists_trail {between : Machine → Machine} {ss : List Stmt} {m n : Machine}
    {failure : Option Error} (h : Stmt.Leaves between ss m n failure) :
    ∃ ms, Stmt.Trail between ss m ms n := by
  induction h with
  | nil => exact ⟨[], .nil⟩
  | cons hs _ ih =>
    obtain ⟨ms, hms⟩ := hs.exists_trail
    obtain ⟨ms', hms'⟩ := ih
    exact ⟨_, .cons hms hms'⟩
  | stop hs =>
    obtain ⟨ms, hms⟩ := hs.exists_trail
    exact ⟨_, .stop hms⟩

namespace Session

/-- An operation goes through machines whether its text can be read or not. -/
theorem exists_traverses (s : Session) (op : Operation) : ∃ ms, s.Traverses op ms := by
  cases ht : op.text? with
  | none => exact ⟨_, .other ht⟩
  | some text =>
    cases hp : (⟨s.name, text⟩ : Source).program with
    | error e => exact ⟨_, .unread ht hp⟩
    | ok program =>
      obtain ⟨ms, hms⟩ := (leaves_perform ht hp).exists_trail
      exact ⟨_, .read ht hp hms⟩

/-- **Operations go through machines**, whatever they are. -/
theorem exists_trail (s : Session) (ops : List Operation) : ∃ ms, s.Trail ops ms := by
  induction ops generalizing s with
  | nil => exact ⟨[], .nil⟩
  | cons op ops ih =>
    obtain ⟨ms, hms⟩ := s.exists_traverses op
    obtain ⟨ms', hms'⟩ := ih (s.perform op)
    exact ⟨ms ++ ms', .cons hms hms'⟩

end Session

/-! ## What is kept along a trail -/

section

variable {R : Heap → Heap → Prop} (hrefl : ∀ h, R h h)
  (hact : ∀ {β : Type} (op : Op β) (m : Machine), R m.heap (Result.machine (op.run m)).heap)

include hrefl hact

/-- What is done between statements has to leave the heap alone, as unwinding does. -/
theorem Stmt.Trail.path {between : Machine → Machine} (hb : ∀ m, (between m).heap = m.heap)
    {ss : List Stmt} {m n : Machine} {ms : List Machine} (h : Stmt.Trail between ss m ms n) :
    Machine.Path R m ms n := by
  induction h with
  | nil => exact .nil
  | @cons s ss m m' n ms ms' ending hs _ ih =>
    have hstep : R m'.heap (between m').heap := (hb m').symm ▸ hrefl m'.heap
    exact (hs.path hrefl hact).append (.cons hstep ih)
  | @stop s ss m m' ms e hs =>
    have hheap : (between m'.unwind).heap = m'.heap :=
      (hb m'.unwind).trans (Machine.heap_unwindBy _ m')
    have hstep : R m'.heap (between m'.unwind).heap := hheap.symm ▸ hrefl m'.heap
    exact (hs.path hrefl hact).append (.single hstep)

namespace Session

variable {s : Session} {op : Operation} {ops : List Operation} {ms : List Machine}

/-- Only a reset empties the heap. -/
theorem Traverses.path (h : s.Traverses op ms) (hop : op ≠ .reset) :
    Machine.Path R s.machine ms (s.perform op).machine := by
  have hsame : (s.perform op).machine.heap = s.machine.heap →
      Machine.Path R s.machine [(s.perform op).machine] (s.perform op).machine := by
    intro heq
    exact .single (heq.symm ▸ hrefl s.machine.heap)
  cases h with
  | read ht hp htrail =>
    have hb (m : Machine) : (op.between m).heap = m.heap := by
      cases op <;> rfl
    exact .cons (hrefl s.machine.heap) (htrail.path hrefl hact hb)
  | unread ht hp =>
    refine hsame ?_
    rw [(perform_of_error ht hp).1]
    rfl
  | other ht =>
    refine hsame ?_
    cases op with
    | run | eval | execute => cases ht
    | reset => exact absurd rfl hop
    | setDebug | takeEchoes => rfl

/-- **What every action keeps of the heap is kept by a session**, unless it is told to
forget its objects. -/
theorem Trail.path (h : s.Trail ops ms) (hops : .reset ∉ ops) :
    Machine.Path R s.machine ms (s.performAll ops).machine := by
  induction h with
  | nil => exact .nil
  | @cons s op ops ms ms' hop _ ih =>
    have hne : op ≠ .reset := fun heq => hops (heq ▸ List.mem_cons_self)
    have hrest : .reset ∉ ops := fun hmem => hops (List.mem_cons_of_mem op hmem)
    exact (hop.path hrefl hact hne).append (ih hrest)

end Session

end

end HotkeyScript
