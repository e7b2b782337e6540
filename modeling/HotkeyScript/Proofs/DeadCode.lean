import HotkeyScript.Proofs.Machine.Bodies
import HotkeyScript.Proofs.Plan.Halting
import HotkeyScript.Proofs.Session.Text
/-!
# Code behind a return is dead

A return gives back a value or fails, and either way its block ends there: what
stands behind it is not run (`Stmt.runAll_give`). A program without its dead code
therefore does on a machine without dead code what the program does on the
machine as it is (`mirrors_executeAll`). Programs that differ in dead code are one
program without it (`Stmt.Padded.pruned_eq`), so they come to the same.
-/

namespace HotkeyScript

open Machine

/-! ## Dead code -/

def Stmt.isReturn : Stmt → Bool
  | .give _ _ => true
  | _ => false

mutual

/-- A statement without what stands behind a return in one of its blocks. -/
def Stmt.pruned : Stmt → Stmt
  | .branch condition yes none span => .branch condition yes.pruned none span
  | .branch condition yes (some no) span => .branch condition yes.pruned (some no.pruned) span
  | .declare name params body span => .declare name params body.pruned span
  | .assign name value isGlobal span => .assign name value isGlobal span
  | .store object key value span => .store object key value span
  | .give value span => .give value span
  | .box args span => .box args span
  | .expr e span => .expr e span

def Block.pruned : Block → Block
  | .mk statements span => .mk (Stmt.prunedAll statements) span

/-- Statements up to the first return among them. -/
def Stmt.prunedAll : List Stmt → List Stmt
  | [] => []
  | s :: ss => s.pruned :: if s.isReturn then [] else Stmt.prunedAll ss

end

/-- Cutting off the dead code of all functions. -/
def BodyChange.pruning : BodyChange := ⟨Block.pruned, rfl⟩

mutual

/-- **More dead code**: `s.Padded t` says that `t` is `s` with statements put right
behind returns, in blocks of any depth. -/
inductive Stmt.Padded : Stmt → Stmt → Prop where
  | refl (s : Stmt) : Stmt.Padded s s
  | branch {condition : Expr} {yes yes' : Block} {no no' : Option Block} {span : Span} :
      Block.Padded yes yes' → Option.Rel Block.Padded no no' →
      Stmt.Padded (.branch condition yes no span) (.branch condition yes' no' span)
  | declare {name : Identifier} {params : List Expr} {body body' : Block} {span : Span} :
      Block.Padded body body' →
      Stmt.Padded (.declare name params body span) (.declare name params body' span)

inductive Block.Padded : Block → Block → Prop where
  | mk {ss ts : List Stmt} {span : Span} :
      Stmt.PaddedAll ss ts → Block.Padded (.mk ss span) (.mk ts span)

inductive Stmt.PaddedAll : List Stmt → List Stmt → Prop where
  | nil : Stmt.PaddedAll [] []
  | cons {s t : Stmt} {ss ts : List Stmt} :
      Stmt.Padded s t → Stmt.PaddedAll ss ts → Stmt.PaddedAll (s :: ss) (t :: ts)
  /-- Any statements may stand behind a return. -/
  | dead {value : Option Expr} {span : Span} {ss ts : List Stmt} (dead : List Stmt) :
      Stmt.PaddedAll ss ts →
      Stmt.PaddedAll (.give value span :: ss) (.give value span :: dead ++ ts)

end

/-- A program with statements put right behind returns. At the top of a program there
is no return to put them behind: one there fails. -/
def Program.Padded (p q : Program) : Prop := List.Forall₂ Stmt.Padded p.statements q.statements

theorem Stmt.Padded.isReturn_eq {s t : Stmt} (h : s.Padded t) : t.isReturn = s.isReturn := by
  cases h <;> rfl

mutual

/-- **Programs that differ in dead code are one without it.** -/
theorem Stmt.Padded.pruned_eq : ∀ s t : Stmt, s.Padded t → t.pruned = s.pruned
  | _, _, .refl _ => rfl
  | .branch _ yes none _, _, .branch hy .none => by
    rw [Stmt.pruned, Stmt.pruned, Block.Padded.pruned_eq yes _ hy]
  | .branch _ yes (some no) _, _, .branch hy (.some hn) => by
    rw [Stmt.pruned, Stmt.pruned, Block.Padded.pruned_eq yes _ hy, Block.Padded.pruned_eq no _ hn]
  | .declare _ _ body _, _, .declare hb => by
    rw [Stmt.pruned, Stmt.pruned, Block.Padded.pruned_eq body _ hb]

theorem Block.Padded.pruned_eq : ∀ b c : Block, b.Padded c → c.pruned = b.pruned
  | .mk ss _, _, .mk h => by rw [Block.pruned, Block.pruned, Stmt.PaddedAll.pruned_eq ss _ h]

theorem Stmt.PaddedAll.pruned_eq :
    ∀ ss ts : List Stmt, Stmt.PaddedAll ss ts → Stmt.prunedAll ts = Stmt.prunedAll ss
  | [], _, .nil => rfl
  | .give _ _ :: _, _, .dead _ _ => by
    rw [List.cons_append, Stmt.prunedAll, Stmt.prunedAll, Stmt.isReturn, if_pos rfl, if_pos rfl]
  | s :: ss, _, .cons h hs => by
    rw [Stmt.prunedAll, Stmt.prunedAll, h.isReturn_eq, Stmt.Padded.pruned_eq s _ h,
      Stmt.PaddedAll.pruned_eq ss _ hs]

end

theorem Stmt.Padded.map_pruned_eq {ss ts : List Stmt} (h : List.Forall₂ Stmt.Padded ss ts) :
    ts.map Stmt.pruned = ss.map Stmt.pruned := by
  induction h with
  | nil => rfl
  | cons h _ ih => rw [List.map_cons, List.map_cons, Stmt.Padded.pruned_eq _ _ h, ih]

/-! ## Runs without dead code -/

/-- A return gives back a value or fails: it does not go on. -/
theorem Stmt.run_give (call : Caller) (value : Option Expr) (span : Span) (m : Machine) :
    (∃ v m', (Stmt.give value span).run call m = .ok (.give v) m') ∨
      ∃ e m', (Stmt.give value span).run call m = .error e m' := by
  have hi : inFunction m = .ok (m.stack.current != 0) m := rfl
  cases value with
  | none =>
    rw [Stmt.run, Run.bind_of_ok hi]
    split
    · exact .inl ⟨_, _, rfl⟩
    · exact .inr ⟨_, _, rfl⟩
  | some e =>
    rw [Stmt.run, Run.bind_of_ok hi]
    split
    · cases he : e.eval call m with
      | ok v m' => exact .inl ⟨v, m', by rw [Run.bind_of_ok he]; rfl⟩
      | error e m' => exact .inr ⟨e, m', by rw [Run.bind_of_error he]⟩
    · exact .inr ⟨_, _, rfl⟩

/-- **Nothing runs behind a return.** -/
theorem Stmt.runAll_give (call : Caller) (value : Option Expr) (span : Span) (ss : List Stmt) :
    Stmt.runAll call (.give value span :: ss) = Stmt.runAll call [.give value span] := by
  funext m
  rw [Stmt.runAll, Stmt.runAll]
  obtain ⟨v, m', h⟩ | ⟨e, m', h⟩ := Stmt.run_give call value span m
  · rw [Run.bind_of_ok h, Run.bind_of_ok h]
  · rw [Run.bind_of_error h, Run.bind_of_error h]

section

set_option linter.unusedSectionVars false

variable {call call' : Caller}

theorem Stmt.mirrors_cons {s t : Stmt} {ss ts : List Stmt}
    (hs : Run.Mirrors .pruning (s.run call) (t.run call'))
    (hss : Run.Mirrors .pruning (Stmt.runAll call ss) (Stmt.runAll call' ts)) :
    Run.Mirrors .pruning (Stmt.runAll call (s :: ss)) (Stmt.runAll call' (t :: ts)) := by
  rw [Stmt.runAll, Stmt.runAll]
  refine .bind hs fun ending => ?_
  cases ending with
  | give v => exact .pure _
  | next outcome =>
    refine .bind hss fun ending => ?_
    cases ending <;> exact .pure _

variable (hc : Caller.Mirrors .pruning call call')
include hc

mutual

/-- **A statement without its dead code mirrors the statement** where calls do. -/
theorem Stmt.mirrors_run :
    ∀ s : Stmt, Run.Mirrors .pruning (s.run call) (s.pruned.run call')
  | .assign name e isGlobal _ => by
    rw [Stmt.pruned, Stmt.run, Stmt.run]
    refine .bind (e.mirrors_eval hc) fun v => .bind (mirrors_display v) fun _ => ?_
    refine .bind (mirrors_read fun _ => rfl) fun _ => ?_
    exact .bind (mirrors_assign _ v isGlobal) fun _ => .bind (mirrors_did _) fun _ => .pure _
  | .store e k e' _ => by
    rw [Stmt.pruned, Stmt.run, Stmt.run]
    refine .bind (e.mirrors_eval hc) fun o => .bind (k.mirrors_eval hc) fun key => ?_
    refine .bind (e'.mirrors_eval hc) fun v => .bind (mirrors_display key) fun _ => ?_
    refine .bind (mirrors_display v) fun _ => .bind (mirrors_store o key v _) fun _ => ?_
    exact .bind (mirrors_did _) fun _ => .pure _
  | .branch e yes none _ => by
    rw [Stmt.pruned, Stmt.run, Stmt.run]
    refine .bind (e.mirrors_eval hc) fun v => .bind (mirrors_isTrue v) fun b => ?_
    cases b with
    | true => exact .bind yes.mirrors_run fun _ => .pure _
    | false => exact .pure _
  | .branch e yes (some no) _ => by
    rw [Stmt.pruned, Stmt.run, Stmt.run]
    refine .bind (e.mirrors_eval hc) fun v => .bind (mirrors_isTrue v) fun b => ?_
    cases b with
    | true => exact .bind yes.mirrors_run fun _ => .pure _
    | false => exact .bind no.mirrors_run fun _ => .pure _
  | .declare name params body _ => by
    rw [Stmt.pruned, Stmt.run, Stmt.run]
    refine .bind (mirrors_paramNames params) fun names => ?_
    refine .bind (mirrors_declare _ names body) fun _ => .bind (mirrors_did _) fun _ => .pure _
  | .give none _ => by
    rw [Stmt.pruned, Stmt.run, Stmt.run]
    refine .bind (mirrors_read fun _ => rfl) fun inside => ?_
    cases inside with
    | false => exact mirrors_fail _ _
    | true => exact .pure _
  | .give (some e) _ => by
    rw [Stmt.pruned, Stmt.run, Stmt.run]
    refine .bind (mirrors_read fun _ => rfl) fun inside => ?_
    cases inside with
    | false => exact mirrors_fail _ _
    | true => exact .bind (e.mirrors_eval hc) fun _ => .pure _
  | .box args span => by
    rw [Stmt.pruned, Stmt.run, Stmt.run]
    exact .bind (args.mirrors_run hc span) fun _ => .pure _
  | .expr e _ => by
    rw [Stmt.pruned, Stmt.run, Stmt.run]
    exact .bind (e.mirrors_eval hc) fun _ => .pure _

theorem Block.mirrors_run : ∀ b : Block, Run.Mirrors .pruning (b.run call) (b.pruned.run call')
  | .mk ss _ => by
    rw [Block.pruned, Block.run, Block.run]
    exact Stmt.mirrors_runAll ss

theorem Stmt.mirrors_runAll :
    ∀ ss : List Stmt, Run.Mirrors .pruning (Stmt.runAll call ss)
      (Stmt.runAll call' (Stmt.prunedAll ss))
  | [] => .pure _
  | s :: ss => by
    rw [Stmt.prunedAll]
    cases hr : s.isReturn with
    | true =>
      -- what is cut off is not run
      cases s with
      | give value span =>
        rw [Stmt.runAll_give]
        exact Stmt.mirrors_cons (Stmt.mirrors_run _) (.pure _)
      | _ => cases hr
    | false => exact Stmt.mirrors_cons s.mirrors_run (Stmt.mirrors_runAll ss)

end

end

/-- **Calls mirror calls**, to any depth. -/
theorem mirrors_callAt (n : Nat) : Caller.Mirrors .pruning (callAt n) (callAt n) := by
  induction n with
  | zero =>
    intro f args site
    exact .bind (mirrors_read fun _ => rfl) fun limit => mirrors_fail _ _
  | succ n ih =>
    intro f args site
    -- the calls in the body are those with one less of them left
    rw [callAt_succ, callAt_succ]
    refine .bind (mirrors_enter f args _) fun _ => .bind (f.body.mirrors_run ih) fun ending => ?_
    exact .bind mirrors_leave fun _ => .pure _

/-! ## Programs -/

theorem mirrors_execute (s : Stmt) :
    Run.Mirrors .pruning (Machine.execute s) (Machine.execute s.pruned) := by
  intro m
  have hr := s.mirrors_run (mirrors_callAt m.callsLeft) m
  -- both may enter equally many calls, so the calls inside mirror each other
  have hl : (m.mapBodies .pruning).callsLeft = m.callsLeft := rfl
  rw [Machine.execute, Machine.execute, hl, hr]
  cases s.run (callAt m.callsLeft) m with
  | ok ending m' => cases ending <;> rfl
  | error e m' =>
    simp only [Result.mapBodies, unwind_mapBodies]

theorem mirrors_executeAll (ss : List Stmt) :
    Run.Mirrors .pruning (executeAll ss) (executeAll (ss.map Stmt.pruned)) := by
  induction ss with
  | nil => exact .pure []
  | cons s ss ih => exact .bind (mirrors_execute s) fun _ => .bind ih fun _ => .pure _

namespace Session

theorem executeFrom_mapBodies (ss : List Stmt) (m : Machine) :
    executeFrom (m.mapBodies .pruning) (ss.map Stmt.pruned) =
      ((executeFrom m ss).1, (executeFrom m ss).2.mapBodies .pruning) := by
  induction ss generalizing m with
  | nil => rfl
  | cons s ss ih =>
    have hs := mirrors_execute s m
    cases hx : Machine.execute s m with
    | ok outcome m' =>
      rw [hx] at hs
      have hd (v : Value) : (m'.mapBodies .pruning).heap.display v = m'.heap.display v :=
        (m'.heap.looksLike_mapBodies .pruning).display v
      have hv : valueLines (m'.mapBodies .pruning) outcome = valueLines m' outcome := by
        simp only [valueLines, hd]
        rfl
      have hw : withoutEchoes (m'.mapBodies .pruning) = (withoutEchoes m').mapBodies .pruning := rfl
      rw [List.map_cons, executeFrom_cons_ok hx, executeFrom_cons_ok hs, hv, hw, ih]
      rfl
    | error e m' =>
      rw [hx] at hs
      rw [List.map_cons, executeFrom_cons_error hx, executeFrom_cons_error hs]
      rfl

end Session

/-! ## Programs that differ in dead code -/

/-- **Machines that differ in the dead code of their functions only.** -/
structure Machine.SameButDead (m n : Machine) : Prop where
  settings : n.settings = m.settings
  accepts : n.accepts = m.accepts
  stack : n.stack = m.stack
  arrays : n.heap.arrays = m.heap.arrays
  tables : n.heap.tables = m.heap.tables
  functions : n.heap.functions.map (Function.mapBody .pruning) =
    m.heap.functions.map (Function.mapBody .pruning)
  echoes : n.echoes = m.echoes
  shown : n.shown = m.shown
  journal : n.journal = m.journal

/-- The same value or the same error, on machines that differ in dead code. -/
inductive Result.SameButDead {α : Type} : Result α → Result α → Prop where
  | ok {a : α} {m n : Machine} : m.SameButDead n → SameButDead (.ok a m) (.ok a n)
  | error {e : Error} {m n : Machine} : m.SameButDead n → SameButDead (.error e m) (.error e n)

/-- They are one machine without it. -/
theorem Machine.sameButDead_iff {m n : Machine} :
    m.SameButDead n ↔ n.mapBodies .pruning = m.mapBodies .pruning := by
  simp only [Machine.mapBodies, Heap.mapBodies, Machine.mk.injEq, Heap.mk.injEq]
  constructor
  · exact fun h => ⟨h.settings, h.accepts, h.stack, ⟨h.arrays, h.tables, h.functions⟩, h.echoes,
      h.shown, h.journal⟩
  · rintro ⟨hs, ha, hk, ⟨har, ht, hf⟩, he, hb, hj⟩
    exact ⟨hs, ha, hk, har, ht, hf, he, hb, hj⟩

theorem Machine.SameButDead.refl (m : Machine) : m.SameButDead m :=
  Machine.sameButDead_iff.2 rfl

theorem Result.sameButDead_of_mapBodies {α : Type} {r r' : Result α}
    (h : Result.mapBodies .pruning r' = Result.mapBodies .pruning r) : Result.SameButDead r r' := by
  cases r with
  | ok a m =>
    cases r' with
    | ok a' m' =>
      injection h with ha hm
      exact ha ▸ .ok (Machine.sameButDead_iff.2 hm)
    | error e' m' => cases h
  | error e m =>
    cases r' with
    | ok a' m' => cases h
    | error e' m' =>
      injection h with he hm
      exact he ▸ .error (Machine.sameButDead_iff.2 hm)

/-- **Code behind a return is dead.** Statements put right behind returns, in any
blocks of any functions, make no difference to a program: from one machine, or
from two that differ in dead code only, it comes to the same outcomes or the same
error, together as statement by statement, with the same names and objects,
echoes and boxes behind it, and no more than dead code of functions to tell the
machines apart. -/
theorem dead_code_is_not_run {p q : Program} (h : p.Padded q) {m n : Machine}
    (hm : m.SameButDead n) :
    Result.SameButDead (executeAll p.statements m) (executeAll q.statements n) ∧
      (Session.executeFrom n q.statements).1 = (Session.executeFrom m p.statements).1 ∧
      (Session.executeFrom m p.statements).2.SameButDead
        (Session.executeFrom n q.statements).2 := by
  have hm := Machine.sameButDead_iff.1 hm
  refine ⟨Result.sameButDead_of_mapBodies ?_, ?_⟩
  · rw [← mirrors_executeAll, ← mirrors_executeAll, Stmt.Padded.map_pruned_eq h, hm]
  · have hp := Session.executeFrom_mapBodies p.statements m
    have hq := Session.executeFrom_mapBodies q.statements n
    rw [Stmt.Padded.map_pruned_eq h, hm, hp] at hq
    injection hq with hx hm'
    exact ⟨hx.symm, Machine.sameButDead_iff.2 hm'.symm⟩

/-- A call of a function that returns from a branch, with code behind the return. -/
def Program.returning (dead : List Stmt) : Program where
  statements := [
    .declare ⟨"f", default⟩ [] (.mk [
      .branch (.boolean true default)
        (.mk (.give (some (.boolean false default)) default :: dead) default) none default]
      default) default,
    .expr (.call ⟨"f", default⟩ [] default) default]

/-- What stands there may well be a name without a value. -/
theorem dead_code_is_not_run_inBranch :
    let p := Program.returning []
    let q := Program.returning [.expr (.name ⟨"nowhere", default⟩) default]
    let m := (Session.start "returns" {} fun _ => true).machine
    p.Padded q ∧ m.SameButDead m ∧ Result.SameButDead (executeAll p.statements m)
      (executeAll q.statements m) ∧ (Session.executeFrom m q.statements).1.failure = none := by
  intro p q m
  have hb : Block.Padded (.mk [.give (some (.boolean false default)) default] default)
      (.mk [.give (some (.boolean false default)) default,
        .expr (.name ⟨"nowhere", default⟩) default] default) :=
    .mk (.dead [.expr (.name ⟨"nowhere", default⟩) default] .nil)
  have hp : p.Padded q := .cons (.declare (.mk (.cons (.branch hb .none) .nil)))
    (.cons (.refl _) .nil)
  have hm := Machine.SameButDead.refl m
  exact ⟨hp, hm, (dead_code_is_not_run hp hm).1, by decide +kernel⟩

end HotkeyScript
