import HotkeyScript.Proofs.Interpolation
import HotkeyScript.Proofs.Plan.Origin
import HotkeyScript.Proofs.Program.Names
/-!
# Plans — the names in faults are words

A fault that mentions a name got it from the code that runs: from a name that is looked up
or called there, or that a text refers to, or from a function that was declared under it.
Where the names of the code are words (`Plan.Worded`), a run goes on to code of which this
is true as well (`Point.Step.worded`), so the names in its faults are words
(`Point.Raises.exists_worded`).
-/

namespace HotkeyScript

open Text

/-! ## Faults and functions -/

/-- The name that the sentence of a fault mentions. -/
def Fault.name? : Fault → Option String
  | undefined name | notFunction name | argumentCount name _ _ => some name
  | _ => none

/-- A name that a fault mentions is a word. -/
def Fault.Worded (fault : Fault) : Prop := ∀ name ∈ fault.name?, IsWord name.toList

theorem Fault.worded_of_none {fault : Fault} (h : fault.name? = none) : fault.Worded :=
  fun name hname => by rw [h] at hname; cases hname

theorem Fault.worded_of_some {fault : Fault} {name : String} (h : fault.name? = some name)
    (hname : IsWord name.toList) : fault.Worded :=
  fun other hother => by rw [h] at hother; cases hother; exact hname

/-- Operations on values mention no name. -/
theorem Fault.worded_of_isOfValues {fault : Fault} (h : fault.isOfValues = true) :
    fault.Worded := by
  refine worded_of_none ?_
  cases fault <;> first | rfl | cases h

/-- A function with words for its name and for the names in its body. -/
structure Function.Worded (f : Function) : Prop where
  name : IsWord f.name.toList
  body : HotkeyScript.Worded f.body.leaves

/-- A text refers to values by words. -/
theorem Text.isWord_of_mem_parts {cs name : List Char} (h : .reference name ∈ parts cs) :
    IsWord name := by
  have hdivides := divides_parts cs
  generalize parts cs = ps at h hdivides
  induction hdivides with
  | nil => cases h
  | reference hopens _ ih =>
    obtain heq | h := List.mem_cons.1 h
    · cases heq
      exact hopens.isName
    · exact ih h
  | percent _ _ ih | char _ _ ih =>
    obtain heq | h := List.mem_cons.1 h
    · cases heq
    · exact ih h

/-! ## Plans -/

/-- The names in a part of a script are words. -/
def Job.Worded {α : Type} : Job α → Prop
  | expr e => HotkeyScript.Worded e.leaves
  | key k => HotkeyScript.Worded k.leaves
  | exprs es => HotkeyScript.Worded (Expr.leavesOf es)
  | entries _ es => HotkeyScript.Worded (Expr.leavesOfEntries es)
  | parts _ ps => ∀ name, .reference name ∈ ps → IsWord name
  | stmt s => HotkeyScript.Worded s.leaves
  | block b => HotkeyScript.Worded b.leaves
  | stmts ss => HotkeyScript.Worded (Stmt.leavesOf ss)
  | shown .. | shownItems .. | shownEntries .. | params _ => True

/-- The names in the faults of an action are words. -/
def Op.Worded {α : Type} : Op α → Prop
  | ask _ question => ∀ h fault, question h = .error fault → fault.Worded
  | _ => True

/-- **The names that a plan may put into faults are words.** What comes second may rely on
this of the functions that there are. -/
def Plan.Worded {α : Type} : Plan α → Prop
  | done _ => True
  | act op => op.Worded
  | job j => j.Worded
  | call _ _ _ => True
  | andThen first next => first.Worded ∧ ∀ m n b, first.Ends m (.ok b n) →
      (∀ id, (m.heap.function id).Worded) → (next b).Worded

/-- Answers of operations on values mention no name. -/
theorem Op.worded_of_ofValues {α : Type} {span : Span} {question : Heap → Except Fault α}
    (h : ∀ heap, OfValues (question heap)) : (Op.ask span question).Worded := by
  intro heap fault hfault
  have hof := h heap
  rw [hfault] at hof
  cases hof with
  | error hof => exact Fault.worded_of_isOfValues hof

namespace Plan.Worded

variable {α β : Type}

theorem bind {p : Plan β} {k : β → Plan α} (hp : p.Worded) (hk : ∀ b, (k b).Worded) :
    (p >>= k).Worded := ⟨hp, fun _ _ b _ _ => hk b⟩

theorem fail {fault : Fault} (h : fault.Worded) (span : Span) :
    (Plan.fail fault span : Plan α).Worded := by
  intro heap fault' he
  cases he
  exact h

theorem value {name : String} (h : IsWord name.toList) (span : Span) :
    (Plan.value name span).Worded := by
  refine .bind trivial fun v => ?_
  cases v with
  | none => exact .fail (Fault.worded_of_some rfl h) _
  | some v => trivial

theorem lookup {callee : Identifier} (h : IsWord callee.name.toList) :
    (Plan.function callee).Worded := by
  refine .bind (.value h _) fun v => ?_
  cases v with
  | function id => trivial
  | _ => exact .fail (Fault.worded_of_some rfl h) _

/-- Behind its lookup a function is known to have words for names. -/
theorem function {callee : Identifier} {next : Function → Plan α}
    (h : IsWord callee.name.toList) (hk : ∀ f, f.Worded → (next f).Worded) :
    (Plan.andThen (Plan.function callee) next).Worded := by
  refine ⟨lookup h, fun m n f he hf => hk f ?_⟩
  obtain ⟨id, rfl⟩ := Plan.exists_of_function_ends he
  exact hf id

theorem did (message : String) : (Plan.did message).Worded := .bind trivial fun _ => trivial

theorem shownOr {default : Plan String} (h : default.Worded) {e : Option Expr}
    (he : HotkeyScript.Worded (e.toList.flatMap Expr.leaves)) :
    (Plan.shownOr default e).Worded := by
  cases e with
  | none => exact h
  | some e =>
    rw [Option.toList_some, List.flatMap_singleton] at he
    exact .bind he fun v => trivial

end Plan.Worded

/-! ## Clause by clause -/

open Worded (append_iff)

theorem Expr.worded_plan {e : Expr} (h : Worded e.leaves) : e.plan.Worded := by
  cases e with
  | number | boolean => trivial
  | text value interpolated span =>
    cases interpolated with
    | false => trivial
    | true =>
      have hparts : (Job.parts span (parts value.toList)).Worded :=
        fun _ hname => isWord_of_mem_parts hname
      exact .bind (.bind hparts fun _ => trivial) fun _ => trivial
  | array => exact .bind h fun _ => trivial
  | table => exact .bind h fun _ => trivial
  | name identifier => exact .value (h identifier List.mem_cons_self) _
  | access =>
    obtain ⟨hobject, hkey⟩ := append_iff.1 h
    refine .bind hobject fun _ => .bind hkey fun _ => ?_
    exact Op.worded_of_ofValues fun heap => heap.ofValues_get _ _
  | binary op =>
    obtain ⟨hleft, hright⟩ := append_iff.1 h
    refine .bind hleft fun _ => .bind hright fun _ => ?_
    exact Op.worded_of_ofValues fun heap => op.ofValues_apply _ _ heap
  | unary op => exact .bind h fun _ => Op.worded_of_ofValues fun heap => op.ofValues_apply _ heap
  | choice condition yes no span =>
    obtain ⟨hfront, hno⟩ := append_iff.1 h
    obtain ⟨hcondition, hyes⟩ := append_iff.1 hfront
    refine .bind hcondition fun v => .bind trivial fun b => ?_
    cases b
    · exact hno
    · exact hyes
  | call callee args span =>
    have hargs : Worded (Expr.leavesOf args) := h.mono (List.subset_cons_self _ _)
    refine .function (h callee List.mem_cons_self) fun f hf => ?_
    split
    · exact .bind hargs fun values => trivial
    · exact .fail (Fault.worded_of_some rfl hf.name) _

theorem BoxArguments.worded_plan {args : BoxArguments} (h : Worded args.leaves) (span : Span) :
    (args.plan span).Worded := by
  obtain ⟨h, -⟩ := append_iff.1 h
  obtain ⟨h, htext⟩ := append_iff.1 h
  obtain ⟨-, htitle⟩ := append_iff.1 h
  have hdefault : (Plan.act .title).Worded := trivial
  have hempty : (pure defaultText : Plan String).Worded := trivial
  refine .bind (.shownOr hdefault htitle) fun title => .bind (.shownOr hempty htext) fun text => ?_
  refine .bind trivial fun timeout => .bind trivial fun debug => ?_
  split
  · exact .did _
  · refine .bind trivial fun shown => ?_
    split
    · trivial
    · exact .fail (Fault.worded_of_none rfl) _

theorem Stmt.worded_plan {s : Stmt} (h : Worded s.leaves) : s.plan.Worded := by
  cases s with
  | assign name value isGlobal span =>
    have hvalue : Worded value.leaves := h.mono (List.subset_cons_self _ _)
    refine .bind hvalue fun v => .bind trivial fun shown => .bind trivial fun scope => ?_
    exact .bind trivial fun _ => .bind (.did _) fun _ => trivial
  | store =>
    obtain ⟨hfront, hvalue⟩ := append_iff.1 h
    obtain ⟨hobject, hkey⟩ := append_iff.1 hfront
    refine .bind hobject fun o => .bind hkey fun k => .bind hvalue fun v => ?_
    refine .bind trivial fun shownKey => .bind trivial fun shown => ?_
    exact .bind trivial fun _ => .bind (.did _) fun _ => trivial
  | branch condition yes no span =>
    cases no with
    | none =>
      obtain ⟨hcondition, hyes⟩ := append_iff.1 h
      refine .bind hcondition fun v => .bind trivial fun b => ?_
      cases b
      · trivial
      · exact .bind hyes fun _ => trivial
    | some no =>
      obtain ⟨hfront, hno⟩ := append_iff.1 h
      obtain ⟨hcondition, hyes⟩ := append_iff.1 hfront
      refine .bind hcondition fun v => .bind trivial fun b => ?_
      cases b
      · exact .bind hno fun _ => trivial
      · exact .bind hyes fun _ => trivial
  | declare name params body span =>
    exact .bind trivial fun names => .bind trivial fun _ => .bind (.did _) fun _ => trivial
  | give value span =>
    refine .bind trivial fun b => ?_
    cases b with
    | false => exact .fail (Fault.worded_of_none rfl) _
    | true =>
      cases value with
      | none => trivial
      | some e => exact .bind h fun _ => trivial
  | box args span => exact .bind (args.worded_plan h span) fun _ => trivial
  | expr => exact .bind h fun _ => trivial

theorem Value.worded_shownPlan (enclosing : List Container) (v : Value) :
    (v.shownPlan enclosing).Worded := by
  cases v with
  | number | text | boolean => trivial
  | function => exact .bind trivial fun _ => trivial
  | array id =>
    by_cases hn : Container.array id ∈ enclosing
    · simp only [Value.shownPlan, if_pos hn]
      trivial
    · simp only [Value.shownPlan, if_neg hn]
      exact .bind trivial fun _ => .bind trivial fun _ => trivial
  | table id =>
    by_cases hn : Container.table id ∈ enclosing
    · simp only [Value.shownPlan, if_pos hn]
      trivial
    · simp only [Value.shownPlan, if_neg hn]
      exact .bind trivial fun _ => .bind trivial fun _ => trivial

/-- **The clause of a part with words for names** has words for names. -/
theorem Job.worded_plan {α : Type} {j : Job α} (h : j.Worded) : j.plan.Worded := by
  cases j with
  | expr e => exact Expr.worded_plan h
  | key k =>
    cases k with
    | member => trivial
    | index => exact h
  | exprs es =>
    cases es with
    | nil => trivial
    | cons =>
      obtain ⟨he, hes⟩ := append_iff.1 h
      exact .bind he fun _ => .bind hes fun _ => trivial
  | entries map es =>
    cases es with
    | nil => trivial
    | cons =>
      obtain ⟨hfront, hes⟩ := append_iff.1 h
      obtain ⟨hkey, hvalue⟩ := append_iff.1 hfront
      refine .bind hkey fun key => .bind hvalue fun _ => ?_
      have hput {span : Span} : (Op.ask span fun _ => Heap.tableKey key).Worded :=
        Op.worded_of_ofValues fun _ => Heap.ofValues_tableKey key
      exact .bind (.bind hput fun _ => trivial) fun _ => hes
  | parts span ps =>
    cases ps with
    | nil => trivial
    | cons p ps =>
      have hps : (Job.parts span ps).Worded :=
        fun name hname => h name (List.mem_cons_of_mem _ hname)
      cases p with
      | char => exact .bind hps fun _ => trivial
      | reference name =>
        have hname : IsWord (String.ofList name).toList := by
          rw [String.toList_ofList]
          exact h name List.mem_cons_self
        exact .bind (.value hname _) fun _ => .bind trivial fun _ => .bind hps fun _ => trivial
  | shown enclosing v => exact v.worded_shownPlan enclosing
  | shownItems enclosing vs =>
    cases vs with
    | nil => trivial
    | cons => exact .bind trivial fun _ => .bind trivial fun _ => trivial
  | shownEntries enclosing es =>
    cases es with
    | nil => trivial
    | cons => exact .bind trivial fun _ => .bind trivial fun _ => trivial
  | params ps =>
    cases ps with
    | nil => trivial
    | cons p ps =>
      cases p with
      | name => exact .bind trivial fun _ => trivial
      | _ => exact .fail (Fault.worded_of_none rfl) _
  | stmt s => exact Stmt.worded_plan h
  | block b =>
    cases b with
    | mk statements span => exact h
  | stmts ss =>
    cases ss with
    | nil => trivial
    | cons s ss =>
      obtain ⟨hs, hss⟩ := append_iff.1 h
      refine .bind hs fun ending => ?_
      cases ending with
      | give v => trivial
      | next outcome =>
        refine .bind hss fun ending => ?_
        cases ending <;> trivial

/-! ## Runs -/

namespace Point

variable {root a b : Point} {module : List Declaration}

/-- A run makes functions with words for names, if its module's declarations have. -/
theorem makes_worded (h : ∀ d ∈ module, IsWord d.name.name.toList ∧ Worded d.body.leaves) :
    root.Makes module Function.Worded where
  absent := ⟨fun _ hc => (List.not_mem_nil hc).elim, .nil⟩
  made name params body m live scope _ hlive hd := by
    obtain ⟨d, hd, rfl, rfl⟩ := hd
    have hword : IsWord d.name.name.toList ∧ Worded d.body.leaves := by
      cases live with
      | nil => exact h d hd
      | cons e live =>
        -- it stands in the body of the innermost function
        have hbody := (hlive e List.mem_cons_self).body
        exact e.function.body.worded_of_mem_declarations d hd hbody
    exact ⟨hword.1, hword.2⟩

/-- **A run goes on from words to words.** -/
theorem Step.worded (hs : a.Step b) (hm : root.Makes module Function.Worded)
    (hl : root.Lawful module Function.Worded a) (ha : a.plan.Worded) : b.plan.Worded := by
  cases hs with
  | job => exact Job.worded_plan ha
  | first => exact ha.1
  | next he => exact ha.2 _ _ _ he (Lawful.function hm hl.functions)
  | body =>
    obtain ⟨hf, -⟩ := hl.clause.of_call
    exact Function.Worded.body hf

theorem ComesTo.worded (h : root.ComesTo b) (hm : root.Makes module Function.Worded)
    (hl : root.Lawful module Function.Worded root) (hroot : root.plan.Worded) :
    b.plan.Worded := by
  induction h with
  | refl => exact hroot
  | tail hs hstep ih => exact hstep.worded hm (hl.comesTo hm hs) ih

/-- **The name that a fault mentions is a word**, if it is raised where the names of the code
are. -/
theorem Raises.exists_worded {e : Error} (h : b.Raises e) (hb : b.plan.Worded) :
    ∃ fault, e.cause = .runtime fault ∧ fault.Worded := by
  cases h with
  | refused _ h => cases h; exact ⟨_, rfl, Fault.worded_of_none rfl⟩
  | @act _ op m n _ _ _ h =>
    cases op with
    | ask span question =>
      simp only [Op.run, Machine.ask, Machine.orFail] at h
      cases hq : question m.heap with
      | ok => rw [hq] at h; cases h
      | error fault =>
        rw [hq] at h
        cases h
        exact ⟨fault, rfl, hb _ fault hq⟩
    | store object key value span =>
      simp only [Op.run, Machine.store] at h
      have hof := m.heap.ofValues_set object key value
      cases hs : m.heap.set object key value with
      | ok => rw [hs] at h; cases h
      | error fault =>
        rw [hs] at h hof
        cases h
        cases hof with
        | error hof => exact ⟨fault, rfl, Fault.worded_of_isOfValues hof⟩
    | _ => cases h

end Point

end HotkeyScript
