import HotkeyScript.Proofs.Traceback
import Mathlib.Data.List.Forall2
import Mathlib.Data.List.Induction
/-!
# Tracebacks show the lines that the code was read from

A session runs many texts, and a function that was declared in one of them may
run while another is the script of the module. Where a function was declared is
told by `Session.Declared`: by code of the module, in the script that it was the
module's; by code of a function, wherever that function was. There is one such
script, it was run in the session, and the declaration is in it
(`Session.Declared.origin`). Every function that a session meets was declared in
this way, however it was passed on, and its frames show lines of that script.
-/

namespace HotkeyScript

/-! ## Functions without code -/

/-- Whether a block has no statements. -/
def Block.isIdle : Block → Bool
  | .mk [] _ => true
  | .mk (_ :: _) _ => false

theorem Block.declarations_of_isIdle {b : Block} (h : b.isIdle = true) : b.declarations = [] := by
  obtain ⟨statements, span⟩ := b
  cases statements with
  | nil => rfl
  | cons => cases h

/-- Plans of code that does nothing. -/
def Plan.Idle {α : Type} : Plan α → Prop
  | done _ => True
  | job (.block b) => b.isIdle = true
  | job (.stmts ss) => ss = []
  | _ => False

namespace Point

/-- No function without code is under way, or nothing is to be done. -/
def Awake (b : Point) : Prop := (∀ e ∈ b.live, e.function.body.isIdle = false) ∨ b.plan.Idle

variable {a b : Point}

/-- A function without code is left before anything is done. -/
theorem Step.awake (h : Step a b) (ha : a.Awake) : b.Awake := by
  cases h with
  | @job _ j m live scope =>
    refine ha.imp_right fun hi => ?_
    cases j with
    | block b =>
      obtain ⟨statements, span⟩ := b
      cases statements with
      | nil => exact rfl
      | cons => cases hi
    | stmts ss => cases ss with
      | nil => exact trivial
      | cons => cases hi
    | _ => exact hi.elim
  | first => exact .inl (ha.resolve_right id)
  | next => exact .inl (ha.resolve_right id)
  | @body f args site m live scope =>
    have hl : ∀ e ∈ live, e.function.body.isIdle = false := ha.resolve_right id
    cases hf : f.body.isIdle with
    | true => exact .inr hf
    | false => exact .inl (List.forall_mem_cons.2 ⟨hf, hl⟩)

theorem ComesTo.awake (h : a.ComesTo b) (ha : a.Awake) : b.Awake := by
  induction h with
  | refl => exact ha
  | tail _ hs ih => exact hs.awake ih

/-- Every function under way where an error is raised has code. -/
theorem Raises.not_isIdle {e : Error} (h : b.Raises e) (hb : b.Awake) :
    ∀ e ∈ b.live, e.function.body.isIdle = false := by
  cases h with
  | act | refused => exact hb.resolve_right id

end Point

/-! ## Scripts of functions -/

/-- The script of the code that runs with some calls under way, where the
module's is given. -/
def Entered.script (script : Source) : List Entered → Source
  | [] => script
  | e :: _ => e.function.source

/-- At a sound point a declaration makes a function with the script of the code
that runs. -/
theorem Point.Sound.source_declared {script : Source} {limit : Nat} {α : Type} {p : Plan α}
    {m : Machine} {live : List Entered} {scope : Nat}
    (h : (⟨p, m, live, scope⟩ : Point).Sound script limit) (name : String) (params : List String)
    (body : Block) : (m.declared name params body).source = Entered.script script live := by
  have ho : Entered.OnStack live m.stack.calls := h.onStack
  have hs : m.stack.module.source = script := h.source
  change (m.stack.scope m.stack.current).source = _
  unfold CallStack.scope CallStack.call? CallStack.current
  generalize m.stack.calls = calls at ho
  cases ho with
  | nil => exact hs
  | @cons e es c cs hc _ =>
    have hf : (c :: cs).find? (fun c' => c'.number == c.number) = some c :=
      List.find?_cons_of_pos (beq_self_eq_true c.number)
    change (((c :: cs).find? fun c' => c'.number == c.number).map Call.scope |>.getD
      m.stack.module).source = _
    rw [hf]
    exact hc.source

/-- A script has a declaration of a function. -/
def Source.Declares (source : Source) (f : Function) : Prop :=
  ∃ program, source.program = .ok program ∧
    ∃ d ∈ Stmt.declarationsOf program.statements, d.name.name = f.name ∧ d.body = f.body

namespace Session

/-- **Where the operations of a session declared a function.** -/
inductive Declared (s : Session) (ops : List Operation) : Source → Function → Prop where
  /-- Code of the module stands in the script that was run. -/
  | byModule {script : Source} {name : String} {params : List String} {body : Block}
      {m : Machine} {scope : Nat} :
      s.ComesTo ops script ⟨.act (.declare name params body), m, [], scope⟩ →
      Declared s ops script (m.declared name params body)
  /-- Code of a function stands where that function was declared. -/
  | byFunction {script origin : Source} {name : String} {params : List String} {body : Block}
      {m : Machine} {e : Entered} {live : List Entered} {scope : Nat} :
      s.ComesTo ops script ⟨.act (.declare name params body), m, e :: live, scope⟩ →
      Declared s ops origin e.function → Declared s ops origin (m.declared name params body)

/-- **The script that a function was declared in**: the only one, which one of the
operations ran, and which has the declaration. -/
structure Origin (s : Session) (ops : List Operation) (origin : Source) (f : Function) : Prop where
  declared : s.Declared ops origin f
  only : ∀ other, s.Declared ops other f → other = origin
  name : origin.name = s.name
  run : ∃ op ∈ ops, op.text? = some origin.text
  declares : origin.Declares f

variable {s : Session} {before after ops : List Operation} {op : Operation}
  {script origin : Source} {f : Function}

/-- What is declared at a point is written in the code that runs there. -/
theorem ComesTo.exists_declaration {name : String} {params : List String} {body : Block}
    {m : Machine} {live : List Entered} {scope : Nat}
    (h : s.ComesTo ops script ⟨.act (.declare name params body), m, live, scope⟩) :
    ∃ program, script.program = .ok program ∧
      ∃ d ∈ Entered.declarations (Stmt.declarationsOf program.statements) live,
        d.name.name = name ∧ d.body = body := by
  obtain ⟨before, op, after, -, root, hr, hb⟩ := h
  obtain ⟨program, hp, hl⟩ := hr.lawful (K := fun _ => True) fun _ _ => trivial
  exact ⟨program, hp, (hl.comesTo (makes_any ..) hb).clause.of_act⟩

/-- A script that is come to was run. -/
theorem ComesTo.run {b : Point} (h : s.ComesTo ops script b) :
    script.name = s.name ∧ ∃ op ∈ ops, op.text? = some script.text := by
  obtain ⟨before, op, after, hops, _, @⟨_, _, _, ht, hn, -, -⟩, -⟩ := h
  refine ⟨hn.symm, op, ?_, ht⟩
  rw [hops]
  exact List.mem_append_right _ (List.mem_cons_self ..)

namespace Declared

theorem run (h : s.Declared ops origin f) :
    origin.name = s.name ∧ ∃ op ∈ ops, op.text? = some origin.text := by
  induction h with
  | byModule hb => exact hb.run
  | byFunction _ _ ih => exact ih

theorem declares (h : s.Declared ops origin f) : origin.Declares f := by
  induction h with
  | byModule hb => exact hb.exists_declaration
  | byFunction hb _ ih =>
    -- the function that declares is declared in its script, and so is what it declares
    obtain ⟨program, hp, d, hd, -, hbody⟩ := ih
    obtain ⟨_, -, d', hd', hname, hbody'⟩ := hb.exists_declaration
    exact ⟨program, hp, d', Stmt.declarationsOf_nested _ d hd d' (hbody ▸ hd'), hname, hbody'⟩

variable {name : String} {settings : Settings} {accepts : Request → Bool}

/-- A function carries the script that it was declared in. -/
theorem source_eq (h : (start name settings accepts).Declared ops origin f) :
    f.source = origin := by
  induction h with
  | byModule hb => exact hb.sound.source_declared ..
  | byFunction hb _ ih => exact (hb.sound.source_declared ..).trans ih

/-- **A function that was declared has one origin.** -/
theorem hasOrigin (h : (start name settings accepts).Declared ops origin f) :
    (start name settings accepts).Origin ops origin f where
  declared := h
  only _ h' := h'.source_eq.symm.trans h.source_eq
  name := h.run.1
  run := h.run.2
  declares := h.declares

end Declared

/-! ## Every function was declared -/

/-- A function that a session can meet: one that was declared, or one without
code, which a handle of no function stands for. -/
def Known (s : Session) (ops : List Operation) (f : Function) : Prop :=
  f.body.isIdle = true ∨ ∃ origin, s.Declared ops origin f

/-- What known functions and the module declare is known. -/
theorem Starts.makes_known {root : Point} (h : s.Starts before op script root)
    (hops : ops = before ++ op :: after) (module : List Declaration) :
    root.Makes module (s.Known ops) where
  absent := .inl rfl
  made name params body m live scope hb hlive hd := by
    have hb : s.ComesTo ops script ⟨.act (.declare name params body), m, live, scope⟩ :=
      ⟨before, op, after, hops, root, h, hb⟩
    cases live with
    | nil => exact .inr ⟨script, .byModule hb⟩
    | cons e live =>
      obtain hi | ⟨origin, he⟩ := hlive e (List.mem_cons_self ..)
      · obtain ⟨d, hd, -⟩ := hd
        rw [Entered.declarations, Block.declarations_of_isIdle hi] at hd
        cases hd
      · exact .inr ⟨origin, .byFunction hb he⟩

/-- What the runs of some operations make satisfies `K`. -/
def AllMake (s : Session) (ops : List Operation) (K : Function → Prop) : Prop :=
  ∀ before op after script root program, ops = before ++ op :: after →
    s.Starts before op script root → script.program = .ok program →
    root.Makes (Stmt.declarationsOf program.statements) K

section

variable {K : Function → Prop} (hK : s.AllMake ops K)

include hK

/-- Then functions that satisfy it are followed by such functions. -/
theorem Starts.functions_of_ends {α : Type} {p : Plan α} {m : Machine} {r : Result α}
    (h : s.Starts before op script (.rest p m)) (hops : ops = before ++ op :: after)
    (hm : ∀ f ∈ m.heap.functions, K f) (he : p.Ends m r) :
    ∀ f ∈ (Result.machine r).heap.functions, K f := by
  obtain ⟨program, hp, hl⟩ := h.lawful hm
  exact hl.ends (hK before op after script _ program hops h hp) he

/-- **Every function of a session satisfies what its runs make satisfies**, after any of its
operations, if it began without functions. -/
theorem functions_performAll (hs : s.machine.heap.functions = #[]) (h : ops = before ++ after) :
    ∀ f ∈ (s.performAll before).machine.heap.functions, K f := by
  induction before using List.reverseRecOn generalizing after with
  | nil =>
    intro f hf
    change f ∈ s.machine.heap.functions at hf
    rw [hs] at hf
    exact (Array.not_mem_empty f hf).elim
  | append_singleton before op ih =>
    rw [List.append_assoc] at h
    specialize ih h
    rw [performAll_concat]
    cases ht : op.text? with
    | none =>
      cases op with
      | run | eval | execute => cases ht
      | setDebug | takeEchoes => exact ih
      | reset => exact fun f hf => (Array.not_mem_empty f hf).elim
    | some text =>
      have hn := s.name_performAll before
      cases hp : (⟨(s.performAll before).name, text⟩ : Source).program with
      | error e =>
        rw [(perform_of_error ht hp).1]
        exact ih
      | ok program =>
        refine (leaves_perform ht hp).keeps
          (P := fun m => ∀ f ∈ m.heap.functions, K f) ih ?_ ?_ ?_
        · intro k hk
          cases op <;> exact hk
        · intro k hk
          rw [Machine.unwind, Machine.heap_unwindBy]
          exact hk
        · intro stmt k r hpass hk he
          have hr : s.Starts before op ⟨s.name, text⟩ (.rest (.job (.stmt stmt)) k) :=
            .mk ht rfl (hn ▸ hp) hpass
          exact hr.functions_of_ends hK h hk he

/-- So does every function where an operation comes to a statement. -/
theorem Starts.functions {root : Point} (h : s.Starts before op script root)
    (hops : ops = before ++ op :: after) (hs : s.machine.heap.functions = #[]) :
    ∀ f ∈ root.machine.heap.functions, K f := by
  obtain @⟨program, stmt, m, ht, hn, hp, hpass⟩ := h
  refine hpass.keeps (P := fun m => ∀ f ∈ m.heap.functions, K f)
    (functions_performAll hK hs hops) ?_ ?_
  · intro k hk
    cases op <;> exact hk
  · intro t k ending k' hpass hk he
    have hr : s.Starts before op script (.rest (.job (.stmt t)) k) := .mk ht hn hp hpass
    exact hr.functions_of_ends hK hops hk he

end

/-- **Every function is known** where an operation comes to a statement. -/
theorem Starts.known {root : Point} (h : s.Starts before op script root)
    (hops : ops = before ++ op :: after) (hs : s.machine.heap.functions = #[]) :
    ∀ f ∈ root.machine.heap.functions, s.Known ops f :=
  h.functions (fun _ _ _ _ _ _ hops hr _ => hr.makes_known hops _) hops hs

/-- Every function under way where an error is raised was declared. -/
theorem Starts.exists_declared {root b : Point} (hr : s.Starts before op script root)
    (hops : ops = before ++ op :: after)
    (hf : ∀ f ∈ root.machine.heap.functions, s.Known ops f) (hb : root.ComesTo b) {e : Error}
    (he : b.Raises e) : ∀ entered ∈ b.live, ∃ origin, s.Declared ops origin entered.function := by
  intro entered hlive
  obtain ⟨program, -, hl⟩ := hr.lawful hf
  have hawake : root.Awake := by
    cases hr with
    | mk => exact .inl fun _ he => (List.not_mem_nil he).elim
  have hcode := he.not_isIdle (hb.awake hawake) entered hlive
  refine ((hl.comesTo (hr.makes_known hops _) hb).live entered hlive).resolve_left ?_
  rw [hcode]
  exact Bool.false_ne_true

end Session

/-! ## Frames -/

namespace Entered

/-- The frames are one for the module and one for each of the calls. -/
theorem forall₂_frames (script : Source) {R : Frame → Entered → Prop} {es : List Entered}
    (h : ∀ e ∈ es, ∀ p, R (.at e.function.source e.function.name p) e) (p : Position) :
    ∃ inner q, frames script p es = inner ++ [.at script moduleName q] ∧
      List.Forall₂ R inner es := by
  induction es generalizing p with
  | nil => exact ⟨[], p, rfl, .nil⟩
  | cons e es ih =>
    obtain ⟨he, hes⟩ := List.forall_mem_cons.1 h
    obtain ⟨inner, q, hf, hi⟩ := ih hes e.site.start
    exact ⟨_ :: inner, q, congrArg _ hf, .cons (he p) hi⟩

end Entered

/-- **A frame shows where a call's code was read**: a line of the script that the
function was declared in, under the function's name. -/
def Session.Shows (s : Session) (ops : List Session.Operation) (frame : Frame)
    (entered : Entered) : Prop :=
  ∃ origin, s.Origin ops origin entered.function ∧ frame.context = entered.function.name ∧
    frame.lineText = origin.lineText frame.line

/-- **Tracebacks show the lines that the code was read from.** The first frame of
an error at run time shows a line of the text that was run, and each of the
others, one for each call that was under way, a line of the text that the called
function was declared in. -/
theorem traceback_provenance (name : String) (settings : Settings) (accepts : Request → Bool)
    (ops : List Session.Operation) :
    let s := Session.start name settings accepts
    ∀ op e fault, (s.performAll ops).failure? op = some e → e.cause = .runtime fault →
      ∃ script b first rest, op.text? = some script.text ∧ script.name = name ∧
        s.Visits ops op script b ∧ b.Raises e ∧ e.frames = first :: rest ∧
        first.context = moduleName ∧ first.lineText = script.lineText first.line ∧
        List.Forall₂ (s.Shows (ops ++ [op])) rest b.live.reverse := by
  intro s op e fault hf he
  obtain ⟨script, b, ht, hname, ⟨root, hr, hb⟩, hraises⟩ := Session.exists_raises hf he
  have hs : b.Sound script settings.maxCallDepth := hb.sound hr.sound
  have hknown : ∀ f ∈ root.machine.heap.functions, s.Known (ops ++ [op]) f := hr.known rfl rfl
  have hshows : ∀ entered ∈ b.live, ∀ p, s.Shows (ops ++ [op])
      (.at entered.function.source entered.function.name p) entered := by
    intro entered hlive p
    obtain ⟨origin, hd⟩ := hr.exists_declared rfl hknown hb hraises entered hlive
    refine ⟨origin, hd.hasOrigin, rfl, ?_⟩
    rw [← hd.source_eq]
    rfl
  obtain ⟨inner, q, hio, hinner⟩ := Entered.forall₂_frames script hshows e.span.start
  refine ⟨script, b, .at script moduleName q, inner.reverse, ht, hname, ⟨root, hr, hb⟩, hraises,
    ?_, rfl, rfl, List.forall₂_reverse_iff.2 hinner⟩
  rw [hs.frames_of_raises hraises, hio, List.reverse_append]
  rfl

/-- A function that was declared by another one in a second entry fails in a
third: its frame shows its line in the first, where both were read. -/
theorem traceback_provenance_threeEntries :
    let s := Session.start "<stdin>" {} fun _ => true
    let ops := [
      .eval "outer() \x7b\n  inner() \x7b\n    return 1 / 0\n  \x7d\n  return inner\n\x7d",
      .eval "g := outer()"]
    ∃ e, (s.performAll ops).failure? (.eval "g()") = some e ∧
      e.cause = .runtime .divisionByZero ∧
      e.frames.map Frame.lineText = ["g()", "return 1 / 0"] ∧
      ∃ (script : Source) (first : Frame) (rest : List Frame) (live : List Entered),
        script.text = "g()" ∧ e.frames = first :: rest ∧
        first.lineText = script.lineText first.line ∧
        List.Forall₂ (s.Shows (ops ++ [.eval "g()"])) rest live := by
  intro s ops
  have hb : ((s.performAll ops).failure? (.eval "g()")).any (fun e =>
      e.cause == .runtime .divisionByZero &&
        e.frames.map Frame.lineText == ["g()", "return 1 / 0"]) = true := by decide +kernel
  obtain ⟨e, hf, he⟩ := (Option.any_eq_true _ _).1 hb
  obtain ⟨he, hlines⟩ := Bool.and_eq_true_iff.1 he
  have he : e.cause = .runtime .divisionByZero := eq_of_beq he
  obtain ⟨script, b, first, rest, ht, -, -, -, hframes, -, hfirst, hrest⟩ :=
    traceback_provenance "<stdin>" {} (fun _ => true) ops (.eval "g()") e _ hf he
  have hscript : script.text = "g()" := (Option.some.inj ht).symm
  exact ⟨e, hf, he, eq_of_beq hlines, script, first, rest, b.live.reverse, hscript, hframes,
    hfirst, hrest⟩

end HotkeyScript
