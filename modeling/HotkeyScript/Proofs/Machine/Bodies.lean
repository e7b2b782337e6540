import HotkeyScript.Proofs.Machine.Likeness
/-!
# The machine — with the bodies of its functions changed

Of a function a running program sees the name and the parameters. Its body is
run when it is called and seen in no other way, so whatever is done to the bodies
of all functions, a step that calls nothing does the same and commutes with it
(`Run.Mirrors`). Expressions do so where calls do (`Expr.mirrors_eval`).
-/

namespace HotkeyScript

open Machine

/-- A change of bodies, which leaves the body that nothing is in as it is. -/
structure BodyChange where
  map : Block → Block
  map_default : map default = default

/-! ## Changing bodies -/

section

variable (C : BodyChange)

/-- A function with its body changed. -/
def Function.mapBody (f : Function) : Function := { f with body := C.map f.body }

/-- A heap with the bodies of its functions changed. -/
def Heap.mapBodies (h : Heap) : Heap := { h with functions := h.functions.map (Function.mapBody C) }

/-- A machine with the bodies of its functions changed. -/
def Machine.mapBodies (m : Machine) : Machine := { m with heap := m.heap.mapBodies C }

/-- A result with the bodies on its machine changed. -/
def Result.mapBodies {α : Type} : Result α → Result α
  | .ok a m => .ok a (m.mapBodies C)
  | .error e m => .error e (m.mapBodies C)

/-- **One step mirrors another**: on a machine with the bodies changed it comes to
what the other comes to, with the bodies changed then. -/
def Run.Mirrors {α : Type} (x y : Run α) : Prop :=
  ∀ m, y (m.mapBodies C) = Result.mapBodies C (x m)

end

variable {C : BodyChange}

namespace Run.Mirrors

variable {α β : Type}

theorem pure (a : α) : Run.Mirrors C (pure a) (pure a) := fun _ => rfl

/-- Where the first parts mirror each other, the second start from one value and from
machines of which one has the bodies changed. -/
theorem bind {x y : Run β} {k l : β → Run α} (h : Run.Mirrors C x y)
    (hk : ∀ b, Run.Mirrors C (k b) (l b)) : Run.Mirrors C (x >>= k) (y >>= l) := by
  intro m
  have hm := h m
  cases hx : x m with
  | ok b m' =>
    rw [hx] at hm
    rw [Run.bind_of_ok hx, Run.bind_of_ok hm]
    exact hk b m'
  | error e m' =>
    rw [hx] at hm
    rw [Run.bind_of_error hx, Run.bind_of_error hm]
    rfl

end Run.Mirrors

/-! ## What is seen of functions -/

namespace Heap

/-- A handle refers to the function with its body changed; one to nothing refers to
the function without a body. -/
theorem function_mapBodies (C : BodyChange) (h : Heap) (id : FunctionId) :
    (h.mapBodies C).function id = (h.function id).mapBody C := by
  simp only [function, mapBodies, Array.getElem?_map]
  cases h.functions[id.index]? with
  | none =>
    change (default : Function) = { (default : Function) with body := C.map default }
    rw [C.map_default]
    rfl
  | some f => rfl

/-- The names and parameters of functions are not changed. -/
theorem looksLike_mapBodies (C : BodyChange) (h : Heap) : h.LooksLike (h.mapBodies C) := by
  refine ⟨rfl, rfl, fun id => ?_, fun id => ?_⟩
  · rw [function_mapBodies, Function.mapBody]
  · rw [function_mapBodies, Function.mapBody]

/-- To store a value touches arrays and tables and no function. -/
theorem set_mapBodies (C : BodyChange) (h : Heap) (object key value : Value) :
    (h.mapBodies C).set object key value = (h.set object key value).map (mapBodies C) := by
  have hl := looksLike_mapBodies C h
  cases object with
  | array id =>
    simp only [set, hl.items]
    cases slot (h.items id).size key <;> rfl
  | table id =>
    simp only [set, hl.entries]
    cases tableKey key <;> rfl
  | number | text | boolean | function =>
    simp only [set, hl.display]
    rfl

end Heap

/-! ## Steps of the machine -/

namespace Machine

/-- To leave a call does not touch the heap. -/
theorem left_mapBodies (m : Machine) : (m.mapBodies C).left = m.left.mapBodies C := by
  obtain ⟨settings, accepts, ⟨module, calls⟩, heap, echoes, shown, journal⟩ := m
  cases calls <;> rfl

theorem unwind_mapBodies (m : Machine) : (m.mapBodies C).unwind = m.unwind.mapBodies C :=
  unwind_comm (f := mapBodies C) left_mapBodies rfl

variable {α : Type}

/-- A failure is made of a span and the stack. -/
theorem mirrors_fail (fault : Fault) (span : Span) :
    Run.Mirrors C (fail fault span : Run α) (fail fault span) := fun _ => rfl

/-- An answer that is given does not depend on the machine, and a failure not on the heap. -/
theorem mirrors_orFail (span : Span) (answer : Except Fault α) :
    Run.Mirrors C (orFail span answer) (orFail span answer) := by
  cases answer with
  | ok a => exact .pure a
  | error fault => exact mirrors_fail fault span

/-- What does not depend on bodies is read alike. -/
theorem mirrors_read {view : Machine → α} (h : ∀ m, view (m.mapBodies C) = view m) :
    Run.Mirrors C (fun m => .ok (view m) m) (fun m => .ok (view m) m) :=
  fun m => congrArg (fun a => EStateM.Result.ok a (m.mapBodies C)) (h m)

/-- A function is displayed by its name and its parameters. -/
theorem mirrors_display (v : Value) : Run.Mirrors C (display v) (display v) :=
  mirrors_read fun m => (m.heap.looksLike_mapBodies C).display v

theorem mirrors_isTrue (v : Value) : Run.Mirrors C (isTrue v) (isTrue v) :=
  mirrors_read fun m => (m.heap.looksLike_mapBodies C).isTruthy v

/-- A question that is answered by what values look like has the same answer. -/
theorem mirrors_ask {question : Heap → Except Fault α} (span : Span)
    (hq : ∀ h k, h.LooksLike k → question k = question h) :
    Run.Mirrors C (ask span question) (ask span question) := by
  intro m
  simp only [ask, mapBodies, hq _ _ (m.heap.looksLike_mapBodies C)]
  exact mirrors_orFail span (question m.heap) m

theorem mirrors_lookup (name : String) (span : Span) :
    Run.Mirrors C (lookup name span) (lookup name span) := by
  refine .bind (mirrors_read fun _ => rfl) fun v => ?_
  cases v with
  | some v => exact .pure v
  | none => exact mirrors_fail _ _

/-- A name stands for the function with its body changed. -/
theorem mirrors_functionOf (callee : Identifier) {k l : Function → Run α}
    (hk : ∀ f, Run.Mirrors C (k f) (l (f.mapBody C))) :
    Run.Mirrors C (functionOf callee >>= k) (functionOf callee >>= l) := by
  rw [functionOf, bind_assoc, bind_assoc]
  refine .bind (mirrors_lookup _ _) fun v => ?_
  cases v with
  | function id =>
    intro m
    have hf : l ((m.mapBodies C).heap.function id) = l ((m.heap.function id).mapBody C) :=
      congrArg l (m.heap.function_mapBodies C id)
    exact (congrFun hf _).trans (hk _ m)
  | number | text | boolean | array | table =>
    exact fun _ => rfl

/-- A value is stored in a heap with other bodies just as in this one. -/
theorem mirrors_store (object key value : Value) (span : Span) :
    Run.Mirrors C (store object key value span) (store object key value span) := by
  intro m
  simp only [store, mapBodies, Heap.set_mapBodies]
  cases m.heap.set object key value <;> rfl

theorem mirrors_assign (name : String) (v : Value) (isGlobal : Bool) :
    Run.Mirrors C (assign name v isGlobal) (assign name v isGlobal) := fun _ => rfl

/-- A function is declared with its body changed. -/
theorem mirrors_declare (name : String) (params : List String) (body : Block) :
    Run.Mirrors C (declare name params body) (declare name params (C.map body)) := by
  intro m
  simp [declare, Heap.newFunction, mapBodies, Heap.mapBodies, Result.mapBodies, Function.mapBody]

/-- Whether a message is echoed is a setting. -/
theorem mirrors_did (message : String) : Run.Mirrors C (did message) (did message) := by
  refine .bind (fun m => ?_) fun _ => .pure _
  rw [echo, echo]
  change EStateM.Result.ok () (if m.settings.debug then _ else _) = _
  split <;> rfl

/-- The body is not looked at when its call is entered. -/
theorem mirrors_enter (f : Function) (args : List Value) (entry : Position) :
    Run.Mirrors C (enter f args entry) (enter (f.mapBody C) args entry) := fun _ => rfl

theorem mirrors_leave : Run.Mirrors C leave leave :=
  fun m => congrArg (EStateM.Result.ok ()) m.left_mapBodies

end Machine

/-! ## Expressions -/

/-- What fills a text is looked up and displayed. -/
theorem mirrors_fill (span : Span) (parts : List Text.Part) :
    Run.Mirrors C (fill span parts) (fill span parts) := by
  induction parts with
  | nil => exact .pure []
  | cons part parts ih =>
    cases part with
    | char c => exact .bind ih fun _ => .pure _
    | reference name =>
      refine .bind (mirrors_lookup _ _) fun v => .bind (mirrors_display v) fun _ => ?_
      exact .bind ih fun _ => .pure _

theorem mirrors_putEntry (entries : OrderedMap TableKey Value) (key value : Value) (span : Span) :
    Run.Mirrors C (putEntry entries key value span) (putEntry entries key value span) :=
  .bind (mirrors_orFail _ _) fun _ => .pure _

/-- One way to call mirrors another. -/
def Caller.Mirrors (C : BodyChange) (call call' : Caller) : Prop :=
  ∀ f args site, Run.Mirrors C (call f args site) (call' (f.mapBody C) args site)

section

set_option linter.unusedSectionVars false

variable {call call' : Caller} (hc : Caller.Mirrors C call call')
include hc

mutual

/-- **Expressions mirror themselves** where calls do. -/
theorem Expr.mirrors_eval : ∀ e : Expr, Run.Mirrors C (e.eval call) (e.eval call')
  | .number _ | .text _ false _ | .boolean _ _ => .pure _
  | .text value true span => .bind (.bind (mirrors_fill span _) fun _ => .pure _) fun _ => .pure _
  | .array es _ => .bind (Expr.mirrors_evalAll es) fun _ _ => rfl
  | .table es _ => .bind (Expr.mirrors_evalEntries .empty es) fun _ _ => rfl
  | .name _ => mirrors_lookup _ _
  | .access e k _ => by
    refine .bind e.mirrors_eval fun o => .bind k.mirrors_eval fun v => ?_
    exact mirrors_ask _ fun h k hl => hl.get o v
  | .binary op e e' _ => by
    refine .bind e.mirrors_eval fun a => .bind e'.mirrors_eval fun b => ?_
    exact mirrors_ask _ fun h k hl => op.apply_congr hl a b
  | .unary op e _ =>
    .bind e.mirrors_eval fun v => mirrors_ask _ fun h k hl => op.apply_congr hl v
  | .choice c e e' _ => by
    refine .bind c.mirrors_eval fun v => .bind (mirrors_isTrue v) fun b => ?_
    cases b with
    | true => exact e.mirrors_eval
    | false => exact e'.mirrors_eval
  | .call callee es site => by
    refine mirrors_functionOf callee fun f => ?_
    rw [Function.mapBody]
    split
    · exact .bind (Expr.mirrors_evalAll es) fun values => hc f values site
    · exact mirrors_fail _ _

theorem Key.mirrors_eval : ∀ k : Key, Run.Mirrors C (k.eval call) (k.eval call')
  | .member _ => .pure _
  | .index e => e.mirrors_eval

/-- Expressions of a row are evaluated from the left. -/
theorem Expr.mirrors_evalAll :
    ∀ es : List Expr, Run.Mirrors C (Expr.evalAll call es) (Expr.evalAll call' es)
  | [] => .pure _
  | e :: es => .bind e.mirrors_eval fun _ => .bind (Expr.mirrors_evalAll es) fun _ => .pure _

/-- Of an entry the key is evaluated first. -/
theorem Expr.mirrors_evalEntries : ∀ (map : OrderedMap TableKey Value) (es : List (Expr × Expr)),
    Run.Mirrors C (Expr.evalEntries call map es) (Expr.evalEntries call' map es)
  | _, [] => .pure _
  | map, (k, e) :: es => by
    refine .bind k.mirrors_eval fun key => .bind e.mirrors_eval fun v => ?_
    exact .bind (mirrors_putEntry map key v _) fun map => Expr.mirrors_evalEntries map es

end

/-! ## Parts of statements -/

omit hc in
/-- Parameters are read off the program and not off the machine. -/
theorem mirrors_paramNames (ps : List Expr) : Run.Mirrors C (paramNames ps) (paramNames ps) := by
  induction ps with
  | nil => exact .pure []
  | cons p ps ih =>
    cases p with
    | name identifier => exact .bind ih fun _ => .pure _
    | _ => exact mirrors_fail _ _

/-- A part of a box is displayed, and bodies are not. -/
theorem mirrors_shownOr {default : Run String} (hd : Run.Mirrors C default default)
    (e : Option Expr) : Run.Mirrors C (shownOr call default e) (shownOr call' default e) := by
  cases e with
  | none => exact hd
  | some e => exact .bind (e.mirrors_eval hc) fun v => mirrors_display v

/-- The default title, the longest time and the debug mode are not kept in the heap, so a
box comes to the same request. -/
theorem BoxArguments.mirrors_run (args : BoxArguments) (span : Span) :
    Run.Mirrors C (args.run call span) (args.run call' span) := by
  refine .bind (mirrors_shownOr hc (mirrors_read fun _ => rfl) _) fun title => ?_
  refine .bind (mirrors_shownOr hc (.pure _) _) fun text => ?_
  refine .bind (mirrors_read fun _ => rfl) fun timeout => ?_
  refine .bind (mirrors_read fun _ => rfl) fun debug => ?_
  cases debug with
  | true => exact mirrors_did _
  | false =>
    refine .bind (fun _ => rfl) fun shown => ?_
    cases shown with
    | true => exact .pure _
    | false => exact mirrors_fail _ _

end

end HotkeyScript
