import HotkeyScript.Proofs.Plan.Level
import HotkeyScript.Proofs.Program.Likeness
/-!
# The machine — alike but for the scripts it runs

Two machines are alike along an alignment when they hold the same but for the
scripts: bodies of functions are alike, sources have the same name and the same
lines, and calls were entered on the same lines. Of a script a running program
sees no more than that, so whatever it looks up it finds the same, and its
tracebacks have the same frames.
-/

namespace HotkeyScript

/-- Sources with one name and the same lines. -/
structure Source.Like (s t : Source) : Prop where
  name : t.name = s.name
  lineText : t.lineText = s.lineText

theorem Source.Like.refl (s : Source) : s.Like s := ⟨rfl, rfl⟩

/-- The same error, reported with the same traceback. -/
structure Error.Like (e f : Error) : Prop where
  cause : f.cause = e.cause
  frames : f.frames = e.frames

/-- A report is made of the cause and the frames; the span is not in it. -/
theorem Error.Like.report {e f : Error} (h : e.Like f) : f.report = e.report := by
  rw [Error.report, Error.report, h.cause, h.frames]

/-- Positions on one line have one frame. -/
theorem Frame.at_like {s t : Source} (h : s.Like t) (context : String) {p q : Position}
    (hl : q.line = p.line) : Frame.at t context q = Frame.at s context p := by
  rw [Frame.at, Frame.at, h.name, h.lineText, hl]

/-! ## Scopes and calls -/

/-- Scopes of one name with the same names in them. -/
structure Scope.Like (s t : Scope) : Prop where
  name : t.name = s.name
  source : s.source.Like t.source
  symbols : t.symbols = s.symbols

/-- The same call, entered on the same line. -/
structure Call.Like (c d : Call) : Prop where
  scope : c.scope.Like d.scope
  number : d.number = c.number
  caller : d.caller = c.caller
  entry : d.entry.line = c.entry.line

/-- The same calls over the same module. -/
structure CallStack.Like (s t : CallStack) : Prop where
  module : s.module.Like t.module
  calls : List.Forall₂ Call.Like s.calls t.calls

namespace CallStack

variable {s t : CallStack} {cs ds : List Call}

theorem Like.depth (h : s.Like t) : t.depth = s.depth := h.calls.length_eq.symm

/-- The same scope is the innermost. -/
theorem Like.current (h : s.Like t) : t.current = s.current := by
  have hcs := h.calls
  unfold CallStack.current
  generalize s.calls = cs, t.calls = ds at hcs
  cases hcs with
  | nil => rfl
  | cons hc _ => exact hc.number

/-- A number is that of two calls that are alike, or of none. -/
theorem find?_like (h : List.Forall₂ Call.Like cs ds) (id : Nat) :
    Option.Rel Call.Like (cs.find? fun c => c.number == id) (ds.find? fun c => c.number == id) := by
  induction h with
  | nil => exact .none
  | cons hc _ ih =>
    rw [List.find?_cons, List.find?_cons, hc.number]
    split
    · exact .some hc
    · exact ih

/-- A number leads to scopes that are alike: where no call has it, to the modules. -/
theorem Like.scope (h : s.Like t) (id : Nat) : (s.scope id).Like (t.scope id) := by
  unfold CallStack.scope call?
  generalize s.calls.find? _ = o, t.calls.find? _ = o', find?_like h.calls id = ho
  cases ho with
  | none => exact h.module
  | some hc => exact hc.scope

/-- A name is looked for in the same calls, and what it stands for is in the tables. -/
theorem lookupIn_like (h : List.Forall₂ Call.Like cs ds) (name : String) (id : Nat) :
    lookupIn name id ds = lookupIn name id cs := by
  induction h generalizing id with
  | nil => rfl
  | cons hc _ ih => rw [lookupIn, lookupIn, hc.number, hc.scope.symbols, hc.caller, ih, ih]

theorem Like.lookup (h : s.Like t) (id : Nat) (name : String) :
    t.lookup id name = s.lookup id name := by
  rw [CallStack.lookup, CallStack.lookup, lookupIn_like h.calls, h.module.symbols]

/-- A frame shows the name of a script, one of its lines and the name of a scope, and the
next one is on the line where the call was entered. -/
theorem framesIn_like (h : List.Forall₂ Call.Like cs ds) {m n : Scope} (hm : m.Like n) (id : Nat)
    {p q : Position} (hl : q.line = p.line) : framesIn n id q ds = framesIn m id p cs := by
  induction h generalizing id p q with
  | nil => rw [framesIn, framesIn, hm.name, Frame.at_like hm.source _ hl]
  | cons hc _ ih =>
    rw [framesIn, framesIn, hc.number, hc.scope.name, hc.caller, ih id hl, ih _ hc.entry,
      Frame.at_like hc.scope.source _ hl]

/-- **Tracebacks are the same** from positions on one line. -/
theorem Like.frames (h : s.Like t) (id : Nat) {p q : Position} (hl : q.line = p.line) :
    t.frames id q = s.frames id p := by
  rw [CallStack.frames, CallStack.frames, framesIn_like h.calls h.module id hl]

/-! ### What is written -/

theorem Like.setInModule (h : s.Like t) (name : String) (v : Value) (isGlobal : Bool) :
    (s.setInModule name v isGlobal).Like (t.setInModule name v isGlobal) := by
  refine ⟨⟨h.module.name, h.module.source, ?_⟩, h.calls⟩
  simp only [CallStack.setInModule, h.module.symbols]

/-- What is written into the call of a number is written into calls that are alike. -/
theorem setIn_like (h : List.Forall₂ Call.Like cs ds) (id : Nat) (name : String) (v : Value)
    (isGlobal : Bool) :
    List.Forall₂ Call.Like (setIn id name v isGlobal cs) (setIn id name v isGlobal ds) := by
  induction h with
  | nil => exact .nil
  | cons hc hcs ih =>
    rw [setIn, setIn, hc.number]
    split
    · refine .cons ⟨⟨hc.scope.name, hc.scope.source, ?_⟩, rfl, hc.caller, hc.entry⟩ hcs
      simp only [hc.scope.symbols]
    · exact .cons hc ih

theorem Like.setAt (h : s.Like t) (id : Nat) (name : String) (v : Value) (isGlobal : Bool) :
    (s.setAt id name v isGlobal).Like (t.setAt id name v isGlobal) := by
  unfold CallStack.setAt
  split
  · exact h.setInModule name v isGlobal
  · exact ⟨h.module, setIn_like h.calls id name v isGlobal⟩

/-- Where an assignment goes depends on what the tables hold, which is the same. -/
theorem Like.assign (h : s.Like t) (id : Nat) (name : String) (v : Value) (declared : Bool) :
    (s.assign id name v declared).Like (t.assign id name v declared) := by
  rw [CallStack.assign, CallStack.assign, writesModule, writesModule, (h.scope id).symbols,
    h.module.symbols]
  split
  · exact h.setInModule name v true
  · exact h.setAt id name v declared

/-- Calls are numbered by how many there are, so the one that is entered has the same
number. -/
theorem Like.push (h : s.Like t) (name : String) (caller : Nat) {p q : Position}
    (hl : q.line = p.line) {a b : Source} (hs : a.Like b) :
    (s.push name caller p a).Like (t.push name caller q b) :=
  ⟨h.module, .cons ⟨⟨rfl, hs, rfl⟩, congrArg (· + 1) h.depth, rfl, hl⟩ h.calls⟩

/-- Arguments are bound in the innermost scope, one after another. -/
theorem Like.bindAll (h : s.Like t) (args : List (String × Value)) :
    CallStack.Like (args.foldl (fun s a => s.bind s.current a.1 a.2) s)
      (args.foldl (fun s a => s.bind s.current a.1 a.2) t) := by
  induction args generalizing s t with
  | nil => exact h
  | cons a args ih =>
    rw [List.foldl_cons, List.foldl_cons, h.current]
    exact ih (h.setAt s.current a.1 a.2 false)

end CallStack

/-! ## Objects -/

/-- **Heaps in which every value looks the same**: their functions may differ in
bodies and scripts. -/
structure Heap.LooksLike (h k : Heap) : Prop where
  arrays : k.arrays = h.arrays
  tables : k.tables = h.tables
  name : ∀ id, (k.function id).name = (h.function id).name
  params : ∀ id, (k.function id).params = (h.function id).params

namespace Heap.LooksLike

variable {h k : Heap}

theorem items (hl : h.LooksLike k) (id : ArrayId) : k.items id = h.items id := by
  rw [Heap.items, Heap.items, hl.arrays]

theorem entries (hl : h.LooksLike k) (id : TableId) : k.entries id = h.entries id := by
  rw [Heap.entries, Heap.entries, hl.tables]

/-- How a value unfolds depends on the objects in it, and of functions on the names and
parameters. -/
theorem unfoldIn (hl : h.LooksLike k) (enclosing : List Container) (v : Value) :
    k.unfoldIn enclosing v = h.unfoldIn enclosing v := by
  fun_induction h.unfoldIn enclosing v with
  | case1 | case2 | case3 => rw [Heap.unfoldIn]
  | case4 enclosing id => rw [Heap.unfoldIn, hl.name, hl.params]
  | case5 enclosing id ho => rw [Heap.unfoldIn, dif_pos ho]
  | case6 enclosing id hn hi =>
    rw [Heap.unfoldIn_array hn, hl.items, Heap.items, hi]
    rfl
  | case7 enclosing id hn items hi ih =>
    rw [Heap.unfoldIn_array hn, hl.items, Heap.items, hi]
    exact congrArg _ (List.map_congr_left fun v _ => ih v)
  | case8 enclosing id ho => rw [Heap.unfoldIn, dif_pos ho]
  | case9 enclosing id hn hi =>
    rw [Heap.unfoldIn_table hn, hl.entries, Heap.entries, hi]
    rfl
  | case10 enclosing id hn map hi ih =>
    rw [Heap.unfoldIn_table hn, hl.entries, Heap.entries, hi]
    exact congrArg _ (List.map_congr_left fun e _ => congrArg (e.1, ·) (ih e))

theorem display (hl : h.LooksLike k) (v : Value) : k.display v = h.display v := by
  rw [Heap.display, Heap.display, Heap.unfold, Heap.unfold, hl.unfoldIn]

theorem isTruthy (hl : h.LooksLike k) (v : Value) : k.isTruthy v = h.isTruthy v := by
  cases v with
  | array id => rw [Heap.isTruthy, Heap.isTruthy, hl.items]
  | table id => rw [Heap.isTruthy, Heap.isTruthy, hl.entries]
  | number | text | boolean | function => rfl

/-- What stands under a key is found by the items and entries; only the failure shows the
value. -/
theorem get (hl : h.LooksLike k) (object key : Value) : k.get object key = h.get object key := by
  cases object with
  | array id => simp only [Heap.get, hl.items]
  | table id => simp only [Heap.get, hl.entries]
  | number | text | boolean | function => simp only [Heap.get, hl.display]

end Heap.LooksLike

/-- Of a heap operators ask no more than whether a value counts as true. -/
theorem BinaryOp.apply_congr {h k : Heap} (hl : h.LooksLike k) (op : BinaryOp) (a b : Value) :
    op.apply a b k = op.apply a b h := by
  cases op with
  | arith | concat => rfl
  | and => rw [apply, apply, Heap.both, Heap.both, hl.isTruthy, hl.isTruthy]
  | or => rw [apply, apply, Heap.either, Heap.either, hl.isTruthy, hl.isTruthy]

theorem UnaryOp.apply_congr {h k : Heap} (hl : h.LooksLike k) (op : UnaryOp) (v : Value) :
    op.apply v k = op.apply v h := by
  cases op with
  | sign => rfl
  | not => rw [apply, apply, Heap.negation, Heap.negation, hl.isTruthy]

variable (A : Alignment)

/-- Functions with one name and the same parameters, whose bodies are alike. -/
structure Function.Like (f g : Function) : Prop where
  name : g.name = f.name
  params : g.params = f.params
  body : List.Forall₂ (Stmt.Like A) f.body.statements g.body.statements
  source : f.source.Like g.source

structure Heap.Like (h k : Heap) : Prop where
  arrays : k.arrays = h.arrays
  tables : k.tables = h.tables
  functions : List.Forall₂ (Function.Like A) h.functions.toList k.functions.toList

variable {A}

namespace Heap.Like

variable {h k : Heap}

/-- A handle refers to functions that are alike, if only to none. -/
theorem function (hl : h.Like A k) (id : FunctionId) : (h.function id).Like A (k.function id) := by
  unfold Heap.function
  rw [← Array.getElem?_toList, ← Array.getElem?_toList]
  have hi := rel_getElem? hl.functions id.index
  generalize h.functions.toList[id.index]? = o, k.functions.toList[id.index]? = o' at hi
  cases hi with
  -- a handle to nothing gives the default function in both
  | none => exact ⟨rfl, rfl, .nil, .refl _⟩
  | some hf => exact hf

/-- The bodies, which may differ, are not what a value is shown by. -/
theorem looksLike (hl : h.Like A k) : h.LooksLike k :=
  ⟨hl.arrays, hl.tables, fun id => (hl.function id).name, fun id => (hl.function id).params⟩

theorem setItems (hl : h.Like A k) (id : ArrayId) (items : Array Value) :
    (h.setItems id items).Like A (k.setItems id items) :=
  ⟨by rw [Heap.setItems, Heap.setItems, hl.arrays], hl.tables, hl.functions⟩

theorem setEntries (hl : h.Like A k) (id : TableId) (entries : OrderedMap TableKey Value) :
    (h.setEntries id entries).Like A (k.setEntries id entries) :=
  ⟨hl.arrays, by rw [Heap.setEntries, Heap.setEntries, hl.tables], hl.functions⟩

/-- Storing a value fails alike, or leaves heaps that are alike. -/
theorem set (hl : h.Like A k) (object key value : Value) :
    Alike Eq (Heap.Like A) (h.set object key value) (k.set object key value) := by
  cases object with
  | array id =>
    simp only [Heap.set, hl.looksLike.items]
    cases Heap.slot (h.items id).size key with
    | error fault => exact .error rfl
    | ok i => exact .ok (hl.setItems id _)
  | table id =>
    simp only [Heap.set, hl.looksLike.entries]
    cases Heap.tableKey key with
    | error fault => exact .error rfl
    | ok i => exact .ok (hl.setEntries id _)
  | number | text | boolean | function =>
    simp only [Heap.set, hl.looksLike.display]
    exact .error rfl

/-- An object that is made has one handle in both. -/
theorem newArray (hl : h.Like A k) (items : Array Value) :
    (k.newArray items).1 = (h.newArray items).1 ∧
      (h.newArray items).2.Like A (k.newArray items).2 := by
  simp only [Heap.newArray, hl.arrays]
  exact ⟨trivial, rfl, hl.tables, hl.functions⟩

theorem newTable (hl : h.Like A k) (entries : OrderedMap TableKey Value) :
    (k.newTable entries).1 = (h.newTable entries).1 ∧
      (h.newTable entries).2.Like A (k.newTable entries).2 := by
  simp only [Heap.newTable, hl.tables]
  exact ⟨trivial, hl.arrays, rfl, hl.functions⟩

/-- A function that is made is the next of as many. -/
theorem newFunction {f g : Function} (hl : h.Like A k) (hf : f.Like A g) :
    (k.newFunction g).1 = (h.newFunction f).1 ∧
      (h.newFunction f).2.Like A (k.newFunction g).2 := by
  -- the new handle is how many functions there are
  have hs : k.functions.size = h.functions.size := hl.functions.length_eq.symm
  refine ⟨congrArg (fun i => Value.function ⟨i⟩) hs, hl.arrays, hl.tables, ?_⟩
  simp only [Heap.newFunction, Array.toList_push]
  exact List.rel_append hl.functions (.cons hf .nil)

end Heap.Like

/-! ## Machines -/

variable (A)

/-- **Machines that differ in their scripts only.** -/
structure Machine.Like (m n : Machine) : Prop where
  settings : n.settings = m.settings
  accepts : n.accepts = m.accepts
  stack : m.stack.Like n.stack
  heap : m.heap.Like A n.heap
  echoes : n.echoes = m.echoes
  shown : n.shown = m.shown
  journal : n.journal = m.journal

/-- Results in a relation, or the same error, on machines that are alike. -/
inductive Result.Like {α β : Type} (V : α → β → Prop) : Result α → Result β → Prop where
  | ok {a : α} {b : β} {m n : Machine} : V a b → m.Like A n → Like V (.ok a m) (.ok b n)
  | error {e f : Error} {m n : Machine} : e.Like f → m.Like A n → Like V (.error e m) (.error f n)

/-- Two steps that come to the same on machines that are alike. -/
def Run.Agree {α β : Type} (V : α → β → Prop) (x : Run α) (y : Run β) : Prop :=
  ∀ m n, m.Like A n → Result.Like A V (x m) (y n)

variable {A}

namespace Machine.Like

variable {m n : Machine}

/-- To leave a call is to say its name in the journal. -/
theorem left (h : m.Like A n) : m.left.Like A n.left := by
  have hcs := h.stack.calls
  unfold Machine.left
  rw [CallStack.pop, CallStack.pop]
  generalize m.stack.calls = cs, n.stack.calls = ds at hcs
  cases hcs with
  | nil => exact h
  | cons hc hcs =>
    exact ⟨h.settings, h.accepts, ⟨h.stack.module, hcs⟩, h.heap, h.echoes, h.shown,
      by simp only [h.journal, hc.scope.name]⟩

/-- Just as many calls are left. -/
theorem unwind (h : m.Like A n) : m.unwind.Like A n.unwind := by
  rw [Machine.unwind, Machine.unwind, h.stack.depth]
  exact unwindBy_rel (R := Machine.Like A) (fun _ _ h => h.left) m.stack.depth h

theorem callsLeft (h : m.Like A n) : n.callsLeft = m.callsLeft := by
  rw [Machine.callsLeft, Machine.callsLeft, h.settings, h.stack.depth]

theorem withoutEchoes (h : m.Like A n) :
    Machine.Like A { m with echoes := #[] } { n with echoes := #[] } :=
  ⟨h.settings, h.accepts, h.stack, h.heap, rfl, h.shown, h.journal⟩

end Machine.Like

end HotkeyScript
