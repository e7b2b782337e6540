import HotkeyScript.Proofs.Plan.Basic
/-!
# Machines — objects read and written by programs

A script reads an object in one form of expression and writes one in one form of
statement. Both evaluate their parts first, from the left, and then ask the heap: the
four relations of this module each pair what the heap answers for an object and a key
with what it does to every script that comes to ask. A question that fails leaves the
machine as evaluating the parts left it.

What a write makes of a heap is said once, by `Heap.set_cases`: one array or one table is
another, and all others are as they were.
-/

namespace HotkeyScript

namespace Heap

/-- **A key of an object has a value**: every expression that reads it comes to that
value, on the machine that its parts left. -/
structure Reads (h : Heap) (object key v : Value) : Prop where
  get : h.get object key = .ok v
  access : ∀ {call : Caller} {o : Expr} {k : Key} {span : Span} {m m₁ m₂ : Machine},
    o.eval call m = .ok object m₁ → k.eval call m₁ = .ok key m₂ → m₂.heap = h →
      (Expr.access o k span).eval call m = .ok v m₂

/-- **A key of an object cannot be read**: every expression that reads it fails at the
key, and changes nothing. -/
structure Unreadable (h : Heap) (object key : Value) (fault : Fault) : Prop where
  get : h.get object key = .error fault
  access : ∀ {call : Caller} {o : Expr} {k : Key} {span : Span} {m m₁ m₂ : Machine},
    o.eval call m = .ok object m₁ → k.eval call m₁ = .ok key m₂ → m₂.heap = h →
      (Expr.access o k span).eval call m =
        .error ⟨.runtime fault, k.span, m₂.stack.frames m₂.stack.current k.span.start⟩ m₂

/-- **A key of an object takes a value**, which makes another heap of this one: every
statement that writes it leaves that heap, and the names and calls as they were. -/
structure Writes (h : Heap) (object key v : Value) (h' : Heap) : Prop where
  set : h.set object key v = .ok h'
  store : ∀ {call : Caller} {o e : Expr} {k : Key} {span : Span} {m m₁ m₂ m₃ : Machine},
    o.eval call m = .ok object m₁ → k.eval call m₁ = .ok key m₂ → e.eval call m₂ = .ok v m₃ →
      m₃.heap = h → ∃ outcome n, (Stmt.store o k e span).run call m = .ok (.next outcome) n ∧
        n.heap = h' ∧ n.stack = m₃.stack

/-- **A key of an object cannot be written**: every statement that writes it fails at
the key, and changes nothing. -/
structure Unwritable (h : Heap) (object key : Value) (fault : Fault) : Prop where
  set : ∀ v, h.set object key v = .error fault
  store : ∀ {call : Caller} {o e : Expr} {k : Key} {v : Value} {span : Span}
    {m m₁ m₂ m₃ : Machine},
    o.eval call m = .ok object m₁ → k.eval call m₁ = .ok key m₂ → e.eval call m₂ = .ok v m₃ →
      m₃.heap = h → (Stmt.store o k e span).run call m =
        .error ⟨.runtime fault, k.span, m₃.stack.frames m₃.stack.current k.span.start⟩ m₃

end Heap

/-! ## What asks, and what comes of the answer -/

section

variable {call : Caller} {o e : Expr} {k : Key} {span : Span} {m m₁ m₂ m₃ : Machine}
  {object key v : Value}

/-- An expression that reads asks the heap that its parts left. -/
theorem Expr.eval_access (ho : o.eval call m = .ok object m₁) (hk : k.eval call m₁ = .ok key m₂) :
    (Expr.access o k span).eval call m =
      Machine.orFail k.span (m₂.heap.get object key) m₂ := by
  rw [Expr.eval, Run.bind_of_ok ho, Run.bind_of_ok hk]
  rfl

/-- A statement that writes shows the key and the value, writes, and tells of it. -/
theorem Stmt.run_store (ho : o.eval call m = .ok object m₁) (hk : k.eval call m₁ = .ok key m₂)
    (he : e.eval call m₂ = .ok v m₃) :
    (Stmt.store o k e span).run call m =
      (Machine.store object key v k.span >>= fun _ =>
        Machine.did ("Key '" ++ m₃.heap.display key ++ "' was assigned the value " ++
            m₃.heap.display v ++ ".") >>= fun outcome => pure (.next outcome)) m₃ := by
  rw [Stmt.run, Run.bind_of_ok ho, Run.bind_of_ok hk, Run.bind_of_ok he]
  rfl

/-- Telling of a message changes at most what was echoed. -/
theorem Machine.exists_did (message : String) (m : Machine) :
    ∃ echoes, Machine.did message m = .ok (.message message) { m with echoes } := by
  by_cases hd : m.settings.debug = true
  · have hecho : Machine.echo message m = .ok () { m with echoes := m.echoes.push message } := by
      rw [Machine.echo, if_pos hd]
    exact ⟨_, Run.bind_of_ok hecho⟩
  · have hecho : Machine.echo message m = .ok () m := by rw [Machine.echo, if_neg hd]
    exact ⟨m.echoes, Run.bind_of_ok hecho⟩

end

namespace Heap

variable {h h' : Heap} {object key v : Value} {fault : Fault}

theorem reads_of_get (hg : h.get object key = .ok v) : h.Reads object key v := by
  refine ⟨hg, ?_⟩
  rintro call o k span m m₁ m₂ ho hk rfl
  rw [Expr.eval_access ho hk, hg]
  rfl

theorem unreadable_of_get (hg : h.get object key = .error fault) :
    h.Unreadable object key fault := by
  refine ⟨hg, ?_⟩
  rintro call o k span m m₁ m₂ ho hk rfl
  rw [Expr.eval_access ho hk, hg]
  rfl

theorem writes_of_set (hs : h.set object key v = .ok h') : h.Writes object key v h' := by
  refine ⟨hs, ?_⟩
  rintro call o e k span m m₁ m₂ m₃ ho hk he rfl
  have hstore : Machine.store object key v k.span m₃ = .ok () { m₃ with heap := h' } := by
    rw [Machine.store, hs]
  rw [Stmt.run_store ho hk he, Run.bind_of_ok hstore]
  obtain ⟨echoes, hdid⟩ := Machine.exists_did ("Key '" ++ m₃.heap.display key ++
    "' was assigned the value " ++ m₃.heap.display v ++ ".") { m₃ with heap := h' }
  rw [Run.bind_of_ok hdid]
  exact ⟨_, _, rfl, rfl, rfl⟩

theorem unwritable_of_set (hs : ∀ v, h.set object key v = .error fault) :
    h.Unwritable object key fault := by
  refine ⟨hs, ?_⟩
  rintro call o e k v span m m₁ m₂ m₃ ho hk he rfl
  have hstore : Machine.store object key v k.span m₃ =
      .error ⟨.runtime fault, k.span, m₃.stack.frames m₃.stack.current k.span.start⟩ m₃ := by
    rw [Machine.store, hs]
    rfl
  rw [Stmt.run_store ho hk he, Run.bind_of_error hstore]

/-! ## What a write makes of a heap -/

/-- **What a write does**: it puts another array or another table in the place of one. -/
theorem set_cases (hs : h.set object key v = .ok h') :
    (∃ id i, object = .array id ∧ slot (h.items id).size key = .ok i ∧
      h' = h.setItems id ((h.items id).setIfInBounds i v)) ∨
    ∃ id k, object = .table id ∧ TableKey.ofValue? key = some k ∧
      h' = h.setEntries id ((h.entries id).insert k v) := by
  cases object with
  | array id =>
    cases hi : slot (h.items id).size key with
    | error fault => rw [set, hi] at hs; cases hs
    | ok i => rw [set, hi] at hs; cases hs; exact .inl ⟨id, i, rfl, hi, rfl⟩
  | table id =>
    cases hk : TableKey.ofValue? key with
    | none => rw [set, tableKey, hk] at hs; cases hs
    | some k => rw [set, tableKey, hk] at hs; cases hs; exact .inr ⟨id, k, rfl, rfl, rfl⟩
  | _ => cases hs

/-- What is at a place of an array, with a default, after another thing was put there. -/
theorem getD_setIfInBounds {α : Type} (xs : Array α) (i j : Nat) (a d : α) :
    (xs.setIfInBounds i a)[j]?.getD d = if j = i ∧ i < xs.size then a else xs[j]?.getD d := by
  rw [Array.getElem?_setIfInBounds]
  by_cases hji : j = i
  · subst hji
    rw [if_pos rfl]
    by_cases hlt : j < xs.size
    · rw [if_pos hlt, if_pos ⟨rfl, hlt⟩, Option.getD_some]
    · rw [if_neg hlt, if_neg fun hand => hlt hand.2, Array.getElem?_eq_none (Nat.le_of_not_lt hlt)]
  · rw [if_neg (Ne.symm hji), if_neg fun hand => hji hand.1]

/-- Only the array at the handle is another. -/
theorem items_setItems (h : Heap) (id : ArrayId) (items : Array Value) (other : ArrayId) :
    (h.setItems id items).items other =
      if other = id ∧ id.index < h.arrays.size then items else h.items other := by
  obtain ⟨i⟩ := id
  obtain ⟨j⟩ := other
  simp only [Heap.items, setItems, getD_setIfInBounds, ArrayId.mk.injEq]

/-- Only the table at the handle is another. -/
theorem entries_setEntries (h : Heap) (id : TableId) (map : OrderedMap TableKey Value)
    (other : TableId) :
    (h.setEntries id map).entries other =
      if other = id ∧ id.index < h.tables.size then map else h.entries other := by
  obtain ⟨i⟩ := id
  obtain ⟨j⟩ := other
  simp only [Heap.entries, setEntries, getD_setIfInBounds, TableId.mk.injEq]

/-- What is read of an object depends on that object alone. -/
theorem get_congr (hf : h'.functions = h.functions)
    (hi : ∀ id, object = .array id → h'.items id = h.items id)
    (ht : ∀ id, object = .table id → h'.entries id = h.entries id) (key : Value) :
    h'.get object key = h.get object key := by
  cases object with
  | array id => rw [get, get, hi id rfl]
  | table id => rw [get, get, ht id rfl]
  | number | text | boolean =>
    simp only [get, display, unfold, unfoldIn]
  | function id =>
    have hid : h'.function id = h.function id := by rw [Heap.function, Heap.function, hf]
    simp only [get, display, unfold, unfoldIn, hid]

/-- **A write to one object leaves what is read of every other.** -/
theorem get_of_set (hs : h.set object key v = .ok h') {other : Value} (hne : other ≠ object)
    (key' : Value) : h'.get other key' = h.get other key' := by
  rcases set_cases hs with ⟨id, i, rfl, -, rfl⟩ | ⟨id, k, rfl, -, rfl⟩
  · have hfunctions : (h.setItems id ((h.items id).setIfInBounds i v)).functions = h.functions := rfl
    refine get_congr hfunctions (fun id' hid' => ?_) (fun _ _ => rfl) key'
    rw [items_setItems, if_neg]
    rintro ⟨rfl, -⟩
    exact hne hid'
  · have hfunctions : (h.setEntries id ((h.entries id).insert k v)).functions = h.functions := rfl
    refine get_congr hfunctions (fun _ _ => rfl) (fun id' hid' => ?_) key'
    rw [entries_setEntries, if_neg]
    rintro ⟨rfl, -⟩
    exact hne hid'

end Heap

end HotkeyScript
