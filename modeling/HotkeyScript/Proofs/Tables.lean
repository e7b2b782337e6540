import HotkeyScript.Proofs.Machine.Access
import HotkeyScript.Proofs.OrderedMap
import HotkeyScript.Proofs.Value.Key
/-!
# Tables

A table holds what was put into it (`Heap.Holds`): its keys stand in the order in which
they were first put, each with the value that was put last, and nothing else is there.
This is so after any writes to the objects of a heap, of which some fail and some go to
other objects, and under whatever names the table goes (`Heap.entries_putAll`), and also
of the tables that scripts write out (`Expr.Pairs.eval_table`).
-/

namespace HotkeyScript

/-- What a key and a value put into a table, if the key is one. -/
def TableKey.entry? (key v : Value) : Option (TableKey × Value) :=
  (ofValue? key).map fun k => (k, v)

namespace Heap

/-! ## Writes to objects -/

/-- A value that is to be stored at a key of an object. -/
structure Write where
  object : Value
  key : Value
  value : Value

/-- What a write puts into a table: nothing if it goes to another object, or fails. -/
def Write.into (id : TableId) (w : Write) : Option (TableKey × Value) :=
  if w.object = .table id then TableKey.entry? w.key w.value else none

/-- The heap after a write, which changes nothing where it fails. -/
def put (h : Heap) (w : Write) : Heap :=
  match h.set w.object w.key w.value with
  | .ok h' => h'
  | .error _ => h

/-- The heap after writes, one after another. -/
def putAll (h : Heap) (ws : List Write) : Heap := ws.foldl put h

/-- What writes have put into a table. -/
def putInto (id : TableId) (ws : List Write) : List (TableKey × Value) :=
  ws.filterMap (Write.into id)

variable {h : Heap} {id : TableId} {key v : Value} {k : TableKey}

/-- A write to a table succeeds where the key is one. -/
theorem set_table_ok (hk : TableKey.ofValue? key = some k) :
    h.set (.table id) key v = .ok (h.setEntries id ((h.entries id).insert k v)) := by
  rw [set, tableKey, hk]
  rfl

theorem set_table_error (hk : TableKey.ofValue? key = none) :
    h.set (.table id) key v = .error (.invalidKey key.kind) := by
  rw [set, tableKey, hk]
  rfl

/-- A write that succeeds puts into a table what it says. -/
theorem entries_of_set {h' : Heap} {object : Value} (hid : id.index < h.tables.size)
    (hs : h.set object key v = .ok h') :
    h'.entries id = (h.entries id).insertAll (Write.into id ⟨object, key, v⟩).toList ∧
      h'.tables.size = h.tables.size := by
  rcases set_cases hs with ⟨other, i, rfl, -, rfl⟩ | ⟨other, k, rfl, hk, rfl⟩
  · exact ⟨rfl, rfl⟩
  · refine ⟨?_, Array.size_setIfInBounds⟩
    rw [entries_setEntries]
    by_cases ho : id = other
    · subst ho
      rw [if_pos ⟨rfl, hid⟩, Write.into, if_pos rfl, TableKey.entry?, hk]
      rfl
    · have hne : Value.table other ≠ .table id := fun heq => ho (by cases heq; rfl)
      rw [if_neg fun hand => ho hand.1, Write.into, if_neg hne]
      rfl

/-- One that fails puts nothing into any. -/
theorem into_of_set {object : Value} {fault : Fault} (hs : h.set object key v = .error fault) :
    Write.into id ⟨object, key, v⟩ = none := by
  unfold Write.into TableKey.entry?
  split
  next ho =>
    cases hk : TableKey.ofValue? key with
    | none => rfl
    | some k =>
      cases ho
      rw [set_table_ok hk] at hs
      cases hs
  next => rfl

/-- **One write** puts into a table what it says, and makes none. -/
theorem entries_put (hid : id.index < h.tables.size) (w : Write) :
    (h.put w).entries id = (h.entries id).insertAll (w.into id).toList ∧
      (h.put w).tables.size = h.tables.size := by
  unfold put
  split
  next h' hs => exact entries_of_set hid hs
  next fault hs =>
    rw [into_of_set hs]
    exact ⟨rfl, rfl⟩

/-- **Any writes** put into a table what they say, in their order. -/
theorem entries_putAll (hid : id.index < h.tables.size) (ws : List Write) :
    (h.putAll ws).entries id = (h.entries id).insertAll (putInto id ws) := by
  induction ws generalizing h with
  | nil => rfl
  | cons w ws ih =>
    obtain ⟨hentries, hsize⟩ := entries_put hid w
    have hrest := ih (h := h.put w) (by rwa [hsize])
    rw [hentries] at hrest
    have hinto : putInto id (w :: ws) = (w.into id).toList ++ putInto id ws := by
      rw [putInto, List.filterMap_cons]
      cases w.into id <;> rfl
    rw [hinto, OrderedMap.insertAll, List.foldl_append]
    exact hrest

/-! ## What a table holds -/

/-- **A table holds what was put into it**, where nothing was in it before. -/
structure Holds (h : Heap) (id : TableId) (puts : List (TableKey × Value)) : Prop where
  /-- Each key has a place, in the order in which they were first put. -/
  keys : (h.entries id).keys = (puts.map Prod.fst).eraseDups
  /-- It has the value that was put last. -/
  values : ∀ e ∈ (h.entries id).entries, OrderedMap.lastAt puts e.1 = some e.2
  found : ∀ key k v, TableKey.ofValue? key = some k → OrderedMap.lastAt puts k = some v →
    h.Reads (.table id) key v
  missing : ∀ key k, TableKey.ofValue? key = some k → OrderedMap.lastAt puts k = none →
    h.Unreadable (.table id) key (.keyNotFound k.render)
  refused : ∀ key : Value, key.Unkeyed →
    h.Unreadable (.table id) key (.invalidKey key.kind) ∧
      h.Unwritable (.table id) key (.invalidKey key.kind)
  /-- Every other key takes any value, and no other object is touched. -/
  taken : ∀ key : Value, ¬ key.Unkeyed → ∀ v, ∃ h', h.Writes (.table id) key v h' ∧
    ∀ object, object ≠ .table id → ∀ key', h'.get object key' = h.get object key'

theorem get_table (hk : TableKey.ofValue? key = some k) :
    h.get (.table id) key =
      ((h.entries id).get? k).elim (.error (.keyNotFound k.render)) .ok := by
  rw [get, tableKey, hk]
  simp only [bind, Except.bind]
  cases (h.entries id).get? k <;> rfl

theorem get_table_error (hk : TableKey.ofValue? key = none) :
    h.get (.table id) key = .error (.invalidKey key.kind) := by
  rw [get, tableKey, hk]
  rfl

/-- **Insertions into an empty table** are what it holds. -/
theorem holds_of_insertAll {map : OrderedMap TableKey Value} (hempty : map.entries = [])
    {puts : List (TableKey × Value)} (he : h.entries id = map.insertAll puts) :
    h.Holds id puts := by
  obtain ⟨hkeys, hget⟩ := OrderedMap.insertAll_of_entries_eq_nil hempty puts
  rw [← he] at hkeys hget
  refine ⟨hkeys, fun e hmem => ?_, fun key k v hk hlast => ?_, fun key k hk hlast => ?_,
    fun key hkey => ?_, fun key hkey v => ?_⟩
  · rw [← hget, OrderedMap.get?_of_mem hmem]
  · refine reads_of_get ?_
    rw [get_table hk, hget, hlast]
    rfl
  · refine unreadable_of_get ?_
    rw [get_table hk, hget, hlast]
    rfl
  · have hnone := TableKey.ofValue?_eq_none_iff.2 hkey
    exact ⟨unreadable_of_get (get_table_error hnone),
      unwritable_of_set fun _ => set_table_error hnone⟩
  · obtain ⟨k, hk⟩ := TableKey.exists_ofValue? hkey
    have hset : h.set (.table id) key v = _ := set_table_ok hk
    exact ⟨_, writes_of_set hset, fun object hne => get_of_set hset hne⟩

end Heap

/-! ## Tables that are written out -/

/-- Evaluating the keys and values of entries, from the left and each key before its
value, comes to pairs. -/
inductive Expr.Pairs (call : Caller) :
    List (Expr × Expr) → Machine → List (Value × Value) → Machine → Prop where
  | nil {m : Machine} : Pairs call [] m [] m
  | cons {k e : Expr} {es : List (Expr × Expr)} {m m₁ m₂ n : Machine} {key v : Value}
      {pairs : List (Value × Value)} :
      k.eval call m = .ok key m₁ → e.eval call m₁ = .ok v m₂ → Pairs call es m₂ pairs n →
      Pairs call ((k, e) :: es) m ((key, v) :: pairs) n

/-- What pairs put into a table. -/
def TableKey.entriesOf (pairs : List (Value × Value)) : List (TableKey × Value) :=
  pairs.filterMap fun p => entry? p.1 p.2

namespace Expr.Pairs

variable {call : Caller} {es : List (Expr × Expr)} {m n : Machine} {pairs : List (Value × Value)}

/-- Entries whose keys are keys are inserted in their order. -/
theorem evalEntries_append (h : Expr.Pairs call es m pairs n) (hkeys : ∀ p ∈ pairs, ¬ p.1.Unkeyed)
    (map : OrderedMap TableKey Value) (rest : List (Expr × Expr)) :
    Expr.evalEntries call map (es ++ rest) m =
      Expr.evalEntries call (map.insertAll (TableKey.entriesOf pairs)) rest n := by
  induction h generalizing map with
  | nil => rfl
  | @cons k e es m m₁ m₂ n key v pairs hk he _ ih =>
    obtain ⟨j, hj⟩ := TableKey.exists_ofValue? (hkeys _ List.mem_cons_self)
    have hput : putEntry map key v k.span m₂ = .ok (map.insert j v) m₂ := by
      rw [putEntry, Heap.tableKey, hj]
      rfl
    have hentries : TableKey.entriesOf ((key, v) :: pairs) = (j, v) :: TableKey.entriesOf pairs := by
      rw [TableKey.entriesOf, List.filterMap_cons, TableKey.entry?, hj]
      rfl
    rw [List.cons_append, Expr.evalEntries, Run.bind_of_ok hk, Run.bind_of_ok he,
      Run.bind_of_ok hput, ih (fun p hp => hkeys p (List.mem_cons_of_mem _ hp)), hentries]
    rfl

/-- **A table that is written out** is made behind its entries, and holds them. -/
theorem eval_table (h : Expr.Pairs call es m pairs n) (hkeys : ∀ p ∈ pairs, ¬ p.1.Unkeyed)
    (span : Span) :
    ∃ h' : Heap, (Expr.table es span).eval call m =
        .ok (.table ⟨n.heap.tables.size⟩) { n with heap := h' } ∧
      h'.Holds ⟨n.heap.tables.size⟩ (TableKey.entriesOf pairs) ∧
      ∀ object, object ≠ .table ⟨n.heap.tables.size⟩ →
        ∀ key, h'.get object key = n.heap.get object key := by
  have hentries := h.evalEntries_append hkeys .empty []
  rw [List.append_nil, Expr.evalEntries] at hentries
  refine ⟨(n.heap.newTable (OrderedMap.empty.insertAll (TableKey.entriesOf pairs))).2, ?_, ?_, ?_⟩
  · rw [Expr.eval, Run.bind_of_ok hentries]
    rfl
  · have hempty : (OrderedMap.empty : OrderedMap TableKey Value).entries = [] := rfl
    refine Heap.holds_of_insertAll hempty ?_
    rw [Heap.newTable, Heap.entries, Array.getElem?_push, if_pos rfl]
    rfl
  · intro object hobject key
    have hfunctions : (n.heap.newTable
        (OrderedMap.empty.insertAll (TableKey.entriesOf pairs))).2.functions =
        n.heap.functions := rfl
    refine Heap.get_congr hfunctions (fun _ _ => rfl) (fun id hid => ?_) key
    have hne : id.index ≠ n.heap.tables.size := by
      rintro heq
      obtain ⟨index⟩ := id
      cases heq
      exact hobject hid
    rw [Heap.newTable, Heap.entries, Array.getElem?_push, if_neg hne]
    rfl

/-- **A key that is none ends a table that is written out**: no table is made, and what
evaluating the entries up to there did stays. -/
theorem eval_table_error (h : Expr.Pairs call es m pairs n) (hkeys : ∀ p ∈ pairs, ¬ p.1.Unkeyed)
    {k e : Expr} {key v : Value} {m₁ m₂ : Machine} (hk : k.eval call n = .ok key m₁)
    (he : e.eval call m₁ = .ok v m₂) (hkey : key.Unkeyed) (rest : List (Expr × Expr))
    (span : Span) :
    (Expr.table (es ++ (k, e) :: rest) span).eval call m =
      .error ⟨.runtime (.invalidKey key.kind), k.span,
        m₂.stack.frames m₂.stack.current k.span.start⟩ m₂ := by
  have hput (map : OrderedMap TableKey Value) : putEntry map key v k.span m₂ =
      .error ⟨.runtime (.invalidKey key.kind), k.span,
        m₂.stack.frames m₂.stack.current k.span.start⟩ m₂ := by
    rw [putEntry, Heap.tableKey, TableKey.ofValue?_eq_none_iff.2 hkey]
    rfl
  refine Run.bind_of_error ?_
  rw [h.evalEntries_append hkeys, Expr.evalEntries, Run.bind_of_ok hk, Run.bind_of_ok he,
    Run.bind_of_error (hput _)]

end Expr.Pairs

namespace Heap

/-- **Tables are association lists in order of insertion.** Keys are compared as their
values are, and only objects are no keys. A table that starts empty holds, after any
writes to the objects of its heap, what those that went to it with a key have put into
it; and a table that is written out holds its entries, or is not made because of a key
that is none. -/
theorem table_holds_insertions (h : Heap) (id : TableId) (hid : id.index < h.tables.size)
    (hempty : (h.entries id).entries = []) :
    (∀ a b j k, TableKey.ofValue? a = some j → TableKey.ofValue? b = some k →
      ((j == k) = true ↔ a.SameKey b)) ∧
    (∀ v, TableKey.ofValue? v = none ↔ v.Unkeyed) ∧
    (∀ ws, (h.putAll ws).Holds id (putInto id ws)) ∧
    ∀ (call : Caller) (es : List (Expr × Expr)) (m n : Machine) (pairs : List (Value × Value)),
      Expr.Pairs call es m pairs n → (∀ p ∈ pairs, ¬ p.1.Unkeyed) →
      (∀ span, ∃ h' : Heap, (Expr.table es span).eval call m =
          .ok (.table ⟨n.heap.tables.size⟩) { n with heap := h' } ∧
        h'.Holds ⟨n.heap.tables.size⟩ (TableKey.entriesOf pairs) ∧
        ∀ object, object ≠ .table ⟨n.heap.tables.size⟩ →
          ∀ key, h'.get object key = n.heap.get object key) ∧
      ∀ (k e : Expr) (key v : Value) (m₁ m₂ : Machine), k.eval call n = .ok key m₁ →
        e.eval call m₁ = .ok v m₂ → key.Unkeyed → ∀ rest span,
          (Expr.table (es ++ (k, e) :: rest) span).eval call m =
            .error ⟨.runtime (.invalidKey key.kind), k.span,
              m₂.stack.frames m₂.stack.current k.span.start⟩ m₂ := by
  refine ⟨fun _ _ _ _ => TableKey.beq_iff_sameKey, fun _ => TableKey.ofValue?_eq_none_iff,
    fun ws => holds_of_insertAll hempty (entries_putAll hid ws), ?_⟩
  intro call es m n pairs hpairs hkeys
  refine ⟨hpairs.eval_table hkeys, ?_⟩
  intro k e key v m₁ m₂ hk he hkey rest span
  exact hpairs.eval_table_error hkeys hk he hkey rest span

/-- Two texts that differ in case, an integer that is written in two ways, the float that
is equal to it, and a key that is none. -/
def mixedWrites : List Write :=
  [⟨.table ⟨0⟩, .text "b", .number (.decimal 1)⟩,
    ⟨.table ⟨0⟩, .number (.decimal 16), .number (.decimal 2)⟩,
    ⟨.table ⟨0⟩, .table ⟨0⟩, .number (.decimal 3)⟩,
    ⟨.table ⟨0⟩, .text "B", .table ⟨0⟩⟩,
    ⟨.table ⟨0⟩, .number (.hexadecimal 16), .number (.decimal 4)⟩,
    ⟨.table ⟨0⟩, .number (.float 16.0), .boolean true⟩]

theorem table_holds_insertions_mixed :
    ((newTable .empty .empty).2.putAll mixedWrites).Holds ⟨0⟩ (putInto ⟨0⟩ mixedWrites) ∧
      (((newTable .empty .empty).2.putAll mixedWrites).entries ⟨0⟩).keys =
        [.text "b", .integer 16, .text "B", .float 16.0] ∧
      ((newTable .empty .empty).2.putAll mixedWrites).get (.table ⟨0⟩)
        (.number (.decimal 16)) = .ok (.number (.decimal 4)) ∧
      ((newTable .empty .empty).2.putAll mixedWrites).get (.table ⟨0⟩) (.text "c") =
        .error (.keyNotFound "c") := by
  obtain ⟨-, -, hholds, -⟩ := table_holds_insertions (newTable .empty .empty).2 ⟨0⟩ (by decide) rfl
  have hmixed := hholds mixedWrites
  refine ⟨hmixed, hmixed.keys.trans ?_, (hmixed.found _ (.integer 16) _ rfl ?_).get,
    (hmixed.missing _ (.text "c") rfl ?_).get⟩
  · decide +kernel
  · decide +kernel
  · decide +kernel

end Heap

end HotkeyScript
