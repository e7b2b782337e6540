import HotkeyScript.Value.Basic
/-!
# Values — finite pictures

A value's unfolding is the finite tree a reader sees: objects written out
in full, except where an object encloses itself, which is marked and not
entered again. An object that merely occurs twice is written out twice.
The display form of a value is the text of its unfolding.
-/

namespace HotkeyScript

/-- An object that holds values. -/
inductive Container where
  | array (id : ArrayId)
  | table (id : TableId)
deriving DecidableEq, Inhabited

/-- A value with the objects it refers to. -/
inductive Unfolding where
  | number (n : Number)
  | text (s : String)
  | boolean (b : Bool)
  | function (name : String) (params : List String)
  | array (id : ArrayId) (items : List Unfolding)
  | table (id : TableId) (entries : List (TableKey × Unfolding))
  /-- an object that encloses this place -/
  | enclosing (object : Container)
deriving Inhabited

namespace Heap

/-! ## Unfolding

The recursion ends because each step into an object leaves fewer objects
that are not yet open. -/

/-- Every object that holds values. -/
def containers (h : Heap) : List Container :=
  (List.range h.arrays.size).map (fun i => .array ⟨i⟩) ++
    (List.range h.tables.size).map (fun i => .table ⟨i⟩)

/-- How many of them are not among `enclosing`. -/
def closedCount (h : Heap) (enclosing : List Container) : Nat :=
  (h.containers.filter fun c => !enclosing.contains c).length

/-- Entering an object leaves fewer to enter. -/
theorem closedCount_cons_lt {h : Heap} {enclosing : List Container} {c : Container}
    (hc : c ∈ h.containers) (hn : c ∉ enclosing) :
    h.closedCount (c :: enclosing) < h.closedCount enclosing := by
  unfold closedCount
  have hsub : (h.containers.filter fun d => !(c :: enclosing).contains d) =
      (h.containers.filter fun d => !enclosing.contains d).filter fun d => d != c := by
    rw [List.filter_filter]
    refine List.filter_congr fun d _ => ?_
    by_cases hd : d = c <;> simp [hd]
  rw [hsub]
  refine List.length_filter_lt_length_iff_exists.2 ⟨c, ?_, by simp⟩
  simp [List.mem_filter, hc, hn]

theorem array_mem_containers {h : Heap} {id : ArrayId} {items : Array Value}
    (hi : h.arrays[id.index]? = some items) : Container.array id ∈ h.containers := by
  obtain ⟨hlt, -⟩ := Array.getElem?_eq_some_iff.1 hi
  simp only [containers, List.mem_append, List.mem_map, List.mem_range]
  exact .inl ⟨id.index, hlt, rfl⟩

theorem table_mem_containers {h : Heap} {id : TableId} {entries : OrderedMap TableKey Value}
    (hi : h.tables[id.index]? = some entries) : Container.table id ∈ h.containers := by
  obtain ⟨hlt, -⟩ := Array.getElem?_eq_some_iff.1 hi
  simp only [containers, List.mem_append, List.mem_map, List.mem_range]
  exact .inr ⟨id.index, hlt, rfl⟩

/-- The unfolding of a value at a place inside `enclosing`. -/
def unfoldIn (h : Heap) (enclosing : List Container) : Value → Unfolding
  | .number n => .number n
  | .text s => .text s
  | .boolean b => .boolean b
  | .function id => .function (h.function id).name (h.function id).params
  | .array id =>
    if _hn : Container.array id ∈ enclosing then .enclosing (.array id)
    else
      match _hi : h.arrays[id.index]? with
      | none => .array id []
      | some items => .array id (items.toList.map (h.unfoldIn (.array id :: enclosing)))
  | .table id =>
    if _hn : Container.table id ∈ enclosing then .enclosing (.table id)
    else
      match _hi : h.tables[id.index]? with
      | none => .table id []
      | some map =>
        .table id (map.entries.map fun e => (e.1, h.unfoldIn (.table id :: enclosing) e.2))
termination_by h.closedCount enclosing
decreasing_by
  · exact closedCount_cons_lt (array_mem_containers _hi) _hn
  · exact closedCount_cons_lt (table_mem_containers _hi) _hn

/-- The unfolding of a value. -/
def unfold (h : Heap) (v : Value) : Unfolding := h.unfoldIn [] v

end Heap

namespace Unfolding

/-! ## Display -/

mutual

/-- The text of an unfolding. -/
def render : Unfolding → String
  | number n => n.render
  | text s => s
  | boolean b => TableKey.truth b
  | function name params => name ++ "(" ++ ",".intercalate params ++ ")"
  | array _ items => "[" ++ ",".intercalate (renderItems items) ++ "]"
  | table _ entries => "\x7b" ++ ",".intercalate (renderEntries entries) ++ "\x7d"
  | enclosing (.array _) => "[...]"
  | enclosing (.table _) => "\x7b...\x7d"

/-- The texts of an array's items. -/
def renderItems : List Unfolding → List String
  | [] => []
  | u :: us => u.render :: renderItems us

/-- The texts of a table's entries. -/
def renderEntries : List (TableKey × Unfolding) → List String
  | [] => []
  | (k, u) :: es => (k.render ++ ":" ++ u.render) :: renderEntries es

end

end Unfolding

/-- How a value is shown. -/
def Heap.display (h : Heap) (v : Value) : String := (h.unfold v).render

end HotkeyScript
