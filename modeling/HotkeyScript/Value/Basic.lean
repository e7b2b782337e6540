import HotkeyScript.Number.Basic
import HotkeyScript.OrderedMap
import HotkeyScript.Program.Basic
import HotkeyScript.Text.Source
/-!
# Values and the heap

A value is a scalar or a handle. Arrays, tables and functions live in the
heap, and two values with one handle are one object: what is stored through
the one is read through the other. A table's keys are integers, floats,
texts and booleans; decimal and hexadecimal numbers are one kind of
integer, and a float is never equal to an integer.
-/

namespace HotkeyScript

/-- A handle of an array. -/
structure ArrayId where
  index : Nat
deriving DecidableEq, Inhabited

/-- A handle of a table. -/
structure TableId where
  index : Nat
deriving DecidableEq, Inhabited

/-- A handle of a function. -/
structure FunctionId where
  index : Nat
deriving DecidableEq, Inhabited

/-- A value of the language. -/
inductive Value where
  | number (n : Number)
  | text (s : String)
  | boolean (b : Bool)
  | array (id : ArrayId)
  | table (id : TableId)
  | function (id : FunctionId)
deriving DecidableEq, Inhabited

/-- What a value is. -/
def Value.kind : Value → Kind
  | number _ => .number
  | text _ => .text
  | boolean _ => .boolean
  | array _ => .array
  | table _ => .table
  | function _ => .function

/-- A key of a table. -/
inductive TableKey where
  | integer (n : Int64)
  | float (x : Float)
  | text (s : String)
  | boolean (b : Bool)
deriving DecidableEq, Inhabited

namespace TableKey

/-- The key that stands for all keys equal to this one: `-0.0` is the same
key as `0.0`. -/
def canonical : TableKey → TableKey
  | float x => float (if x == 0.0 then 0.0 else x)
  | k => k

/-- Two keys are one when their canonical keys are, so not-a-number is a key
equal to itself. -/
instance : BEq TableKey := ⟨fun a b => decide (a.canonical = b.canonical)⟩

/-- The key a value stands for, unless it is a handle. -/
def ofValue? : Value → Option TableKey
  | .number (.decimal n) | .number (.hexadecimal n) => some (integer n)
  | .number (.float x) => some (float x)
  | .text s => some (text s)
  | .boolean b => some (boolean b)
  | _ => none

/-- The value of a key; an integer comes out as a decimal number. -/
def toValue : TableKey → Value
  | integer n => .number (.decimal n)
  | float x => .number (.float x)
  | text s => .text s
  | boolean b => .boolean b

/-- How a boolean is shown. -/
def truth (b : Bool) : String := if b then "true" else "false"

/-- How a key is shown. -/
def render : TableKey → String
  | integer n => toString n.toInt
  | float x => Decimal.script.render x
  | text s => s
  | boolean b => truth b

end TableKey

/-- A function as it was declared, with the script its body stands in. -/
structure Function where
  name : String
  params : List String
  body : Block
  source : Source
deriving Inhabited

/-- The objects that handles refer to. -/
structure Heap where
  arrays : Array (Array Value)
  tables : Array (OrderedMap TableKey Value)
  functions : Array Function
deriving Inhabited

namespace Heap

/-- The heap without objects. -/
def empty : Heap := ⟨#[], #[], #[]⟩

/-- Makes an array. -/
def newArray (h : Heap) (items : Array Value) : Value × Heap :=
  (.array ⟨h.arrays.size⟩, { h with arrays := h.arrays.push items })

/-- Makes a table. -/
def newTable (h : Heap) (entries : OrderedMap TableKey Value) : Value × Heap :=
  (.table ⟨h.tables.size⟩, { h with tables := h.tables.push entries })

/-- Makes a function. -/
def newFunction (h : Heap) (f : Function) : Value × Heap :=
  (.function ⟨h.functions.size⟩, { h with functions := h.functions.push f })

/-- The items of an array. -/
def items (h : Heap) (id : ArrayId) : Array Value := (h.arrays[id.index]?).getD #[]

/-- The entries of a table. -/
def entries (h : Heap) (id : TableId) : OrderedMap TableKey Value :=
  (h.tables[id.index]?).getD .empty

/-- The function of a handle. -/
def function (h : Heap) (id : FunctionId) : Function := (h.functions[id.index]?).getD default

end Heap

end HotkeyScript
