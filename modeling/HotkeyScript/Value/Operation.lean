import HotkeyScript.Number.Arithmetic
import HotkeyScript.Value.Unfolding
/-!
# Values — operations

Truth, arithmetic, concatenation, reading and writing by key, and equality
by content. Only numbers take part in arithmetic, and only texts in
concatenation. Array indices count from one.
-/

namespace HotkeyScript

namespace Value

/-- `a op b`. A hexadecimal operand objects to any operand of another kind,
number or not. -/
def arith (op : Arith) (a b : Value) : Except Fault Value :=
  match a, b with
  | number m, number n => number <$> m.apply op n
  | number (.hexadecimal _), _ => .error (.mixedHexadecimal op)
  | _, number (.hexadecimal _) => .error (.mixedHexadecimal op)
  | _, _ => .error (.mismatch op a.kind b.kind)

/-- Two texts in one. -/
def concat : Value → Value → Except Fault Value
  | text s, text t => .ok (text (s ++ t))
  | _, _ => .error .concatenation

/-- A number behind a sign. -/
def signed (sign : Sign) (v : Value) : Except Fault Value :=
  match v, sign with
  | number n, .minus => number <$> n.negate
  | number n, .plus => .ok (number n)
  | v, sign => .error (.signedNonNumber sign v.kind)

end Value

namespace Heap

/-! ## Truth -/

/-- Whether a value counts as true: zero, the empty text, `false` and empty
objects do not. -/
def isTruthy (h : Heap) : Value → Bool
  | .number n => !n.isZero
  | .text s => s != ""
  | .boolean b => b
  | .array id => !(h.items id).isEmpty
  | .table id => !(h.entries id).isEmpty
  | .function _ => true

/-- Whether both values count as true. -/
def both (h : Heap) (a b : Value) : Value := .boolean (h.isTruthy a && h.isTruthy b)

/-- Whether one of the values counts as true. -/
def either (h : Heap) (a b : Value) : Value := .boolean (h.isTruthy a || h.isTruthy b)

/-- Whether a value does not count as true. -/
def negation (h : Heap) (v : Value) : Value := .boolean (!h.isTruthy v)

/-! ## Objects and keys -/

/-- The place in an array of that size that a key denotes. -/
def slot (size : Nat) : Value → Except Fault Nat
  | .number n =>
    match n.index? with
    | none => .error .invalidIndex
    | some i =>
      if 1 ≤ i.toInt ∧ i.toInt ≤ size then .ok (i.toInt.toNat - 1) else .error .indexOutOfRange
  | _ => .error .invalidIndex

/-- The key of a table that a value denotes. -/
def tableKey (v : Value) : Except Fault TableKey :=
  match TableKey.ofValue? v with
  | some k => .ok k
  | none => .error (.invalidKey v.kind)

/-- The value of an object at a key. -/
def get (h : Heap) (object key : Value) : Except Fault Value :=
  match object with
  | .array id => do
    let i ← slot (h.items id).size key
    return (h.items id)[i]?.getD (.text "")
  | .table id => do
    let k ← tableKey key
    match (h.entries id).get? k with
    | some v => return v
    | none => .error (.keyNotFound k.render)
  | v => .error (.notObject (h.display v))

/-- The heap with another array at a handle. -/
def setItems (h : Heap) (id : ArrayId) (items : Array Value) : Heap :=
  { h with arrays := h.arrays.setIfInBounds id.index items }

/-- The heap with another table at a handle. -/
def setEntries (h : Heap) (id : TableId) (entries : OrderedMap TableKey Value) : Heap :=
  { h with tables := h.tables.setIfInBounds id.index entries }

/-- Gives an object a value at a key. An array's items can be replaced, but
their number does not change. -/
def set (h : Heap) (object key value : Value) : Except Fault Heap :=
  match object with
  | .array id => do
    let i ← slot (h.items id).size key
    return h.setItems id ((h.items id).setIfInBounds i value)
  | .table id => do
    let k ← tableKey key
    return h.setEntries id ((h.entries id).insert k value)
  | v => .error (.notObject (h.display v))

/-- The number of things in an object. -/
def size? (h : Heap) : Value → Option Nat
  | .array id => some (h.items id).size
  | .table id => some (h.entries id).size
  | _ => none

/-! ## Sameness and equality -/

/-- Whether two values are one array or one table; `none` for values of
other or different kinds. -/
def same? : Value → Value → Option Bool
  | .array a, .array b => some (a == b)
  | .table a, .table b => some (a == b)
  | _, _ => none

/-- Equality by content, looking into objects `depth` levels deep. An object
equals itself, a function equals only itself, and tables are compared
without regard to the order of their entries. -/
def equalTo (h : Heap) : Nat → Value → Value → Bool
  | _, .number a, .number b => a == b
  | _, .text a, .text b => a == b
  | _, .boolean a, .boolean b => a == b
  | _, .function a, .function b => a == b
  | 0, .array a, .array b => a == b
  | 0, .table a, .table b => a == b
  | depth + 1, .array a, .array b =>
    a == b ||
      ((h.items a).size == (h.items b).size &&
        ((h.items a).toList.zip (h.items b).toList).all fun p => h.equalTo depth p.1 p.2)
  | depth + 1, .table a, .table b =>
    a == b ||
      ((h.entries a).size == (h.entries b).size &&
        (h.entries a).entries.all fun e =>
          match (h.entries b).get? e.1 with
          | some v => h.equalTo depth e.2 v
          | none => false)
  | _, _, _ => false

/-- Equality by content. No path of comparisons that meets every pair of
objects at most once is longer than the number of pairs. -/
def equal (h : Heap) (a b : Value) : Bool :=
  h.equalTo (h.containers.length * h.containers.length + 1) a b

end Heap

end HotkeyScript
