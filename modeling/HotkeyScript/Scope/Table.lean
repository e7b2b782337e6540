import HotkeyScript.OrderedMap
import HotkeyScript.Value.Basic
/-!
# Scopes — symbol tables

A symbol table gives names values, in the order in which the names came.
Names that differ in the case of ASCII letters only are one name, and a
table keeps the spelling that came first. A name that was declared global
once stays so.
-/

namespace HotkeyScript

/-- A name with its spelling and its lower-case form. -/
structure Name where
  spelling : String
  folded : String
  folded_eq : folded = spelling.toLower
deriving DecidableEq

/-- The name of a spelling. -/
def Name.of (spelling : String) : Name := ⟨spelling, spelling.toLower, rfl⟩

instance : Inhabited Name := ⟨.of ""⟩

/-- Two names are one when their lower-case forms are. -/
instance : BEq Name := ⟨fun a b => a.folded == b.folded⟩

/-- What a name stands for: a value, and whether a function declared the
name global. -/
structure Slot where
  value : Value
  isGlobal : Bool
deriving DecidableEq, Inhabited

/-- A name with what it stands for. -/
structure Binding where
  name : String
  value : Value
  isGlobal : Bool
deriving DecidableEq, Inhabited

/-- The names of one scope. -/
structure SymbolTable where
  slots : OrderedMap Name Slot

namespace SymbolTable

/-- The table without names. -/
def empty : SymbolTable := ⟨.empty⟩

instance : Inhabited SymbolTable := ⟨empty⟩

/-- The value of a name. -/
def get? (t : SymbolTable) (name : String) : Option Value :=
  (t.slots.get? (.of name)).map Slot.value

/-- A name as the table has it. -/
def binding? (t : SymbolTable) (name : String) : Option Binding :=
  (t.slots.entry? (.of name)).map fun e => ⟨e.1.spelling, e.2.value, e.2.isGlobal⟩

/-- Whether a name has a value. -/
def contains (t : SymbolTable) (name : String) : Bool := t.slots.contains (.of name)

/-- Whether a name was declared global. -/
def isGlobal (t : SymbolTable) (name : String) : Bool :=
  ((t.slots.get? (.of name)).map Slot.isGlobal).getD false

/-- Gives a name a value. The spelling of a name that is there is kept, and
so is its being global. -/
def set (t : SymbolTable) (name : String) (value : Value) (isGlobal : Bool) : SymbolTable :=
  ⟨t.slots.alter (.of name) fun old => ⟨value, (old.map Slot.isGlobal).getD false || isGlobal⟩⟩

/-- The names with what they stand for, in order. -/
def bindings (t : SymbolTable) : List Binding :=
  t.slots.entries.map fun e => ⟨e.1.spelling, e.2.value, e.2.isGlobal⟩

/-- The number of names. -/
def size (t : SymbolTable) : Nat := t.slots.size

/-- Whether there are no names. -/
def isEmpty (t : SymbolTable) : Bool := t.slots.isEmpty

end SymbolTable

end HotkeyScript
