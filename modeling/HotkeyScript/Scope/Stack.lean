import HotkeyScript.Error
import HotkeyScript.Scope.Table
/-!
# Scopes — the stack of calls

The module's scope is always there. Each call under way has a scope of its
own, the scope it was entered from and the position it was entered at.
Scopes are numbered: the module is zero, and a call is one more than the
number of calls below it.

A name is read in the scope itself and then in the scopes it was entered
from, out to the module. It is written in the scope itself, or in the
module where it is declared global. A function's own scope never holds a
global name.
-/

namespace HotkeyScript

/-- A place where names have values: its name in reports, the script its
code stands in, and its names. -/
structure Scope where
  name : String
  source : Source
  symbols : SymbolTable
deriving Inhabited

/-- A call under way: its number, the number of the scope it was entered
from, and the position it was entered at. -/
structure Call where
  scope : Scope
  number : Nat
  caller : Nat
  entry : Position
deriving Inhabited

/-- The scopes of a running program, the innermost call first. -/
structure CallStack where
  module : Scope
  calls : List Call
deriving Inhabited

namespace CallStack

/-- The stack of a script before any call. -/
def start (source : Source) : CallStack := ⟨⟨moduleName, source, .empty⟩, []⟩

/-- The number of calls under way. -/
def depth (s : CallStack) : Nat := s.calls.length

/-- The number of the innermost scope. -/
def current (s : CallStack) : Nat :=
  match s.calls with
  | [] => 0
  | c :: _ => c.number

/-- Sets the script of the module; its names stay. -/
def setSource (s : CallStack) (source : Source) : CallStack :=
  { s with module := { s.module with source } }

/-- Enters a call from the scope with the number `caller`. -/
def push (s : CallStack) (name : String) (caller : Nat) (entry : Position) (source : Source) :
    CallStack :=
  { s with calls := ⟨⟨name, source, .empty⟩, s.depth + 1, caller, entry⟩ :: s.calls }

/-- Leaves the innermost call, if there is one. -/
def pop (s : CallStack) : CallStack := { s with calls := s.calls.tail }

/-- The call with a number. -/
def call? (s : CallStack) (id : Nat) : Option Call := s.calls.find? fun c => c.number == id

/-- The scope with a number. -/
def scope (s : CallStack) (id : Nat) : Scope := ((s.call? id).map Call.scope).getD s.module

/-! ## Reading names -/

/-- The value of a name in a call or in the calls it was entered from. -/
def lookupIn (name : String) : Nat → List Call → Option Value
  | _, [] => none
  | id, c :: cs =>
    if c.number = id then
      match c.scope.symbols.get? name with
      | some v => some v
      | none => lookupIn name c.caller cs
    else lookupIn name id cs

/-- The value of a name as seen from a scope. -/
def lookup (s : CallStack) (id : Nat) (name : String) : Option Value :=
  match lookupIn name id s.calls with
  | some v => some v
  | none => s.module.symbols.get? name

/-! ## Writing names -/

/-- Gives a name a value in one of the calls. -/
def setIn (id : Nat) (name : String) (value : Value) (isGlobal : Bool) : List Call → List Call
  | [] => []
  | c :: cs =>
    if c.number = id then
      { c with scope := { c.scope with symbols := c.scope.symbols.set name value isGlobal } } :: cs
    else c :: setIn id name value isGlobal cs

/-- Gives a name a value in the module. -/
def setInModule (s : CallStack) (name : String) (value : Value) (isGlobal : Bool) : CallStack :=
  { s with module := { s.module with symbols := s.module.symbols.set name value isGlobal } }

/-- Gives a name a value in the scope with a number. -/
def setAt (s : CallStack) (id : Nat) (name : String) (value : Value) (isGlobal : Bool) :
    CallStack :=
  if id = 0 then s.setInModule name value isGlobal
  else { s with calls := setIn id name value isGlobal s.calls }

/-- Whether an assignment in a function is one to the module: it says so, or
the name is global and the function has no name like it. -/
def writesModule (s : CallStack) (id : Nat) (name : String) (declared : Bool) : Bool :=
  id != 0 && (declared || (!(s.scope id).symbols.contains name && s.module.symbols.isGlobal name))

/-- Assigns a value to a name from a scope. -/
def assign (s : CallStack) (id : Nat) (name : String) (value : Value) (declared : Bool) :
    CallStack :=
  -- a name that the module holds as global stays global
  if s.writesModule id name declared then s.setInModule name value true
  else s.setAt id name value declared

/-- Gives a name a value in a scope, whatever was declared global. -/
def bind (s : CallStack) (id : Nat) (name : String) (value : Value) : CallStack :=
  s.setAt id name value false

/-! ## Tracebacks -/

/-- The frames from a scope outward, the innermost first. -/
def framesIn (module : Scope) : Nat → Position → List Call → List Frame
  | _, p, [] => [.at module.source module.name p]
  | id, p, c :: cs =>
    if c.number = id then
      .at c.scope.source c.scope.name p :: framesIn module c.caller c.entry cs
    else framesIn module id p cs

/-- The frames of a scope that has come to a position, the outermost
first. -/
def frames (s : CallStack) (id : Nat) (p : Position) : List Frame :=
  (framesIn s.module id p s.calls).reverse

end CallStack

end HotkeyScript
