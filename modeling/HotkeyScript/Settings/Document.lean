import HotkeyScript.Settings.Load
import HotkeyScript.Toml.Document
import HotkeyScript.Toml.Spelling
/-!
# Settings — documents

The documents that layers are read from and written to. Unknown names and values of a
wrong kind are refused. A section may be written as a table, or as an array of all its
fields in order. This is one reader of layers; how settings are loaded, and what they
are then, is said for any.
-/

namespace HotkeyScript

namespace Layer

/-! ## Reading -/

/-- The truth value that a value is. -/
def boolean? : Toml.Value → Option Bool
  | .boolean b => some b
  | _ => none

/-- The text that a value is. -/
def text? : Toml.Value → Option String
  | .text s => some s
  | _ => none

/-- The natural number below `bound` that a value is. -/
def natural? (bound : Nat) : Toml.Value → Option Nat
  | .integer n => if 0 ≤ n ∧ n < bound then some n.toNat else none
  | _ => none

/-- A field that may be missing, but not of a wrong kind. -/
def field? {α : Type} (read : Toml.Value → Option α) (name : String) (t : Toml.Table) :
    Option (Option α) :=
  match t.lookup name with
  | none => some none
  | some v => (read v).map some

/-- Whether a table has only these names. -/
def within (names : List String) (t : Toml.Table) : Bool := t.all fun e => names.contains e.1

/-- The section about running. -/
def run? : Toml.Value → Option RunSection
  | .table t =>
    if within ["debug", "max_call_depth"] t then do
      let debug ← field? boolean? "debug" t
      let depth ← field? (natural? UInt64.size) "max_call_depth" t
      return ⟨debug, depth⟩
    else none
  | .array (debug :: depth :: _) => do
    let debug ← boolean? debug
    let depth ← natural? UInt64.size depth
    return ⟨debug, depth⟩
  | _ => none

/-- The section about message boxes. -/
def box? : Toml.Value → Option BoxSection
  | .table t =>
    if within ["max_timeout", "default_title"] t then do
      let timeout ← field? (natural? UInt32.size) "max_timeout" t
      let title ← field? text? "default_title" t
      return ⟨timeout, title⟩
    else none
  | .array (timeout :: title :: _) => do
    let timeout ← natural? UInt32.size timeout
    let title ← text? title
    return ⟨timeout, title⟩
  | _ => none

/-- The section about reports. -/
def report? : Toml.Value → Option ReportSection
  | .table t =>
    if within ["color"] t then do
      let colour ← field? boolean? "color" t
      return ⟨colour⟩
    else none
  | .array (colour :: _) => do
    let colour ← boolean? colour
    return ⟨colour⟩
  | _ => none

/-- The layer of a document, if it is one. -/
def read : Reader := fun document => do
  let t ← Toml.read document
  if within ["run", "msgbox", "diagnostics"] t then do
    let run ← field? run? "run" t
    let box ← field? box? "msgbox" t
    let report ← field? report? "diagnostics" t
    return ⟨run, box, report⟩
  else none

/-! ## Writing -/

/-- A field on a line of its own, if it is set. -/
def fieldLine {α : Type} (write : α → String) (name : String) : Option α → String
  | none => ""
  | some a => name ++ " = " ++ write a ++ "\n"

/-- A truth value as it is written. -/
def writeBoolean (b : Bool) : String := if b then "true" else "false"

/-- The text of each section that is there. -/
def sections (l : Layer) : List String :=
  (l.run.map fun s =>
    "[run]\n" ++ fieldLine writeBoolean "debug" s.debug ++
      fieldLine toString "max_call_depth" s.maxCallDepth).toList ++
  (l.box.map fun s =>
    "[msgbox]\n" ++ fieldLine toString "max_timeout" s.maxTimeout ++
      fieldLine Toml.write "default_title" s.defaultTitle).toList ++
  (l.report.map fun s =>
    "[diagnostics]\n" ++ fieldLine writeBoolean "color" s.colour).toList

/-- A layer as a document. -/
def write (l : Layer) : String := "\n".intercalate l.sections

end Layer

/-! ## Loading -/

/-- The layer in a file. -/
def Layer.load (found : Found) : Except LoadFault Layer := Layer.loadWith Layer.read found

/-- The settings in effect. -/
def Settings.load (user directory : Found) (env : Environment) : Except LoadFault Settings :=
  loadWith Layer.read user directory env

end HotkeyScript
