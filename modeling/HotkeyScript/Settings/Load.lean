import HotkeyScript.Decimal.Read
import HotkeyScript.Files
import HotkeyScript.Settings.Layer
import HotkeyScript.Text.Blank
/-!
# Settings — loading

Settings come from four places, each put over the one before: what they are
when nothing sets them, the file of the user, the file of the directory,
and the environment. Either file may be missing; a file that is there is
checked by itself before it counts. A variable of the environment that is not
text counts as one that is not set.
-/

namespace HotkeyScript

/-! ## The environment -/

/-- What a variable of the environment holds. -/
inductive Variable where
  | unset
  /-- it is set, to bytes that are no text -/
  | notText
  | text (value : String)
deriving DecidableEq, Inhabited

namespace Variable

/-- The variable whose text, if it is set, is the given one. -/
def ofOption : Option String → Variable
  | none => unset
  | some value => text value

/-- The text that a variable is set to. -/
def text? : Variable → Option String
  | text value => some value
  | unset | notText => none

theorem text?_eq_some_iff {v : Variable} {value : String} :
    v.text? = some value ↔ v = text value := by
  cases v <;> simp [text?]

end Variable

/-- The variables of the environment that are looked at. -/
structure Environment where
  debug : Variable
  maxCallDepth : Variable
  noColour : Variable
  historyFile : Variable
  noHistory : Variable
deriving DecidableEq, Inhabited

namespace Environment

/-- The environment in which a variable has the text that `get` finds. -/
def ofLookup (get : String → Option String) : Environment where
  debug := .ofOption (get "AHK_DEBUG")
  maxCallDepth := .ofOption (get "AHK_MAX_CALL_DEPTH")
  noColour := .ofOption (get "NO_COLOR")
  historyFile := .ofOption (get "AHK_HISTORY_FILE")
  noHistory := .ofOption (get "AHK_NO_HISTORY")

/-- Whether a value turns debug mode on, in whatever case its letters are; any other
turns it off. -/
def meansOn (value : String) : Bool :=
  -- of these letters only the ASCII capitals are large forms, so to lower those is enough
  ["true", "1", "yes"].contains value.toLower

/-- The call depth that a value means: digits, after at most a plus sign, for
a number below `2 ^ 64`. White space around them does not count. -/
def callDepth? (value : String) : Option Nat := do
  let digits := match Text.trim value.toList with
    | '+' :: cs => cs
    | cs => cs
  let n ← Decimal.natural? 10 digits
  if n < UInt64.size then return n else none

/-- Settings with the environment put over them. -/
def overlay (env : Environment) (s : Settings) : Except InvalidSetting Settings := do
  let depth ← match env.maxCallDepth.text? with
    | none => .ok s.maxCallDepth
    | some value =>
      match callDepth? value with
      | some n => .ok n
      | none => .error (.callDepthText value)
  return { s with
    debug := (env.debug.text?.map meansOn).getD s.debug
    maxCallDepth := depth
    colour := s.colour && (env.noColour.text?.getD "").isEmpty }

end Environment

/-! ## Files, and all four places -/

/-- Why settings could not be loaded. -/
inductive LoadFault where
  | missing
  | unreadable
  | malformed
  | invalid (e : InvalidSetting)
deriving DecidableEq, Inhabited

/-- The layer in a file, as it is read, checked by itself. -/
def Layer.loadWith (read : Layer.Reader) : Found → Except LoadFault Layer
  | .missing => .error .missing
  | .blocked | .unreadable => .error .unreadable
  | .text document =>
    match read document with
    | none => .error .malformed
    -- checked over the settings that nothing changed, not over other layers
    | some layer =>
      match (layer.overlay {}).validate with
      | .error e => .error (.invalid e)
      | .ok () => .ok layer

namespace Settings

/-- Settings with the user's file put over them, which may be missing. -/
def overUser (read : Layer.Reader) (found : Found) (s : Settings) : Except LoadFault Settings :=
  match Layer.loadWith read found with
  | .ok layer => .ok (layer.overlay s)
  | .error .missing => .ok s
  | .error e => .error e

/-- Settings with a directory's file put over them, if there is one. -/
def overDirectory (read : Layer.Reader) (found : Found) (s : Settings) :
    Except LoadFault Settings :=
  if found.isThere then (Layer.loadWith read found).map fun layer => layer.overlay s else .ok s

/-- The settings in effect, if the files are read so. -/
def loadWith (read : Layer.Reader) (user directory : Found) (env : Environment) :
    Except LoadFault Settings := do
  let s ← overUser read user {}
  let s ← overDirectory read directory s
  let s ← (env.overlay s).mapError .invalid
  s.validate.mapError .invalid
  return s

end Settings

/-! ## Where the files are -/

/-- The name of a directory's settings file. -/
def directoryFile : String := "ahk.toml"

/-- The directory of the user's files, in the home directory. -/
def userDirectory (home : String) : String := home ++ "/.ahk"

/-- The path of the user's settings file. -/
def userFile (home : String) : String := userDirectory home ++ "/config.toml"

/-- A name in a directory. -/
def inDirectory (directory name : String) : String :=
  if directory = "" ∨ directory.endsWith "/" then directory ++ name else directory ++ "/" ++ name

end HotkeyScript
