/-!
# Settings

What can be set about running scripts, and which values are acceptable.
-/

namespace HotkeyScript

/-- The longest time, in seconds, that a message box may be shown. -/
def maxBoxTimeout : Nat := 2147483

/-- The settings in effect, each with the value it has when nothing sets
it. -/
structure Settings where
  debug : Bool := false
  maxCallDepth : Nat := 200
  maxTimeout : Nat := maxBoxTimeout
  /-- the title of a box that is given none; without one it is the name of
  the script -/
  defaultTitle : Option String := none
  colour : Bool := true
deriving DecidableEq, Inhabited

/-- A value that cannot be used. -/
inductive InvalidSetting where
  | noCallDepth
  | timeoutTooLong
  /-- the environment's call depth, as it was given, is no number -/
  | callDepthText (given : String)
deriving DecidableEq, Inhabited

namespace InvalidSetting

/-- The name of what was set. -/
def field : InvalidSetting → String
  | noCallDepth => "run.max_call_depth"
  | timeoutTooLong => "msgbox.max_timeout"
  | callDepthText _ => "AHK_MAX_CALL_DEPTH"

/-- What is wrong with its value. -/
def reason : InvalidSetting → String
  | noCallDepth => "must be at least 1"
  | timeoutTooLong => "must not exceed " ++ toString maxBoxTimeout
  | callDepthText given => "'" ++ given ++ "' is not a positive integer"

/-- The sentence for a value that cannot be used. -/
def message (e : InvalidSetting) : String :=
  "Invalid value for '" ++ e.field ++ "': " ++ e.reason

end InvalidSetting

/-- Checks settings; the call depth is looked at first. -/
def Settings.validate (s : Settings) : Except InvalidSetting Unit :=
  if s.maxCallDepth = 0 then .error .noCallDepth
  else if s.maxTimeout > maxBoxTimeout then .error .timeoutTooLong
  else .ok ()

end HotkeyScript
