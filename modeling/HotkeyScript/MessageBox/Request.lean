import HotkeyScript.MessageBox.Style
/-!
# Message boxes — requests

What a script asks to have shown. The options are still a number: whether
they mean something is for whoever shows the box to say.
-/

namespace HotkeyScript

/-- A message box that a script asks for; `timeout` is in seconds, after
which the box closes by itself. -/
structure Request where
  title : String
  text : String
  options : Int64
  timeout : Option Float
deriving DecidableEq, Inhabited

/-- The text of a box that is given none. -/
def defaultText : String := "Press OK to continue."

/-- A duration brought between zero and a limit. What is neither below the
one nor above the other stays, which `-0.0` and not-a-number are not. -/
def clampTimeout (limit : Nat) (seconds : Float) : Float :=
  if seconds < 0.0 then 0.0 else if seconds > Float.ofNat limit then Float.ofNat limit else seconds

end HotkeyScript
