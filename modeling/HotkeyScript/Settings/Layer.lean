import HotkeyScript.Settings.Basic
/-!
# Settings — layers

A layer is what one file sets: any of three sections, with any of their
fields. A layer put over settings changes the fields it names and no others.
Which texts are layers is up to a reader, and nothing here depends on it.
-/

namespace HotkeyScript

/-- What a file sets about running. -/
structure RunSection where
  debug : Option Bool
  maxCallDepth : Option Nat
deriving DecidableEq, Inhabited

/-- What a file sets about message boxes. -/
structure BoxSection where
  maxTimeout : Option Nat
  defaultTitle : Option String
deriving DecidableEq, Inhabited

/-- What a file sets about reports. -/
structure ReportSection where
  colour : Option Bool
deriving DecidableEq, Inhabited

/-- What one file sets. -/
structure Layer where
  run : Option RunSection
  box : Option BoxSection
  report : Option ReportSection
deriving DecidableEq, Inhabited

/-- Settings with a layer put over them. -/
def Layer.overlay (l : Layer) (s : Settings) : Settings where
  debug := (l.run.bind RunSection.debug).getD s.debug
  maxCallDepth := (l.run.bind RunSection.maxCallDepth).getD s.maxCallDepth
  maxTimeout := (l.box.bind BoxSection.maxTimeout).getD s.maxTimeout
  defaultTitle := (l.box.bind BoxSection.defaultTitle).orElse fun _ => s.defaultTitle
  colour := (l.report.bind ReportSection.colour).getD s.colour

/-- How the text of a file is read: the layer that it is, if it is one. The syntax of
the text, the kinds of its values and the names that are refused are all the reader's
to decide. -/
abbrev Layer.Reader := String → Option Layer

end HotkeyScript
