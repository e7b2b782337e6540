import HotkeyScript.Main
import HotkeyScript.Proofs.Plan.Basic
import HotkeyScript.Proofs.Number.Whole
import HotkeyScript.Proofs.Plan.Run
import HotkeyScript.Proofs.Value.Display
import HotkeyScript.Proofs.Plan.Ends
import HotkeyScript.Proofs.Plan.Clause
import HotkeyScript.Proofs.Plan.Level
import HotkeyScript.Proofs.Plan.Trail
import HotkeyScript.Proofs.Plan.Halting
import HotkeyScript.Proofs.Termination
import HotkeyScript.Proofs.OrderedMap
import HotkeyScript.Proofs.Scope.Binding
import HotkeyScript.Proofs.Scope.Reached
import HotkeyScript.Proofs.Scope.ReadBack
import HotkeyScript.Proofs.Scope.Invariant
import HotkeyScript.Proofs.Scope.Writes
import HotkeyScript.Proofs.Number.Checked
import HotkeyScript.Proofs.Isolation
import HotkeyScript.Proofs.Session.Text
import HotkeyScript.Proofs.Quiescence
import HotkeyScript.Proofs.Plan.Record
import HotkeyScript.Proofs.CallLimit
import HotkeyScript.Proofs.DebugMode
import HotkeyScript.Proofs.Plan.Point
import HotkeyScript.Proofs.Plan.Origin
import HotkeyScript.Proofs.Session.History
import HotkeyScript.Proofs.Session.Trail
import HotkeyScript.Proofs.Machine.Access
import HotkeyScript.Proofs.Arrays
import HotkeyScript.Proofs.Value.Key
import HotkeyScript.Proofs.Tables
import HotkeyScript.Proofs.Traceback
import HotkeyScript.Proofs.Provenance
import HotkeyScript.Proofs.Token.Break
import HotkeyScript.Proofs.Token.Lines
import HotkeyScript.Proofs.Token.Form
import HotkeyScript.Proofs.Token.Cover
import HotkeyScript.Proofs.Program.Phrase
import HotkeyScript.Proofs.Program.Reading
import HotkeyScript.Proofs.Program.Leaves
import HotkeyScript.Proofs.Program.Spans
import HotkeyScript.Proofs.Text.Lines
import HotkeyScript.Proofs.Text.Returns
import HotkeyScript.Proofs.Token.Returns
import HotkeyScript.Proofs.Program.Likeness
import HotkeyScript.Proofs.Program.Agreement
import HotkeyScript.Proofs.Machine.Likeness
import HotkeyScript.Proofs.Machine.Agreement
import HotkeyScript.Proofs.Session.Likeness
import HotkeyScript.Proofs.LineBreaks
import HotkeyScript.Proofs.ThreeWays
import HotkeyScript.Proofs.Reset
import HotkeyScript.Proofs.DeadCode
import HotkeyScript.Proofs.Entries
import HotkeyScript.Proofs.Settings.Precedence
import HotkeyScript.Proofs.Token.Ahead
import HotkeyScript.Proofs.Token.Comment
import HotkeyScript.Proofs.Comments
import HotkeyScript.Proofs.Continuation
import HotkeyScript.Proofs.Token.Written
import HotkeyScript.Proofs.Program.Greedy
import HotkeyScript.Proofs.Program.Gives
import HotkeyScript.Proofs.Program.Grouping
import HotkeyScript.Proofs.Program.Access
import HotkeyScript.Proofs.Program.Ways
import HotkeyScript.Proofs.Program.ElseIf
import HotkeyScript.Proofs.Program.Nesting
import HotkeyScript.Proofs.Interpolation
import HotkeyScript.Proofs.Token.Number
import HotkeyScript.Proofs.Token.Illegal
import HotkeyScript.Proofs.Token.Given
import HotkeyScript.Proofs.Token.Literal
import HotkeyScript.Proofs.Session.Expression
import HotkeyScript.Proofs.Quotation
import HotkeyScript.Proofs.Number.Digits
import HotkeyScript.Proofs.Number.ReadBack
import HotkeyScript.Proofs.Number.Argument
import HotkeyScript.Proofs.MessageBox.Options
import HotkeyScript.Proofs.MessageBox.Frame
import HotkeyScript.Proofs.FreeText
import HotkeyScript.Proofs.TrailingComments
import HotkeyScript.Proofs.Value.Equality
import HotkeyScript.Proofs.Terminal.Paint
import HotkeyScript.Proofs.Program.Names
import HotkeyScript.Proofs.Program.Objections
import HotkeyScript.Proofs.Plan.Names
import HotkeyScript.Proofs.Terminal.Report
import HotkeyScript.Proofs.Painting
