import HotkeyScript.Fault
import HotkeyScript.Program.Statement
import HotkeyScript.Text.Source
/-!
# Errors and tracebacks

An error is a cause, the span it was noticed at, and the traceback of that
moment: one frame for the module and one for each call that was under way,
the outermost first. Its report shows the traceback and then one summary
line.
-/

namespace HotkeyScript

/-- The name of the outermost scope. -/
def moduleName : String := "<module>"

/-- A place in a traceback: a line of a script, and the scope it ran in. -/
structure Frame where
  script : String
  line : Nat
  context : String
  lineText : String
deriving DecidableEq, Inhabited

/-- The frame of a scope that has come to a position of its script. -/
def Frame.at (source : Source) (context : String) (p : Position) : Frame :=
  ⟨source.name, p.line, context, source.lineText p.line⟩

/-- The two lines of a frame in a report. -/
def Frame.report (f : Frame) : String :=
  " File: '" ++ f.script ++ "', line " ++ toString f.line ++ ", in " ++ f.context ++ "\n" ++
    "    " ++ f.lineText ++ "\n"

/-- The frames of a report under their heading. -/
def traceback (frames : List Frame) : String :=
  "Traceback (most recent call last):\n" ++ String.join (frames.map Frame.report)

/-- Why a script failed: in its tokens, in its grammar, or at run time. -/
inductive Cause where
  | lexical (fault : LexicalFault)
  | grammar (mistake : Mistake) (atLineEnd : Bool)
  | runtime (fault : Fault)
deriving DecidableEq, Inhabited

/-- The heading of a summary line. -/
def Cause.title : Cause → String
  | lexical _ => "Illegal Character"
  | grammar _ true => "Unexpected EOL"
  | grammar _ false => "Invalid Syntax"
  | runtime _ => "Runtime Error"

/-- The sentence of a summary line. -/
def Cause.message : Cause → String
  | lexical fault => fault.message
  | grammar mistake _ => mistake.message
  | runtime fault => fault.message

/-- A failure with its place. -/
structure Error where
  cause : Cause
  span : Span
  frames : List Frame
deriving DecidableEq, Inhabited

namespace Error

/-- The whole report of an error. -/
def report (e : Error) : String :=
  traceback e.frames ++ e.cause.title ++ ": " ++ e.cause.message ++ "\n"

/-- An error that was noticed before the script ran. -/
def beforeRun (source : Source) (cause : Cause) (span : Span) : Error :=
  ⟨cause, span, [.at source moduleName span.start]⟩

/-- A fault among the tokens of a script. -/
def ofLexical (source : Source) (e : LexicalError) : Error :=
  beforeRun source (.lexical e.fault) e.span

/-- A mistake in the grammar of a script. -/
def ofGrammar (source : Source) (e : GrammarError) : Error :=
  beforeRun source (.grammar e.mistake e.atLineEnd) e.span

end Error

/-- The tokens of a source. -/
def Source.tokens (source : Source) : Except Error (List Token) :=
  (tokenize source.text).mapError (Error.ofLexical source)

/-- The program that a source's tokens make up. -/
def Source.programOf (source : Source) (tokens : List Token) : Except Error Program :=
  (Program.ofTokens tokens).mapError (Error.ofGrammar source)

/-- The program of a source. -/
def Source.program (source : Source) : Except Error Program := do
  let tokens ← source.tokens
  source.programOf tokens

end HotkeyScript
