import HotkeyScript.Session.Basic
import HotkeyScript.Text.Character
/-!
# Sessions — entries

An interactive session is fed entries. An entry may take several lines: it
goes on as long as it has more opening than closing braces, where those
inside quotes and behind the `;` of a comment do not count.
-/

namespace HotkeyScript

/-- The name that entries go by. -/
def entryName : String := "<stdin>"

/-- What an entry came to. -/
structure Entry where
  value : Option Value
  echoes : List String
  failure : Option Error

/-- Runs an entry and takes what it echoed. -/
def Session.enter (s : Session) (text : String) : Entry × Session :=
  match s.eval text with
  | (.ok value, s) =>
    let (echoes, s) := s.takeEchoes
    (⟨value, echoes, none⟩, s)
  | (.error e, s) =>
    let (echoes, s) := s.takeEchoes
    (⟨none, echoes, some e⟩, s)

namespace Entry

/-- Opening less closing braces in the rest of a line. `quoted` says whether
the rest begins inside quotes, and `before` is the character in front of
it. -/
def braceBalance (quoted : Bool) (before : Char) : List Char → Int
  | [] => 0
  | c :: cs =>
    if c = '"' then braceBalance (!quoted) c cs
    else if quoted then braceBalance quoted c cs
    else if c = ';' ∧ Text.isGap before then 0
    else if c = '\x7b' then braceBalance quoted c cs + 1
    else if c = '\x7d' then braceBalance quoted c cs - 1
    else braceBalance quoted c cs

/-- Whether an entry needs another line. A line starts outside quotes, as if
behind a space. -/
def needsMore (text : String) : Bool :=
  0 < (Text.lines text.toList).foldl (fun balance line => balance + braceBalance false ' ' line) 0

end Entry

end HotkeyScript
