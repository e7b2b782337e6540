import HotkeyScript.Toml.Quoted
import HotkeyScript.Toml.Scalar
/-!
# TOML — documents

A document is read line by line into entries and headers, and these are
then put together. A table can be opened by one header only. Dotted keys
make tables on their way, which further dotted keys may extend but no
header may open; the tables on the way to a header may still be opened.
-/

namespace HotkeyScript.Toml

/-! ## Keys -/

/-- A character of a key without quotes. -/
def isBare (c : Char) : Bool := c.isAlphanum || c == '_' || c == '-'

/-- One part of a key. -/
def keyPart : Read String := fun cs =>
  match shortText cs with
  | some r => some r
  | none =>
    let word := cs.takeWhile isBare
    if word.isEmpty then none else some (String.ofList word, cs.dropWhile isBare)

/-- How deep values may nest, and how many parts a key may have. -/
def maxDepth : Nat := 79

/-- One or more parts of a key, between points. Gaps may stand around
each. -/
def keyParts (cs : List Char) : Option (List String × List Char) :=
  match keyPart (skipGap cs) with
  | none => none
  | some (part, rest) =>
    match skipGap rest with
    | '.' :: rest =>
      -- always true, for a part and the point were read
      if _h : rest.length < cs.length then (keyParts rest).map fun r => (part :: r.1, r.2) else none
    | rest => some ([part], rest)
termination_by cs.length

/-- The parts of a key, each of which but the last stands for a table. -/
def key : Read (List String) := fun cs =>
  (keyParts cs).filter fun r => r.1.length ≤ maxDepth

/-- An entry: the tables on the way to it, its own key, and its value. -/
structure Entry where
  path : List String
  key : String
  value : Value
deriving Inhabited

/-- An entry whose value is read by `value`, and the gap behind it. -/
def entry (value : Read Value) : Read Entry := fun cs => do
  let (parts, cs) ← key cs
  match cs with
  | '=' :: cs =>
    let (v, cs) ← value (skipGap cs)
    return (⟨parts.dropLast, parts.getLast?.getD "", v⟩, skipGap cs)
  | _ => none

/-! ## Putting tables together -/

/-- How a table came to be. -/
inductive Origin where
  /-- on the way to a header -/
  | passed
  /-- on the way to an entry -/
  | dotted
  /-- by its own header -/
  | opened
deriving DecidableEq

/-- A part of a document that is being put together. -/
inductive Node where
  | value (v : Value)
  | table (origin : Origin) (entries : List (String × Node))
  | tables (items : List (List (String × Node)))

/-- The entries of a table that is being put together. -/
abbrev Nodes : Type := List (String × Node)

mutual

/-- A part as a value. -/
def Node.toValue : Node → Value
  | value v => v
  | table _ entries => .table (Node.toTable entries)
  | tables items => .array (Node.toTables items)

/-- Entries as a table. -/
def Node.toTable : Nodes → Table
  | [] => []
  | (k, n) :: es => (k, n.toValue) :: Node.toTable es

/-- Tables as values. -/
def Node.toTables : List Nodes → List Value
  | [] => []
  | es :: more => .table (Node.toTable es) :: Node.toTables more

end

namespace Nodes

/-- Gives a key another part. -/
def replace (es : Nodes) (k : String) (n : Node) : Nodes :=
  es.map fun e => if e.1 = k then (k, n) else e

/-- Adds an entry whose key is new. -/
def add (k : String) (n : Node) (es : Nodes) : Option Nodes :=
  match es.lookup k with
  | none => some (es ++ [(k, n)])
  | some _ => none

/-- Changes the table that a dotted path leads to; tables that are missing
are made. -/
def atDotted (change : Nodes → Option Nodes) : List String → Nodes → Option Nodes
  | [], es => change es
  | k :: path, es =>
    match es.lookup k with
    | none => (atDotted change path []).map fun sub => es ++ [(k, .table .dotted sub)]
    -- a table that a header opened, or led through, is closed to dotted keys
    | some (.table .dotted sub) =>
      (atDotted change path sub).map fun sub => replace es k (.table .dotted sub)
    | some _ => none

/-- Changes the table that a header's path leads to, in the last of several
tables; tables that are missing are made. -/
def atHeader (change : Nodes → Option Nodes) : List String → Nodes → Option Nodes
  | [], es => change es
  | k :: path, es =>
    match es.lookup k with
    | none => (atHeader change path []).map fun sub => es ++ [(k, .table .passed sub)]
    | some (.table origin sub) =>
      (atHeader change path sub).map fun sub => replace es k (.table origin sub)
    | some (.tables items) =>
      (atHeader change path (items.getLast?.getD [])).map fun sub =>
        replace es k (.tables (items.dropLast ++ [sub]))
    | some (.value _) => none

/-- Adds an entry. -/
def put (e : Entry) : Nodes → Option Nodes := atDotted (add e.key (.value e.value)) e.path

/-- Opens a table. -/
def openTable (k : String) (es : Nodes) : Option Nodes :=
  match es.lookup k with
  | none => some (es ++ [(k, .table .opened [])])
  | some (.table .passed sub) => some (replace es k (.table .opened sub))
  | some _ => none

/-- Opens a further one of several tables. -/
def openFurther (k : String) (es : Nodes) : Option Nodes :=
  match es.lookup k with
  | none => some (es ++ [(k, .tables [[]])])
  | some (.tables items) => some (replace es k (.tables (items ++ [[]])))
  | some _ => none

end Nodes

/-! ## Values -/

/-- The text behind gaps, line breaks and comments. `comment` says whether
it begins inside a comment. -/
def skipLines (comment : Bool) : List Char → List Char
  | [] => []
  | '\r' :: '\n' :: cs => skipLines false cs
  | '\n' :: cs => skipLines false cs
  | c :: cs =>
    if comment then if isPlain c then skipLines true cs else c :: cs
    else if isGap c then skipLines false cs
    else if c = '#' then skipLines true cs
    else c :: cs

/-- The rest of an array, behind its opening bracket or a comma. -/
def arrayRest (item : Read Value) (cs : List Char) : Option (List Value × List Char) :=
  match skipLines false cs with
  | ']' :: rest => some ([], rest)
  | start => do
    let (v, rest) ← item start
    match skipLines false rest with
    | ']' :: rest => return ([v], rest)
    -- a comma may stand behind the last item too
    | ',' :: rest =>
      if _h : rest.length < cs.length then
        let (vs, rest) ← arrayRest item rest
        return (v :: vs, rest)
      else none
    | _ => none
termination_by cs.length

/-- Entries between commas, and the closing brace. -/
def inlineEntries (item : Read Value) (cs : List Char) : Option (List Entry × List Char) := do
  let (e, rest) ← entry item cs
  match rest with
  | '\x7d' :: rest => return ([e], rest)
  | ',' :: rest =>
    if _h : rest.length < cs.length then
      let (es, rest) ← inlineEntries item rest
      return (e :: es, rest)
    else none
  | _ => none
termination_by cs.length

/-- The rest of a table on one line, behind its opening brace. -/
def inlineRest (item : Read Value) (cs : List Char) : Option (Table × List Char) :=
  match skipGap cs with
  | '\x7d' :: rest => some ([], rest)
  | start => do
    let (es, rest) ← inlineEntries item start
    let nodes ← es.foldlM (fun nodes e => Nodes.put e nodes) []
    return (Node.toTable nodes, rest)

/-- A value in which arrays and tables nest at most `depth` deep. -/
def value : Nat → Read Value
  | 0, cs => (text cs).map (fun r => (.text r.1, r.2)) <|> scalar cs
  | depth + 1, cs =>
    match cs with
    | '[' :: rest => (arrayRest (value depth) rest).map fun r => (.array r.1, r.2)
    | '\x7b' :: rest => (inlineRest (value depth) rest).map fun r => (.table r.1, r.2)
    | cs => (text cs).map (fun r => (.text r.1, r.2)) <|> scalar cs

/-! ## Lines -/

/-- What a line of a document says. -/
inductive Line where
  | blank
  | entry (e : Entry)
  | header (path : List String) (key : String)
  | further (path : List String) (key : String)
deriving Inhabited

/-- The end of a line, behind a gap and a comment, which may be missing. -/
def lineEnd (cs : List Char) : Option (List Char) :=
  let cs := skipGap cs
  let cs := if cs.head? = some '#' then cs.dropWhile isPlain else cs
  match cs with
  | [] => some []
  | cs => lineBreak? cs

/-- A header, behind its opening brackets. -/
def headerRest (cs : List Char) (closing : List Char) : Option (List String × List Char) := do
  let (parts, rest) ← key cs
  if closing.isPrefixOf rest then return (parts, rest.drop closing.length) else none

/-- What a line says, and what is left behind the line. -/
def line : Read Line := fun cs =>
  match skipGap cs with
  | '[' :: '[' :: rest => do
    let (parts, rest) ← headerRest rest [']', ']']
    let rest ← lineEnd rest
    return (.further parts.dropLast (parts.getLast?.getD ""), rest)
  | '[' :: rest => do
    let (parts, rest) ← headerRest rest [']']
    let rest ← lineEnd rest
    return (.header parts.dropLast (parts.getLast?.getD ""), rest)
  | start =>
    match lineEnd start with
    | some rest => some (.blank, rest)
    | none => do
      let (e, rest) ← entry (value maxDepth) start
      let rest ← lineEnd rest
      return (.entry e, rest)

/-- The lines of a document. -/
def lines (cs : List Char) : Option (List Line) :=
  if cs.isEmpty then some []
  else
    match line cs with
    | none => none
    | some (l, rest) =>
      -- always true, for a line takes its break, or all that is left
      if _h : rest.length < cs.length then (lines rest).map (l :: ·) else none
termination_by cs.length

/-- The tables that lines make up. `current` leads to the table that was
opened last. -/
def assemble (current : List String) (es : Nodes) : List Line → Option Nodes
  | [] => some es
  | .blank :: ls => assemble current es ls
  | .entry e :: ls => do
    let es ← Nodes.atHeader (Nodes.put e) current es
    assemble current es ls
  | .header path k :: ls => do
    let es ← Nodes.atHeader (Nodes.openTable k) path es
    assemble (path ++ [k]) es ls
  | .further path k :: ls => do
    let es ← Nodes.atHeader (Nodes.openFurther k) path es
    assemble (path ++ [k]) es ls

/-- The table that a document stands for, if it is one. A byte order mark in
front is not part of it. -/
def read (document : String) : Option Table := do
  let cs := match document.toList with
    | '\uFEFF' :: cs => cs
    | cs => cs
  let ls ← lines cs
  let es ← assemble [] [] ls
  return Node.toTable es

end HotkeyScript.Toml
