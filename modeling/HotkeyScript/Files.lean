/-!
# Files

What is found under a path, and a tree of files that paths are looked up
in. A path is walked part by part, from the root of the tree or, when it
starts with a slash, from outside. What is not a directory has nothing below
it. Outside the tree there are directories, of which nothing else is known.
-/

namespace HotkeyScript

/-- What is found under a path. -/
inductive Found where
  | missing
  /-- the path cannot be followed: a part before the last is no directory, a
  part or the whole is too long, or the text is no path at all -/
  | blocked
  /-- a directory, or a file that holds no text -/
  | unreadable
  | text (s : String)
deriving DecidableEq, Inhabited

/-- Whether there is anything under the path. -/
def Found.isThere : Found → Bool
  | missing | blocked => false
  | unreadable | text _ => true

/-- The text under the path. -/
def Found.text? : Found → Option String
  | text s => some s
  | _ => none

/-! ## Paths -/

/-- The most bytes that a part of a path has. -/
def maxPartBytes : Nat := 255

/-- The most bytes that a path has. -/
def maxPathBytes : Nat := 4095

namespace Files

/-- The parts of a path, between its slashes. -/
def parts (path : String) : List String := path.splitOn "/"

/-- Whether a text may be a path: it is not too long, and no character in it
has the code zero. -/
def isPath (path : String) : Bool :=
  path.utf8ByteSize ≤ maxPathBytes && !path.toList.contains '\x00'

/-- Whether a part leads nowhere else. -/
def isIdle (part : String) : Bool := part == "" || part == "."

/-- The parts in front of the last part that leads somewhere, idle ones at
their end left out. -/
def frontParts (path : String) : List String :=
  (((parts path).reverse.dropWhile isIdle).drop 1 |>.dropWhile isIdle).reverse

end Files

/-- The directory that a path's last part is in; the current one when the
path has no other part. -/
def directoryOf (path : String) : String :=
  let directory := "/".intercalate (Files.frontParts path)
  if directory ≠ "" then directory else if path.startsWith "/" then "/" else "."

/-! ## A tree of files -/

/-- Directories and files by their paths from the root. A file without text
is one whose bytes are no text. -/
structure Files where
  directories : List (List String)
  files : List (List String × Option String)
deriving DecidableEq, Inhabited

/-- A place that a path leads to. -/
inductive Place where
  | missing
  | blocked
  | directory (parts : List String)
  | file (content : Option String)
  /-- a directory outside the tree -/
  | outside
deriving DecidableEq, Inhabited

namespace Files

/-- Whether a path from the root leads to a directory, as every path in front
of another one does. -/
def isDirectory (t : Files) (path : List String) : Bool :=
  -- a file under the path makes a directory of it without being listed
  path.isEmpty || t.directories.any (path.isPrefixOf ·) ||
    t.files.any fun f => path.isPrefixOf f.1 && f.1 != path

/-- What is at a path from the root. -/
def at? (t : Files) (parts : List String) : Place :=
  if t.isDirectory parts then .directory parts
  else
    match t.files.lookup parts with
    | some content => .file content
    | none => .missing

/-- The place that one part leads to. -/
def step (t : Files) : Place → String → Place
  | .directory parts, p =>
    if isIdle p then .directory parts
    else if p = ".." then
      if parts.isEmpty then .outside else .directory parts.dropLast
    else if p.utf8ByteSize > maxPartBytes then .blocked
    else t.at? (parts ++ [p])
  | .outside, p =>
    if isIdle p || p == ".." then .outside
    else if p.utf8ByteSize > maxPartBytes then .blocked
    else .missing
  | .file _, _ | .blocked, _ => .blocked
  | .missing, _ => .missing

/-- Walks parts of a path from a place. -/
def walk (t : Files) (place : Place) (parts : List String) : Place := parts.foldl t.step place

/-- The place that a path is walked from. -/
def origin (path : String) : Place := if path.startsWith "/" then .outside else .directory []

/-- The place that a path leads to. The empty path leads nowhere. -/
def place (t : Files) (path : String) : Place :=
  if !isPath path then .blocked
  else if path = "" then .missing
  else t.walk (origin path) (parts path)

/-- What is found under a path. -/
def find (t : Files) (path : String) : Found :=
  match t.place path with
  | .missing => .missing
  | .blocked => .blocked
  | .directory _ | .outside | .file none => .unreadable
  | .file (some s) => .text s

/-! ## Writing -/

/-- Makes directories along parts of a path, as far as that goes: the tree
after that, and the place that the parts lead to in it. -/
def makeDirectories (t : Files) : Place → List String → Files × Place
  | place, [] => (t, place)
  | place, p :: ps =>
    match place, t.step place p with
    | .directory parts, .missing =>
      makeDirectories { t with directories := t.directories ++ [parts ++ [p]] }
        (.directory (parts ++ [p])) ps
    -- what is made outside is as little known as what was there
    | .outside, .missing => makeDirectories t .outside ps
    | _, next => makeDirectories t next ps

/-- Whether there is anything at a path after the directories in front of it
were made and, if `wrote`, a file was written there. Only a new name in a
directory can be the name of a new file. -/
def leaves (t : Files) (path : String) (wrote : Bool) : Bool :=
  let (t, front) := t.makeDirectories (origin path) (frontParts path)
  (t.find path).isThere ||
    (wrote && isPath path && t.step front ((parts path).getLast?.getD "") == .missing)

end Files

end HotkeyScript
