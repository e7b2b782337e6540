/-!
# Text — positions and spans

A position counts characters from the start of a text, and names the line
and column they fall on. `Position.after` is the one step every position
is reached by, and `Position.past` walks a whole text. A span is a pair of
positions; `Span.merge` is the least span covering two.
-/

namespace HotkeyScript

/-- A point in a text: characters before it, then its line and column,
both counted from one. -/
structure Position where
  offset : Nat
  line : Nat
  column : Nat
deriving DecidableEq, Inhabited

/-- The position before the first character. -/
def Position.start : Position := ⟨0, 1, 1⟩

/-- The position just behind one character standing at `p`. -/
def Position.after (p : Position) (c : Char) : Position :=
  if c = '\n' then ⟨p.offset + 1, p.line + 1, 1⟩ else ⟨p.offset + 1, p.line, p.column + 1⟩

/-- The position behind a whole text that starts at `p`. -/
def Position.past (p : Position) (cs : List Char) : Position := cs.foldl Position.after p

/-- From `start` up to, and without, `stop`. -/
structure Span where
  start : Position
  stop : Position
deriving DecidableEq, Inhabited

/-- The empty span at one position. -/
def Span.point (p : Position) : Span := ⟨p, p⟩

/-- The span from the earlier start to the later stop; on equal offsets
the first span's end is kept. -/
def Span.merge (a b : Span) : Span where
  start := if b.start.offset < a.start.offset then b.start else a.start
  stop := if b.stop.offset > a.stop.offset then b.stop else a.stop

@[simp] theorem Position.past_nil (p : Position) : p.past [] = p := rfl

@[simp] theorem Position.past_cons (p : Position) (c : Char) (cs : List Char) :
    p.past (c :: cs) = (p.after c).past cs := rfl

/-- Walking two texts one after the other is walking their concatenation. -/
theorem Position.past_append (p : Position) (cs ds : List Char) :
    p.past (cs ++ ds) = (p.past cs).past ds := List.foldl_append

@[simp] theorem Position.offset_after (p : Position) (c : Char) :
    (p.after c).offset = p.offset + 1 := by
  unfold Position.after; split <;> rfl

/-- An offset advances by the number of characters walked over. -/
theorem Position.offset_past (p : Position) (cs : List Char) :
    (p.past cs).offset = p.offset + cs.length := by
  induction cs generalizing p with
  | nil => rfl
  | cons c cs ih => rw [past_cons, ih, offset_after, List.length_cons]; omega

end HotkeyScript
