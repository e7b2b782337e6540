import HotkeyScript.Program.Mistake
/-!
# Programs — rules over tokens

A rule reads a nonempty front of a token list, or fails. That what is left
is shorter stands in the result's type, so that rules may be repeated and
may call each other on what is left. The end of the script is the empty
list.
-/

namespace HotkeyScript

/-- The kind of the next token. -/
def nextKind : List Token → TokenKind
  | [] => .fileEnd
  | t :: _ => t.kind

/-- A mistake noticed at the next token. -/
def Mistake.here (mistake : Mistake) (ts : List Token) : Failure := ⟨mistake, ts.head?⟩

/-- What is left behind the line ends in front. -/
def skipLineEnds (ts : List Token) : List Token := ts.dropWhile (·.kind == .lineEnd)

theorem length_skipLineEnds (ts : List Token) : (skipLineEnds ts).length ≤ ts.length :=
  (List.dropWhile_sublist _).length_le

/-- Behind line ends and a token, less is left. -/
theorem length_lt_of_skipLineEnds {ts rest : List Token} {t : Token}
    (h : skipLineEnds ts = t :: rest) : (skipLineEnds rest).length < ts.length := by
  have hts := length_skipLineEnds ts
  rw [h, List.length_cons] at hts
  exact Nat.lt_of_le_of_lt (length_skipLineEnds rest) hts

theorem length_tail_le (ts : List Token) : ts.tail.length ≤ ts.length :=
  (List.tail_sublist ts).length_le

/-! ## What was read -/

/-- A value read from the front of a list whose length is `bound`, or one
less than `bound` where reading nothing is allowed. -/
structure Parsed (α : Type) (bound : Nat) where
  value : α
  rest : List Token
  shorter : rest.length < bound

namespace Parsed

variable {α β : Type} {bound : Nat}

/-- One token is read. -/
def one (value : α) (t : Token) (ts : List Token) : Parsed α (t :: ts).length :=
  ⟨value, ts, Nat.lt_succ_self _⟩

/-- Nothing is read. -/
def nothing (value : α) (ts : List Token) : Parsed α (ts.length + 1) :=
  ⟨value, ts, Nat.lt_succ_self _⟩

/-- What was read makes up another value. -/
def as (p : Parsed α bound) (value : β) : Parsed β bound := ⟨value, p.rest, p.shorter⟩

/-- Another value is made of the one that was read. -/
def map (f : α → β) (p : Parsed α bound) : Parsed β bound := p.as (f p.value)

/-- Something was read where nothing would have been allowed too. -/
def relax (p : Parsed α bound) : Parsed α (bound + 1) :=
  ⟨p.value, p.rest, Nat.lt_succ_of_lt p.shorter⟩

/-- What was read behind a token is read together with it. -/
def behind (t : Token) {ts : List Token} (p : Parsed α ts.length) : Parsed α (t :: ts).length :=
  p.relax

/-- What was read behind a token, if there was one, is read together with
it. -/
def behindHead {ts : List Token} (p : Parsed α ts.tail.length) : Parsed α ts.length :=
  ⟨p.value, p.rest, Nat.lt_of_lt_of_le p.shorter (length_tail_le ts)⟩

/-- What was read behind line ends is read together with them. -/
def behindLineEnds {ts : List Token} (p : Parsed α (skipLineEnds ts).length) :
    Parsed α ts.length :=
  ⟨p.value, p.rest, Nat.lt_of_lt_of_le p.shorter (length_skipLineEnds ts)⟩

/-- Two things were read one behind the other; the value is the second's. -/
def followedBy (p : Parsed α bound) (q : Parsed β p.rest.length) : Parsed β bound :=
  ⟨q.value, q.rest, Nat.lt_trans q.shorter p.shorter⟩

/-- The same where the second may have been nothing. -/
def extendedBy (p : Parsed α bound) (q : Parsed β (p.rest.length + 1)) : Parsed β bound :=
  ⟨q.value, q.rest, Nat.lt_of_lt_of_le q.shorter p.shorter⟩

end Parsed

/-! ## Rules -/

/-- A way to read a nonempty front of a token list. -/
abbrev Rule (α : Type) : Type := (ts : List Token) → Except Failure (Parsed α ts.length)

/-- A way to read a front of a token list, possibly nothing of it. -/
abbrev OptionalRule (α : Type) : Type :=
  (ts : List Token) → Except Failure (Parsed α (ts.length + 1))

namespace Rule

/-- One token of a kind. -/
def expect (kind : TokenKind) (mistake : Mistake) : Rule Token
  | [] => .error (mistake.here [])
  | t :: ts => if t.kind = kind then .ok (.one t t ts) else .error (mistake.here (t :: ts))

/-- Refuses to go deeper. -/
def tooDeep {α : Type} : Rule α := fun ts => .error (Mistake.nestedTooDeeply.here ts)

/-- `item (sep item)*` folded to the left, after the first item. -/
def chain {α β : Type} (sep? : TokenKind → Option β) (join : β → α → α → α) (item : Rule α)
    (left : α) : OptionalRule α
  | [] => .ok (.nothing left [])
  | t :: ts =>
    match sep? t.kind with
    | none => .ok (.nothing left (t :: ts))
    | some sep => do
      let right ← item ts
      let more ← chain sep? join item (join sep left right.value) right.rest
      return ((right.extendedBy more).behind t).relax
termination_by ts => ts.length
decreasing_by exact Nat.lt_succ_of_lt right.shorter

/-- `item ("," item)* close`, with the closing token. -/
def items {α : Type} (item : Rule α) (close : TokenKind) (mistake : Mistake) :
    Rule (List α × Token) := fun ts => do
  let first ← item ts
  if nextKind first.rest = .comma then
    let more ← items item close mistake first.rest.tail
    return (first.followedBy more.behindHead).as (first.value :: more.value.1, more.value.2)
  else
    let last ← expect close mistake first.rest
    return (first.followedBy last).as ([first.value], last.value)
termination_by ts => ts.length
decreasing_by exact Nat.lt_of_le_of_lt (length_tail_le _) first.shorter

/-- Items up to and with the closing token, or that token alone. -/
def listed {α : Type} (item : Rule α) (close : TokenKind) (mistake : Mistake) :
    Rule (List α × Token)
  | [] => items item close mistake []
  | t :: ts =>
    if t.kind = close then .ok (.one ([], t) t ts) else items item close mistake (t :: ts)

end Rule

end HotkeyScript
