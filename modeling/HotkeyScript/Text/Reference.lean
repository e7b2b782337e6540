import HotkeyScript.Text.Character
/-!
# Text — references in interpolated text

A percent sign, a name and a percent sign refer to a value. One scan from
the left finds the references; every other character, a percent sign
included, stands for itself.
-/

namespace HotkeyScript.Text

/-- A character of a text, or a reference in it. -/
inductive Part where
  | char (c : Char)
  | reference (name : List Char)
deriving DecidableEq, Inhabited

/-- The text that a part was read from. -/
def Part.text : Part → List Char
  | char c => [c]
  | reference name => '%' :: name ++ ['%']

/-- The name that a percent sign in front of this text begins a reference
to, and what is left behind it. -/
def reference? (cs : List Char) : Option (List Char × { rest : List Char // rest.length < cs.length }) :=
  match h : cs.dropWhile isNameChar with
  | c :: rest =>
    if c = '%' ∧ cs.takeWhile isNameChar ≠ [] then
      some (cs.takeWhile isNameChar, ⟨rest, length_lt_of_dropWhile h⟩)
    else none
  | [] => none

/-- The name, the percent sign behind it and what is left make up the
text. -/
theorem reference?_append {cs name rest : List Char} {h : rest.length < cs.length}
    (hr : reference? cs = some (name, ⟨rest, h⟩)) : name ++ '%' :: rest = cs := by
  unfold reference? at hr
  split at hr
  next c tail hd =>
    split at hr
    next hc =>
      cases hr
      rw [← hc.1, ← hd]
      exact List.takeWhile_append_dropWhile
    next => cases hr
  next => cases hr

/-- The parts of a text. -/
def parts : List Char → List Part
  | [] => []
  | c :: cs =>
    match if c = '%' then reference? cs else none with
    | some (name, ⟨rest, _⟩) => .reference name :: parts rest
    | none => .char c :: parts cs
termination_by cs => cs.length
decreasing_by
  · exact Nat.lt_succ_of_lt (by assumption)
  · exact Nat.lt_succ_self _

/-- **Nothing is lost.** The texts of the parts concatenate to the text. -/
theorem text_parts (cs : List Char) : (parts cs).flatMap Part.text = cs := by
  fun_induction parts cs with
  | case1 => rfl
  | case2 c cs name rest h hr ih =>
    split at hr
    next hc =>
      have := reference?_append hr
      simp [Part.text, ih, hc, this]
    next => cases hr
  | case3 c cs hr ih => simp [Part.text, ih]

example : parts ['%', 'a', '%', 'b', '%'] = [.reference ['a'], .char 'b', .char '%'] := by
  decide +kernel

end HotkeyScript.Text
