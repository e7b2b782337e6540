/-!
# Text — backtick escapes

A backtick in front of `n`, `t`, `r` or another backtick stands for a line
feed, a tab, a carriage return or a backtick. In front of anything else,
and at the end of a text, it stands for itself.
-/

namespace HotkeyScript.Text

/-- The text that a text with backtick escapes stands for. -/
def unescape : List Char → List Char
  | '\x60' :: 'n' :: cs => '\n' :: unescape cs
  | '\x60' :: 't' :: cs => '\t' :: unescape cs
  | '\x60' :: 'r' :: cs => '\r' :: unescape cs
  | '\x60' :: '\x60' :: cs => '\x60' :: unescape cs
  | c :: cs => c :: unescape cs
  | [] => []

/-- A text without a backtick stands for itself. -/
theorem unescape_eq_self {cs : List Char} (h : '\x60' ∉ cs) : unescape cs = cs := by
  induction cs with
  | nil => rfl
  | cons c cs ih =>
    have hc : c ≠ '\x60' := fun e => h (by simp [e])
    have hcs : unescape cs = cs := ih fun hm => h (List.mem_cons_of_mem _ hm)
    unfold unescape
    split <;> simp_all

end HotkeyScript.Text
