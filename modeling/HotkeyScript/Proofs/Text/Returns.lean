import HotkeyScript.Text.Character
import HotkeyScript.Text.Source
/-!
# Text — the two kinds of line break

A line break is a line feed, or a carriage return with a line feed behind it.
`ReturnsAtBreaks` says of a text that its carriage returns stand nowhere but in
breaks, and the induction it comes with reads such a text character by character
and break by break. `withoutReturns` makes all breaks plain, and a class of
characters reads up to the same place in either text.
-/

namespace HotkeyScript.Text

/-- A text without its carriage returns. -/
def withoutReturns (cs : List Char) : List Char := cs.filter (· != '\r')

/-- A text with a carriage return in front of each line feed. -/
def withReturns (cs : List Char) : List Char :=
  cs.flatMap fun c => if c = '\n' then ['\r', '\n'] else [c]

/-- A carriage return stands nowhere but in front of a line feed. -/
inductive ReturnsAtBreaks : List Char → Prop where
  | nil : ReturnsAtBreaks []
  | char {c : Char} {cs : List Char} : c ≠ '\r' → ReturnsAtBreaks cs → ReturnsAtBreaks (c :: cs)
  | break {cs : List Char} : ReturnsAtBreaks cs → ReturnsAtBreaks ('\r' :: '\n' :: cs)

/-! ## Without carriage returns -/

@[simp] theorem withoutReturns_nil : withoutReturns [] = [] := rfl

@[simp] theorem withoutReturns_return (cs : List Char) :
    withoutReturns ('\r' :: cs) = withoutReturns cs := rfl

@[simp] theorem withoutReturns_cons {c : Char} (h : c ≠ '\r') (cs : List Char) :
    withoutReturns (c :: cs) = c :: withoutReturns cs :=
  List.filter_cons_of_pos (bne_iff_ne.2 h)

@[simp] theorem withoutReturns_append (cs ds : List Char) :
    withoutReturns (cs ++ ds) = withoutReturns cs ++ withoutReturns ds := List.filter_append ..

theorem withoutReturns_eq_self {cs : List Char} (h : '\r' ∉ cs) : withoutReturns cs = cs := by
  refine List.filter_eq_self.2 fun c hc => bne_iff_ne.2 ?_
  rintro rfl
  exact h hc

theorem withoutReturns_mono {cs ds : List Char} (h : cs <+: ds) :
    withoutReturns cs <+: withoutReturns ds := h.filter _

/-- With carriage returns put in and taken out again, a text is what it was. -/
theorem withoutReturns_withReturns {cs : List Char} (h : '\r' ∉ cs) :
    withoutReturns (withReturns cs) = cs := by
  induction cs with
  | nil => rfl
  | cons c cs ih =>
    obtain ⟨hc, hcs⟩ := not_or.1 (mt List.mem_cons.2 h)
    have hb : withoutReturns (if c = '\n' then ['\r', '\n'] else [c]) = [c] := by
      split
      next hn => rw [hn]; rfl
      next => exact withoutReturns_eq_self fun hm => hc (List.mem_singleton.1 hm)
    rw [withReturns, List.flatMap_cons, withoutReturns_append, hb]
    exact congrArg (c :: ·) (ih hcs)

/-- And those that were put in stand in breaks. -/
theorem returnsAtBreaks_withReturns {cs : List Char} (h : '\r' ∉ cs) :
    ReturnsAtBreaks (withReturns cs) := by
  induction cs with
  | nil => exact .nil
  | cons c cs ih =>
    obtain ⟨hc, hcs⟩ := not_or.1 (mt List.mem_cons.2 h)
    rw [withReturns, List.flatMap_cons]
    split
    next => exact .break (ih hcs)
    next => exact .char (Ne.symm hc) (ih hcs)

/-! ## Carriage returns at breaks -/

namespace ReturnsAtBreaks

theorem tail {c : Char} {cs : List Char} (h : ReturnsAtBreaks (c :: cs)) : ReturnsAtBreaks cs := by
  cases h with
  | char _ h => exact h
  | «break» h => exact .char (by decide) h

theorem of_append {cs ds : List Char} (h : ReturnsAtBreaks (cs ++ ds)) : ReturnsAtBreaks ds := by
  induction cs with
  | nil => exact h
  | cons c cs ih => exact ih h.tail

theorem dropWhile {cs : List Char} (h : ReturnsAtBreaks cs) (p : Char → Bool) :
    ReturnsAtBreaks (cs.dropWhile p) := by
  rw [← List.takeWhile_append_dropWhile (p := p) (l := cs)] at h
  exact h.of_append

/-- What stands behind a front that goes over no line feed, and is not followed
by one, has no carriage return in front of it. -/
theorem notMem_of_append {cs ds : List Char} (h : ReturnsAtBreaks (cs ++ ds)) (hcs : '\n' ∉ cs)
    (hds : ds.head? ≠ some '\n') : '\r' ∉ cs := by
  induction cs with
  | nil => exact List.not_mem_nil
  | cons c cs ih =>
    have hcs' : '\n' ∉ cs := fun hm => hcs (List.mem_cons_of_mem c hm)
    refine fun hm => (List.mem_cons.1 hm).elim ?_ (ih h.tail hcs')
    rintro rfl
    rw [List.cons_append] at h
    generalize he : cs ++ ds = es at h
    cases h with
    | char hc _ => exact hc rfl
    | «break» h =>
      -- the line feed of the break stands in what follows, or at its start
      cases cs with
      | nil => exact hds (congrArg List.head? he)
      | cons d cs => exact hcs' (List.mem_cons.2 (.inl (List.cons.inj he).1.symm))

end ReturnsAtBreaks

/-! ## Classes -/

/-- A class with the carriage return reads over breaks of either kind alike. -/
theorem takeWhile_withoutReturns {p : Char → Bool} (hp : p '\r' = true) (cs : List Char) :
    (withoutReturns cs).takeWhile p = withoutReturns (cs.takeWhile p) := by
  induction cs with
  | nil => rfl
  | cons c cs ih =>
    by_cases hc : c = '\r'
    · rw [hc, withoutReturns_return, ih, List.takeWhile_cons_of_pos hp, withoutReturns_return]
    · rw [withoutReturns_cons hc, List.takeWhile_cons, List.takeWhile_cons, ih]
      split
      · rw [withoutReturns_cons hc]
      · rfl

theorem dropWhile_withoutReturns {p : Char → Bool} (hp : p '\r' = true) (cs : List Char) :
    (withoutReturns cs).dropWhile p = withoutReturns (cs.dropWhile p) := by
  induction cs with
  | nil => rfl
  | cons c cs ih =>
    by_cases hc : c = '\r'
    · rw [hc, withoutReturns_return, ih, List.dropWhile_cons_of_pos hp]
    · rw [withoutReturns_cons hc, List.dropWhile_cons, List.dropWhile_cons, ih]
      split
      · rfl
      · rw [withoutReturns_cons hc]

section Narrow

variable {p : Char → Bool} {cs : List Char} (hr : p '\r' = false) (hn : p '\n' = false)

include hr

/-- A class without it stops in front of it. -/
theorem notMem_takeWhile (cs : List Char) : '\r' ∉ cs.takeWhile p := by
  intro hm
  have h := List.all_eq_true.1 (List.all_takeWhile (p := p) (l := cs)) '\r' hm
  rw [hr] at h
  cases h

include hn

/-- And so a class without either stops in front of a break of either kind. -/
theorem ReturnsAtBreaks.takeWhile_withoutReturns (h : ReturnsAtBreaks cs) :
    (withoutReturns cs).takeWhile p = cs.takeWhile p := by
  induction h with
  | nil => rfl
  | char hc _ ih =>
    rw [withoutReturns_cons hc, List.takeWhile_cons, List.takeWhile_cons, ih]
  | «break» =>
    rw [withoutReturns_return, withoutReturns_cons (by decide), List.takeWhile_cons,
      List.takeWhile_cons, hr, hn]
    rfl

theorem ReturnsAtBreaks.dropWhile_withoutReturns (h : ReturnsAtBreaks cs) :
    (withoutReturns cs).dropWhile p = withoutReturns (cs.dropWhile p) := by
  induction h with
  | nil => rfl
  | char hc _ ih =>
    rw [withoutReturns_cons hc, List.dropWhile_cons, List.dropWhile_cons, ih]
    split
    · rfl
    · rw [withoutReturns_cons hc]
  | «break» =>
    rw [withoutReturns_return, withoutReturns_cons (by decide), List.dropWhile_cons,
      List.dropWhile_cons, hr, hn, if_neg Bool.false_ne_true, if_neg Bool.false_ne_true,
      withoutReturns_return, withoutReturns_cons (by decide)]

end Narrow

/-! ## Lines -/

@[simp] theorem thisLine_withoutReturns (cs : List Char) :
    thisLine (withoutReturns cs) = withoutReturns (thisLine cs) :=
  takeWhile_withoutReturns rfl cs

@[simp] theorem fromLineEnd_withoutReturns (cs : List Char) :
    fromLineEnd (withoutReturns cs) = withoutReturns (fromLineEnd cs) :=
  dropWhile_withoutReturns rfl cs

theorem dropReturns_cons {c : Char} (h : c ≠ '\r') (cs : List Char) :
    dropReturns (c :: cs) = c :: dropReturns cs := by
  have hc : (c :: cs).reverse.dropWhile (· == '\r') =
      cs.reverse.dropWhile (· == '\r') ++ [c] := by
    rw [List.reverse_cons, List.dropWhile_append]
    split
    next he =>
      rw [List.isEmpty_iff.1 he, List.dropWhile_cons_of_neg (by simpa using h)]
      rfl
    next => rfl
  rw [dropReturns, hc, List.reverse_append]
  rfl

/-- A text without carriage returns has none at its end. -/
theorem dropReturns_withoutReturns (cs : List Char) :
    dropReturns (withoutReturns cs) = withoutReturns cs := by
  induction cs with
  | nil => rfl
  | cons c cs ih =>
    by_cases hc : c = '\r'
    · rw [hc, withoutReturns_return, ih]
    · rw [withoutReturns_cons hc, dropReturns_cons hc, ih]

/-- The one carriage return of a line is the one at its end. -/
theorem ReturnsAtBreaks.dropReturns_thisLine {cs : List Char} (h : ReturnsAtBreaks cs) :
    dropReturns (thisLine cs) = withoutReturns (thisLine cs) := by
  induction h with
  | nil => rfl
  | @char c cs hc _ ih =>
    rw [thisLine, List.takeWhile_cons]
    split
    · rw [dropReturns_cons hc, withoutReturns_cons hc]
      exact congrArg _ ih
    · rfl
  | «break» => rfl

/-- **Either kind of break makes the same lines.** -/
theorem ReturnsAtBreaks.lines_withoutReturns {cs : List Char} (h : ReturnsAtBreaks cs) :
    lines (withoutReturns cs) = lines cs := by
  induction h with
  | nil => rfl
  | @char c cs hc _ ih =>
    rw [withoutReturns_cons hc]
    by_cases hn : c = '\n'
    · rw [hn, lines, lines, ih]
    · have other (ds : List Char) : ∀ es, c = '\r' → ds = '\n' :: es → False :=
        fun _ he => absurd he hc
      rw [lines, lines, ih]
      · exact hn
      · exact other cs
      · exact hn
      · exact other _
  | «break» _ ih => rw [withoutReturns_return, withoutReturns_cons (by decide), lines, lines, ih]

end HotkeyScript.Text
