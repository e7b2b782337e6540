import HotkeyScript.Text.Character
import HotkeyScript.Text.Source
/-!
# Text — what the lines of a text are

The lines of a text are found one after another: the first is what stands in front of the
first line feed, without a carriage return at its end, and the others are the lines of what
stands behind it (`exists_lines_eq`). None has a line feed in it
(`lineFeed_notMem_of_mem_lines`).
-/

namespace HotkeyScript

namespace Text

variable {cs : List Char}

theorem line_cons {c : Char} (hc : c ≠ '\n') (cs : List Char) :
    thisLine (c :: cs) = c :: thisLine cs ∧ fromLineEnd (c :: cs) = fromLineEnd cs := by
  have hp : (c != '\n') = true := bne_iff_ne.2 hc
  rw [thisLine, fromLineEnd, List.takeWhile_cons, List.dropWhile_cons, hp]
  exact ⟨rfl, rfl⟩

theorem lines_eq_nil_iff : lines cs = [] ↔ cs = [] := by
  fun_induction lines cs with
  | case1 => exact iff_of_true rfl rfl
  | case2 | case3 | case4 | case5 =>
    exact iff_of_false (List.cons_ne_nil _ _) (List.cons_ne_nil _ _)

/-- The first line of a text, with or without a carriage return at its end, and the
lines behind it. -/
theorem exists_lines_eq (h : cs ≠ []) :
    ∃ l, lines cs = l :: lines (fromLineEnd cs).tail ∧
      (thisLine cs = l ∨ thisLine cs = l ++ ['\r']) := by
  fun_induction lines cs with
  | case1 => exact absurd rfl h
  | case2 cs => exact ⟨[], rfl, .inl rfl⟩
  | case3 cs => exact ⟨[], rfl, .inr rfl⟩
  | case4 c cs hn hr hl ih =>
    obtain ⟨hline, hend⟩ := line_cons hn cs
    obtain rfl := lines_eq_nil_iff.1 hl
    exact ⟨[c], by rw [hend]; rfl, .inl hline⟩
  | case5 c cs hn hr l ls hl ih =>
    obtain ⟨hline, hend⟩ := line_cons hn cs
    have hne : cs ≠ [] := fun hnil => by
      rw [lines_eq_nil_iff.2 hnil] at hl
      cases hl
    obtain ⟨l', hcons, hl'⟩ := ih hne
    rw [hl] at hcons
    cases hcons
    rw [hline, hend]
    refine ⟨c :: l, rfl, hl'.imp (congrArg (c :: ·)) (congrArg (c :: ·))⟩

/-- A line has no line feed in it. -/
theorem lineFeed_notMem_of_mem_lines {l : List Char} (h : l ∈ lines cs) : '\n' ∉ l := by
  fun_induction lines cs generalizing l with
  | case1 => cases h
  | case2 cs ih | case3 cs ih =>
    obtain rfl | h := List.mem_cons.1 h
    · exact List.not_mem_nil
    · exact ih h
  | case4 c cs hbreak _ _ ih =>
    obtain rfl := List.mem_singleton.1 h
    exact fun hmem => hbreak (List.mem_singleton.1 hmem).symm
  | case5 c cs hbreak _ l' ls hlines ih =>
    obtain ⟨hl', hls⟩ := List.forall_mem_cons.1 fun k hk => ih (hlines ▸ hk)
    obtain rfl | h := List.mem_cons.1 h
    · rw [List.mem_cons, not_or]
      exact ⟨fun heq => hbreak heq.symm, hl'⟩
    · exact hls l h

end Text

end HotkeyScript
