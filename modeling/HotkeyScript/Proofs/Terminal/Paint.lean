import HotkeyScript.Proofs.Text.Lines
import HotkeyScript.Proofs.Token.Comment
import HotkeyScript.Terminal.Paint
/-!
# Painting without colours

Where colours are off, a report is cut into its lines and these are put together
again. A line that ended with a carriage return and a line feed then ends with the
line feed alone (`toList_paintReport`), so a report stays as it is just if it has no
such break (`paintReport_eq_self_iff`).
-/

namespace HotkeyScript

namespace Text

/-! ## Breaks with a carriage return -/

/-- A line break of a text has a carriage return. -/
def HasReturnBreak (cs : List Char) : Prop := ['\r', '\n'] <:+: cs

instance : DecidablePred HasReturnBreak := fun cs => inferInstanceAs (Decidable (_ <:+: cs))

/-- A text with a line feed for each of its breaks. -/
def plainBreaks : List Char → List Char
  | [] => []
  | '\r' :: '\n' :: cs => '\n' :: plainBreaks cs
  | c :: cs => c :: plainBreaks cs

theorem not_hasReturnBreak_nil : ¬ HasReturnBreak [] := by decide

theorem hasReturnBreak_cons {c : Char} {cs : List Char} :
    HasReturnBreak (c :: cs) ↔ (c = '\r' ∧ cs.head? = some '\n') ∨ HasReturnBreak cs := by
  rw [HasReturnBreak, List.infix_cons_iff]
  refine or_congr ?_ Iff.rfl
  cases cs <;> simp [List.cons_prefix_cons, eq_comm]

/-- The breaks of two texts in a row are those of either, and the one that they may make up
together. -/
theorem hasReturnBreak_append {cs ds : List Char} :
    HasReturnBreak (cs ++ ds) ↔ HasReturnBreak cs ∨ HasReturnBreak ds ∨
      (cs.getLast? = some '\r' ∧ ds.head? = some '\n') := by
  induction cs with
  | nil => simp [not_hasReturnBreak_nil]
  | cons c cs ih =>
    rw [List.cons_append, hasReturnBreak_cons, hasReturnBreak_cons, ih]
    cases cs with
    | nil => simp [not_hasReturnBreak_nil, or_comm]
    | cons d cs => simp [or_assoc]

theorem not_hasReturnBreak_of_notMem {cs : List Char} (h : '\r' ∉ cs) : ¬ HasReturnBreak cs :=
  fun hb => h (hb.subset (by simp))

theorem length_plainBreaks_le (cs : List Char) : (plainBreaks cs).length ≤ cs.length := by
  fun_induction plainBreaks cs with
  | case1 => exact Nat.le_refl _
  | case2 cs ih => exact Nat.succ_le_succ (Nat.le_succ_of_le ih)
  | case3 c cs _ ih => exact Nat.succ_le_succ ih

/-- **A text has plain breaks just if none has a carriage return.** -/
theorem plainBreaks_eq_self_iff {cs : List Char} : plainBreaks cs = cs ↔ ¬ HasReturnBreak cs := by
  fun_induction plainBreaks cs with
  | case1 => simp [not_hasReturnBreak_nil]
  | case2 cs =>
    refine iff_of_false (fun h => ?_) (not_not_intro (hasReturnBreak_cons.2 (.inl ⟨rfl, rfl⟩)))
    have hle := length_plainBreaks_le cs
    have hlength := congrArg List.length h
    simp only [List.length_cons] at hlength
    omega
  | case3 c cs hother ih =>
    have hc : ¬ (c = '\r' ∧ cs.head? = some '\n') := by
      rintro ⟨rfl, hn⟩
      obtain ⟨ds, rfl⟩ := List.head?_eq_some_iff.1 hn
      exact hother ds rfl rfl
    rw [hasReturnBreak_cons, or_iff_right hc, ← ih]
    exact ⟨fun h => (List.cons.inj h).2, congrArg (c :: ·)⟩

/-- **Lines put together again** are the text with plain breaks, if its last line has an
end. -/
theorem wholeLines_lines {cs : List Char} (h : ∀ c ∈ cs.getLast?, c = '\n') :
    wholeLines (lines cs) = plainBreaks cs := by
  have htail {c : Char} {cs : List Char} (h : ∀ d ∈ (c :: cs).getLast?, d = '\n') :
      ∀ d ∈ cs.getLast?, d = '\n' := fun d hd => h d (by
    rw [List.getLast?_cons, Option.mem_def.1 hd]
    rfl)
  fun_induction lines cs with
  | case1 => rfl
  | case2 cs ih =>
    rw [Scan.wholeLines_cons, ih (htail h)]
    rfl
  | case3 cs ih =>
    rw [Scan.wholeLines_cons, ih (htail (htail h))]
    rfl
  | case4 c cs hbreak _ hnil =>
    -- a last line without an end
    obtain rfl := lines_eq_nil_iff.1 hnil
    exact (hbreak (h c rfl)).elim
  | case5 c cs hbreak hother l ls hlines ih =>
    rw [plainBreaks, ← ih (htail h), hlines, Scan.wholeLines_cons, Scan.wholeLines_cons]
    · rfl
    · exact hother

end Text

/-! ## Reports without colours -/

/-- Without colours every line is painted as it is. -/
theorem paintLines_false (ls : List String) : paintLines false ls = ls := by
  fun_induction paintLines false ls with
  | case1 => rfl
  | case2 last => rfl
  | case3 line lines hne ih =>
    have hline : (if line.startsWith "Traceback" then paint false .bold line else line) = line :=
      ite_id ..
    rw [hline, ih]

/-- **What painting without colours makes of a report** is the report with plain breaks. -/
theorem toList_paintReport {report : String} (h : ∀ c ∈ report.toList.getLast?, c = '\n') :
    (paintReport false report).toList = Text.plainBreaks report.toList := by
  rw [← Text.wholeLines_lines h, paintReport, paintLines_false, String.toList_join, wholeLines,
    List.flatMap_map, List.flatMap_map]
  simp only [String.toList_append, String.toList_ofList]
  rfl

/-- **Painting without colours changes nothing** just if no break of the report has a carriage
return. -/
theorem paintReport_eq_self_iff {report : String}
    (h : ∀ c ∈ report.toList.getLast?, c = '\n') :
    paintReport false report = report ↔ ¬ Text.HasReturnBreak report.toList := by
  rw [← String.toList_inj, toList_paintReport h, Text.plainBreaks_eq_self_iff]

end HotkeyScript
