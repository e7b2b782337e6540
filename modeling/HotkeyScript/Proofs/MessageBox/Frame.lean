import HotkeyScript.MessageBox.Drawing
import HotkeyScript.Proofs.Number.Digits
import HotkeyScript.Proofs.Token.Comment
/-!
# Message boxes — when a drawing is a rectangle

A drawing is made of rows between the sides of a frame, filled up to the widest of them
(`Drawing.frameRows`). The text of a box is cut at its line breaks before it is drawn and
its other rows have none, so each of these rows is one line of the drawing. The title is
not cut: a line break in it splits its row in two lines, of which the first is too short.
So the drawing is a rectangle just if the title has no line break
(`Drawing.isRectangle_draw_iff`).
-/

namespace HotkeyScript

/-! ## Texts without line breaks -/

namespace Decimal

theorem break_notMem_zeros (n : Nat) : '\n' ∉ (zeros n).toList := by
  rw [zeros, String.toList_ofList, List.mem_replicate]
  exact fun hmem => absurd hmem.2 (by decide)

namespace Layout

theorem break_notMem_scaled (layout : Layout) (d : Scaled) : '\n' ∉ (layout.scaled d).toList := by
  have hdigits := notMem_toDigits (c := '\n') rfl d.digits
  have htake (n : Nat) : '\n' ∉ (Nat.toDigits 10 d.digits).take n :=
    fun hmem => hdigits (List.mem_of_mem_take hmem)
  have hdrop (n : Nat) : '\n' ∉ (Nat.toDigits 10 d.digits).drop n :=
    fun hmem => hdigits (List.mem_of_mem_drop hmem)
  unfold scaled
  dsimp only
  generalize (if d.digits = 0 then (0 : Int) else _) = lead
  simp only [apply_ite String.toList, String.toList_append, String.toList_ofList]
  split
  next =>
    split
    next =>
      simp only [List.mem_append, not_or]
      exact ⟨⟨hdigits, break_notMem_zeros _⟩, by split <;> decide⟩
    next =>
      split <;> simp only [List.mem_append, not_or]
      next => exact ⟨⟨htake _, by decide⟩, hdrop _⟩
      next => exact ⟨⟨by decide, break_notMem_zeros _⟩, hdigits⟩
  next =>
    simp only [List.mem_append, not_or]
    refine ⟨⟨⟨htake _, ?_⟩, by decide⟩, notMem_toString rfl (by decide) _⟩
    split
    next => decide
    next => rw [List.mem_append, not_or]; exact ⟨by decide, hdrop _⟩

/-- **What a float is written with has no line break in it.** -/
theorem break_notMem_render (layout : Layout) (x : Float) :
    '\n' ∉ (layout.render x).toList := by
  have hscaled := layout.break_notMem_scaled ((Binary.ofBits x.toBits).shortest layout.tie)
  unfold render
  dsimp only
  split
  next =>
    split
    next => rw [String.toList_append, List.mem_append, not_or]; exact ⟨by decide, hscaled⟩
    next => exact hscaled
  next =>
    split
    next => decide
    next => split <;> decide

end Layout

end Decimal

namespace Drawing

/-- The rows of a text have no line break in them. -/
theorem break_notMem_rows {cs : List Char} : ∀ row ∈ rows cs, '\n' ∉ row := by
  induction cs with
  | nil => simp [rows]
  | cons c cs ih =>
    unfold rows
    split
    next => exact List.forall_mem_cons.2 ⟨List.not_mem_nil, ih⟩
    next hc =>
      have hc : '\n' ∉ [c] := fun hmem => hc (List.mem_singleton.1 hmem).symm
      split
      next => exact List.forall_mem_singleton.2 hc
      next first others heq =>
        obtain ⟨hfirst, hothers⟩ := List.forall_mem_cons.1 (heq ▸ ih)
        refine List.forall_mem_cons.2 ⟨?_, hothers⟩
        rw [List.mem_cons, not_or]
        exact ⟨fun heq => hc (heq ▸ List.mem_singleton_self _), hfirst⟩

/-! ## The rows of a drawing -/

theorem break_notMem_labels (b : Buttons) : ∀ label ∈ b.labels, '\n' ∉ label.toList := by
  cases b <;> decide

theorem break_notMem_buttons (default i : Nat) {labels : List String}
    (h : ∀ label ∈ labels, '\n' ∉ label.toList) :
    ∀ row ∈ buttons default i labels, '\n' ∉ row.toList := by
  induction labels generalizing i with
  | nil => exact fun _ hmem => absurd hmem List.not_mem_nil
  | cons label labels ih =>
    obtain ⟨hlabel, hlabels⟩ := List.forall_mem_cons.1 h
    rw [buttons, List.forall_mem_cons]
    refine ⟨?_, ih (i + 1) hlabels⟩
    split <;> simp only [String.toList_append, List.mem_append, not_or]
    next => exact ⟨⟨by decide, hlabel⟩, by decide⟩
    next => exact ⟨⟨by decide, hlabel⟩, by decide⟩

theorem notMem_intercalate {c : Char} {sep : List Char} {ls : List (List Char)} (hsep : c ∉ sep)
    (hls : ∀ l ∈ ls, c ∉ l) : c ∉ sep.intercalate ls := by
  induction ls with
  | nil => exact List.not_mem_nil
  | cons l ls ih =>
    obtain ⟨hl, hls⟩ := List.forall_mem_cons.1 hls
    cases ls with
    | nil => rwa [List.intercalate_singleton]
    | cons l' ls =>
      rw [List.intercalate_cons_cons, List.mem_append, List.mem_append, not_or, not_or]
      exact ⟨⟨hl, hsep⟩, ih hls⟩

theorem break_notMem_textRows (icon : Option Icon) (text : String) :
    ∀ row ∈ textRows icon text, '\n' ∉ row.toList := by
  have hrows : ∀ row ∈ (rows text.toList).map String.ofList, '\n' ∉ row.toList := by
    refine List.forall_mem_map.2 fun row hrow => ?_
    rw [String.toList_ofList]
    exact break_notMem_rows row hrow
  unfold textRows
  dsimp only
  split
  next => exact hrows
  next => exact fun _ hmem => absurd hmem List.not_mem_nil
  next icon first others heq =>
    obtain ⟨hfirst, hothers⟩ := List.forall_mem_cons.1 (heq ▸ hrows)
    have hsign : '\n' ∉ icon.sign.toList := by cases icon <;> decide
    refine List.forall_mem_cons.2 ⟨?_, List.forall_mem_map.2 fun row hrow => ?_⟩
    · simp only [String.toList_append, List.mem_append, not_or]
      exact ⟨⟨hsign, by decide⟩, hfirst⟩
    · rw [String.toList_append, List.mem_append, not_or]
      exact ⟨by decide, hothers row hrow⟩

/-- **The rows below the rule have no line break in them**, whatever the text is. -/
theorem break_notMem_body (r : Request) (s : Style) : ∀ row ∈ body r s, '\n' ∉ row.toList := by
  intro row hrow
  simp only [body, List.mem_append, List.mem_cons, List.not_mem_nil, or_false] at hrow
  obtain (hrow | rfl | rfl) | hrow := hrow
  · exact break_notMem_textRows _ _ row hrow
  · decide
  · rw [String.toList_intercalate]
    exact notMem_intercalate (by decide) (List.forall_mem_map.2
      (break_notMem_buttons s.default 0 (break_notMem_labels s.buttons)))
  · cases htimeout : r.timeout with
    | none =>
      rw [htimeout] at hrow
      exact absurd hrow List.not_mem_nil
    | some seconds =>
      rw [htimeout, timeoutRows, List.mem_singleton] at hrow
      simp only [hrow, String.toList_append, List.mem_append, not_or]
      exact ⟨⟨by decide, Decimal.Layout.break_notMem_render _ _⟩, by decide⟩

/-! ## A drawing as rows -/

/-- A horizontal row of the frame. -/
def edge (left right : Char) (width : Nat) : List Char :=
  left :: (List.replicate (width + 2) '─' ++ [right])

/-- What stands between the sides of the frame in a row. -/
def inner (width : Nat) (row : String) : List Char :=
  ' ' :: ((pad width row).toList ++ [' '])

/-- A row between the sides of the frame. -/
def side (width : Nat) (row : String) : List Char := '│' :: (inner width row ++ ['│'])

/-- The number of characters between the blanks inside the frame. -/
def innerWidth (r : Request) (s : Style) : Nat := width (r.title :: body r s)

/-- The rows that a drawing is made of. -/
def frameRows (r : Request) (s : Style) : List (List Char) :=
  edge '┌' '┐' (innerWidth r s) :: side (innerWidth r s) r.title ::
    edge '├' '┤' (innerWidth r s) :: ((body r s).map (side (innerWidth r s)) ++
      [edge '└' '┘' (innerWidth r s)])

theorem toList_line (left right : Char) (width : Nat) :
    (line left right width).toList = edge left right width ++ ['\n'] := by
  rw [line, String.toList_ofList, edge, List.cons_append, List.cons_append, List.append_assoc]
  rfl

theorem toList_framed (width : Nat) (row : String) :
    (framed (pad width row)).toList = side width row ++ ['\n'] := by
  simp only [framed, side, inner, String.toList_append, List.cons_append, List.append_assoc]
  rfl

/-- Without colours, a drawing is its rows with their breaks. -/
theorem toList_draw (r : Request) (s : Style) :
    (draw false r s).toList = wholeLines (frameRows r s) := by
  have hbody (width : Nat) (rows : List String) :
      (String.join (rows.map fun row => framed (pad width row))).toList =
        wholeLines (rows.map (side width)) := by
    rw [String.toList_join, wholeLines, List.flatMap_map, List.flatMap_map]
    simp only [toList_framed]
  have hpaint (row : String) : paint false .bold row = row := rfl
  unfold draw
  dsimp only
  simp only [String.toList_append, toList_line, hpaint, toList_framed, hbody]
  simp only [frameRows, innerWidth, wholeLines, List.flatMap_cons, List.flatMap_append,
    List.flatMap_nil, List.append_assoc, List.append_nil]

/-! ## Widths -/

theorem length_le_width {row : String} {rows : List String} (h : row ∈ rows) :
    row.length ≤ width rows := by
  induction rows with
  | nil => exact absurd h List.not_mem_nil
  | cons first rows ih =>
    change row.length ≤ max first.length (width rows)
    rcases List.mem_cons.1 h with rfl | h
    · exact Nat.le_max_left _ _
    · exact Nat.le_trans (ih h) (Nat.le_max_right _ _)

theorem length_pad {width : Nat} {row : String} (h : row.length ≤ width) :
    (pad width row).toList.length = width := by
  rw [pad, String.toList_append, String.toList_ofList, List.length_append, List.length_replicate,
    String.length_toList]
  omega

/-! ## Rectangles -/

/-- A line of a framed drawing: it has no break in it and a given number of characters,
of which the first and the last belong to the frame. -/
structure IsRow (width : Nat) (row : List Char) : Prop where
  unbroken : '\n' ∉ row
  length_eq : row.length = width
  framed : ∃ left inside right, row = left :: (inside ++ [right]) ∧
    left ∈ ['┌', '│', '├', '└'] ∧ right ∈ ['┐', '│', '┤', '┘']

/-- **A text that is a framed rectangle**: cut at its line breaks it gives lines of one
width, each between two characters of the frame. -/
def IsRectangle (text : String) : Prop :=
  ∃ width rows, text.toList = wholeLines rows ∧ ∀ row ∈ rows, IsRow width row

theorem isRow_edge {left right : Char} (hleft : left ∈ ['┌', '│', '├', '└'])
    (hright : right ∈ ['┐', '│', '┤', '┘']) (width : Nat) :
    IsRow (width + 4) (edge left right width) where
  unbroken := by
    have hframe : '\n' ∉ ['┌', '│', '├', '└'] ++ ['┐', '│', '┤', '┘'] := by decide
    rw [edge, List.mem_cons, List.mem_append, List.mem_singleton, not_or, not_or]
    refine ⟨fun heq => hframe (heq ▸ List.mem_append_left _ hleft), fun hmem => ?_,
      fun heq => hframe (heq ▸ List.mem_append_right _ hright)⟩
    exact absurd (List.eq_of_mem_replicate hmem) (by decide)
  length_eq := by
    rw [edge, List.length_cons, List.length_append, List.length_replicate, List.length_singleton]
  framed := ⟨left, _, right, rfl, hleft, hright⟩

theorem isRow_side {width : Nat} {row : String} (hrow : '\n' ∉ row.toList)
    (hle : row.length ≤ width) : IsRow (width + 4) (side width row) where
  unbroken := by
    have hpad : '\n' ∉ (pad width row).toList := by
      rw [pad, String.toList_append, String.toList_ofList, List.mem_append, not_or]
      exact ⟨hrow, fun hmem => absurd (List.eq_of_mem_replicate hmem) (by decide)⟩
    simp only [side, inner, List.mem_cons, List.mem_append, List.not_mem_nil, or_false, not_or]
    exact ⟨by decide, ⟨by decide, hpad, by decide⟩, by decide⟩
  length_eq := by
    simp only [side, inner, List.length_cons, List.length_append, List.length_nil,
      length_pad hle]
  framed := ⟨'│', _, '│', rfl, by decide, by decide⟩

/-- Every row of the frame but that of the title is a line of it, and so is that one where
the title has no break. -/
theorem isRow_of_mem_frameRows {r : Request} {s : Style} (htitle : '\n' ∉ r.title.toList) :
    ∀ row ∈ frameRows r s, IsRow (innerWidth r s + 4) row := by
  have hle {row : String} (hmem : row ∈ r.title :: body r s) : row.length ≤ innerWidth r s :=
    length_le_width hmem
  simp only [frameRows, List.forall_mem_cons, List.forall_mem_append, List.forall_mem_map]
  refine ⟨isRow_edge (by decide) (by decide) _, isRow_side htitle (hle List.mem_cons_self),
    isRow_edge (by decide) (by decide) _, fun row hrow => ?_,
    isRow_edge (by decide) (by decide) _, fun _ hmem => absurd hmem List.not_mem_nil⟩
  exact isRow_side (break_notMem_body r s row hrow) (hle (List.mem_cons_of_mem _ hrow))

/-- Lines are cut off a text one way only. -/
theorem exists_of_wholeLines_eq {ls : List (List Char)} {line rest : List Char}
    (hls : ∀ l ∈ ls, '\n' ∉ l) (hline : '\n' ∉ line)
    (h : wholeLines ls = line ++ '\n' :: rest) :
    ∃ ls', ls = line :: ls' ∧ wholeLines ls' = rest := by
  cases ls with
  | nil => simp [wholeLines] at h
  | cons l ls =>
    rw [Scan.wholeLines_cons] at h
    have hl := Scan.line_append (hls l List.mem_cons_self) (.inr ⟨wholeLines ls, rfl⟩)
    have hl' := Scan.line_append hline (.inr ⟨rest, rfl⟩)
    rw [h] at hl
    obtain ⟨rfl, hrest⟩ : line = l ∧ '\n' :: rest = '\n' :: wholeLines ls :=
      ⟨hl'.1.symm.trans hl.1, hl'.2.symm.trans hl.2⟩
    exact ⟨ls, rfl, (List.cons.inj hrest).2.symm⟩

/-- A title that is broken breaks its row, whose first part falls short of the width. -/
theorem not_isRectangle_of_break {r : Request} {s : Style} (h : '\n' ∈ r.title.toList) :
    ¬ IsRectangle (draw false r s) := by
  rintro ⟨width, rows, hdraw, hrows⟩
  obtain ⟨front, back, htitle, hfront⟩ := List.eq_append_cons_of_mem h
  have hunbroken : ∀ row ∈ rows, '\n' ∉ row := fun row hrow => (hrows row hrow).unbroken
  rw [toList_draw, frameRows, Scan.wholeLines_cons] at hdraw
  have htop : IsRow (innerWidth r s + 4) (edge '┌' '┐' (innerWidth r s)) :=
    isRow_edge (by decide) (by decide) _
  obtain ⟨rows, rfl, hrest⟩ := exists_of_wholeLines_eq hunbroken htop.unbroken hdraw.symm
  obtain ⟨hfirst, hrows⟩ := List.forall_mem_cons.1 hrows
  have hside : side (innerWidth r s) r.title = ('│' :: ' ' :: front) ++ '\n' ::
      (back ++ List.replicate (innerWidth r s - r.title.length) ' ' ++ [' ', '│']) := by
    simp only [side, inner, pad, String.toList_append, String.toList_ofList, htitle,
      List.cons_append, List.append_assoc]
    rfl
  rw [Scan.wholeLines_cons, hside, List.append_assoc, List.cons_append] at hrest
  have hshort : '\n' ∉ '│' :: ' ' :: front := by
    rw [List.mem_cons, List.mem_cons, not_or, not_or]
    exact ⟨by decide, by decide, hfront⟩
  obtain ⟨rows, rfl, -⟩ := exists_of_wholeLines_eq
    (fun row hrow => (hrows row hrow).unbroken) hshort hrest
  -- the second line has what stands in front of the break only
  have hwidth : (edge '┌' '┐' (innerWidth r s)).length = ('│' :: ' ' :: front).length :=
    hfirst.length_eq.trans (hrows _ List.mem_cons_self).length_eq.symm
  rw [htop.length_eq, List.length_cons, List.length_cons] at hwidth
  have hle : r.title.length ≤ innerWidth r s := length_le_width List.mem_cons_self
  rw [← String.length_toList, htitle, List.length_append, List.length_cons] at hle
  omega

/-- **A drawing without colours is a framed rectangle just if its title has no line
break**, whatever the text, the timeout and the style are. -/
theorem isRectangle_draw_iff (r : Request) (s : Style) :
    IsRectangle (draw false r s) ↔ '\n' ∉ r.title.toList :=
  ⟨fun h hbreak => not_isRectangle_of_break hbreak h,
    fun h => ⟨_, frameRows r s, toList_draw r s, isRow_of_mem_frameRows h⟩⟩

/-- A title of two lines, the shorter of them first on its row. -/
theorem not_isRectangle_brokenTitle : ¬ IsRectangle
    (draw false ⟨"a\nb", "t", 0, none⟩ ⟨.ok, none, 0, .application, false, by decide⟩) :=
  not_isRectangle_of_break (by decide)

end Drawing

end HotkeyScript
