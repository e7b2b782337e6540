import HotkeyScript.Proofs.Program.BoxLine
/-!
# Free text behind a command

A text behind `MsgBox` that is neither an expression nor a row of arguments is shown as it
is written (`IsFreeText.program_eq`). The lexer does not know that: it cuts the line at
its commas and resolves the escapes of each part, and the parser puts the parts together
again with a comma between each two. What comes out is the whole text with its escapes
resolved, each comma in its place, because no escape goes over a comma.
-/

namespace HotkeyScript

open Text

/-- What stands in front of the first comma, as an argument is read. -/
def firstPart (t : List Char) : List Char := trim (unescape (t.takeWhile (· != ',')))

/-- **A text that is free text behind a command.** It is one line that does not begin
with a blank, a comma or a comment, begins no expression, has no comment in it, and if it
has a comma, what stands in front of the first is no option. -/
structure IsFreeText (t : List Char) : Prop where
  nonempty : t ≠ []
  unbroken : '\n' ∉ t
  noReturns : '\r' ∉ t
  begins : ∀ c ∈ t.head?, isGap c = false ∧ c ≠ ',' ∧ c ≠ ';'
  noExpression : ∀ c, ['%', c] <+: t → isGap c = false
  noComment : Scan.Attached t
  noOptions : ',' ∈ t → firstPart t ≠ [] ∧ Number.ofArgument? (firstPart t) = none

/-! ## Parts of a text -/

theorem splitOn_of_notMem {t : List Char} (h : ',' ∉ t) : t.splitOn ',' = [t] := by
  have hsplit : ([','].intercalate [t]).splitOn ',' = [t] :=
    List.splitOn_intercalate ',' (List.forall_mem_singleton.2 h) (List.cons_ne_nil t [])
  rwa [List.intercalate_singleton] at hsplit

/-- The first part of a text with a comma is what stands in front of the comma. -/
theorem exists_splitOn_of_mem {t : List Char} (h : ',' ∈ t) :
    ∃ parts, t.splitOn ',' = t.takeWhile (· != ',') :: parts := by
  obtain ⟨front, back, rfl, hfront⟩ := List.eq_append_cons_of_mem h
  have hne : ∀ c ∈ front, (c != ',') = true := fun c hc => bne_iff_ne.2 fun he => hfront (he ▸ hc)
  refine ⟨back.splitOn ',', ?_⟩
  rw [List.takeWhile_append_of_pos hne, List.takeWhile_cons_of_neg (by decide), List.append_nil]
  refine List.splitOnP_append_cons_of_forall_mem (fun c hc => ?_) ',' rfl back
  exact Bool.eq_false_iff.2 fun he => hfront (beq_iff_eq.1 he ▸ hc)

namespace BoxArguments

/-- Arguments that are no options are one text. -/
theorem ofSegments_of_joined {first : Token} {rest : List Token}
    (h : rest ≠ [] → isOptionLike first = false) :
    ofSegments (first :: rest) = .ok { none with text := some (joined (first :: rest)) } := by
  have hno : ¬ (!rest.isEmpty && isOptionLike first) = true := by
    rw [Bool.and_eq_true, Bool.not_eq_true', List.isEmpty_eq_false_iff]
    exact fun ⟨hne, hoption⟩ => Bool.false_ne_true ((h hne).symm.trans hoption)
  rw [ofSegments, if_neg hno]

end BoxArguments

namespace IsFreeText

variable {t : List Char}

theorem isBlank_head? (h : IsFreeText t) : ∀ c ∈ t.head?, isBlank c = false := by
  intro c hc
  obtain ⟨hgap, -⟩ := h.begins c hc
  have hreturn : c ≠ '\r' := fun he => h.noReturns (he ▸ List.mem_of_mem_head? hc)
  rw [isBlank, ← isGap, hgap, Bool.false_or]
  exact beq_eq_false_iff_ne.2 hreturn

theorem dropWhile_eq (h : IsFreeText t) : (' ' :: t).dropWhile isBlank = t := by
  rw [List.dropWhile_cons_of_pos rfl]
  cases t with
  | nil => rfl
  | cons c t => exact List.dropWhile_cons_of_neg (Bool.eq_false_iff.1 (h.isBlank_head? c rfl))

theorem readsExpression_eq (h : IsFreeText t) : Scan.readsExpression t = false := by
  unfold Scan.readsExpression
  split
  next => exact absurd rfl h.nonempty
  next => exact absurd List.mem_cons_self h.unbroken
  next c cs => exact h.noExpression c ⟨cs, rfl⟩
  next => rfl

theorem withoutComma_eq (h : IsFreeText t) : Scan.withoutComma t = t := by
  unfold Scan.withoutComma
  split
  next => exact absurd rfl (h.begins ',' rfl).2.1
  next => rfl

/-- The arguments are the parts between the commas. -/
theorem arguments_eq (h : IsFreeText t) :
    Scan.arguments true (Scan.withoutComma t) = (t.splitOn ',', [], []) := by
  rw [h.withoutComma_eq]
  exact Scan.arguments_eq_splitOn h.unbroken h.noComment
    fun _ hhead => (h.begins ';' hhead).2.2 rfl

/-- What tokens with the parts of the text mean together. -/
theorem exists_ofSegments_eq (h : IsFreeText t) {args : List Token}
    (hargs : args.map (fun u => u.lexeme.toList) = (t.splitOn ',').map unescape) :
    ∃ span, BoxArguments.ofSegments args = .ok { BoxArguments.none with
      text := some (.text (String.ofList (trim (unescape t))) true span) } := by
  obtain ⟨span, hjoined⟩ := BoxArguments.exists_joined_eq args
  rw [hargs, ← unescape_intercalate, List.intercalate_splitOn] at hjoined
  refine ⟨span, ?_⟩
  rw [← hjoined]
  cases args with
  | nil =>
    rw [List.map_nil, eq_comm, List.map_eq_nil_iff] at hargs
    exact absurd hargs (List.splitOn_ne_nil ',' t)
  | cons first rest =>
    refine BoxArguments.ofSegments_of_joined fun hrest => ?_
    by_cases hcomma : ',' ∈ t
    · obtain ⟨parts, hparts⟩ := exists_splitOn_of_mem hcomma
      rw [hparts, List.map_cons, List.map_cons, List.cons.injEq] at hargs
      have hfirst : BoxArguments.content first = firstPart t :=
        congrArg trim hargs.1
      obtain ⟨hne, hnumber⟩ := h.noOptions hcomma
      rw [BoxArguments.isOptionLike, hfirst, hnumber, List.isEmpty_eq_false_iff.2 hne]
      rfl
    · rw [splitOn_of_notMem hcomma, List.map_cons, List.map_cons, List.cons.injEq] at hargs
      exact absurd (List.map_eq_nil_iff.1 hargs.2) hrest

/-- **Free text is shown as it is written.** A line of a command and a free text is a
script of one box that has only a text, with references: the text with its escapes
resolved, its commas in their places, and without the white space around it. -/
theorem program_eq {text : String} (h : IsFreeText text.toList) (file : String) :
    ∃ span span', (⟨file, "MsgBox " ++ text⟩ : Source).program = .ok ⟨[.box
      { BoxArguments.none with
        text := some (.text (String.ofList (trim (unescape text.toList))) true span) } span']⟩ := by
  have hbreak : '\n' ∉ ' ' :: text.toList :=
    List.not_mem_cons_of_ne_of_not_mem (by decide) h.unbroken
  obtain ⟨word, args, hargs, hprogram⟩ := Source.program_of_arguments
    (List.takeWhile_cons_of_neg (by decide)) hbreak h.dropWhile_eq h.readsExpression_eq
  rw [h.arguments_eq, Scan.lexemes_eq_map (Scan.notMem_splitOn h.noReturns)] at hargs
  obtain ⟨span, hbox⟩ := h.exists_ofSegments_eq hargs
  have htext : ("MsgBox " ++ text).toList = commandName ++ ' ' :: text.toList := by
    rw [String.toList_append]
    rfl
  exact ⟨span, _, (hprogram ⟨file, "MsgBox " ++ text⟩ _ htext).2 ⟨_, hbox, rfl⟩⟩

/-- Free text with a backtick in front of a comma, an escape behind one, two commas in a
row and one at the end. -/
theorem program_eq_besideCommas :
    let text := "one`,`ttwo,, 3,"
    trim (unescape text.toList) = "one`,\ttwo,, 3,".toList ∧ IsFreeText text.toList ∧
      ∃ span span', (⟨"box.ahk", "MsgBox " ++ text⟩ : Source).program = .ok ⟨[.box
        { BoxArguments.none with
          text := some (.text (String.ofList (trim (unescape text.toList))) true span) }
        span']⟩ := by
  intro text
  have hfree : IsFreeText text.toList :=
    { nonempty := by decide
      unbroken := by decide
      noReturns := by decide
      begins := fun c hc => by
        have hhead : text.toList.head? = some 'o' := by decide
        obtain rfl : 'o' = c := Option.some.inj (hhead.symm.trans hc)
        decide
      noExpression := fun c ⟨rest, hrest⟩ => by
        have hhead : some '%' = text.toList.head? := congrArg List.head? hrest
        exact absurd hhead (by decide)
      noComment := fun c hc =>
        absurd (hc.subset (List.mem_cons_of_mem c List.mem_cons_self)) (by decide)
      noOptions := fun _ => by decide +kernel }
  exact ⟨by decide +kernel, hfree, IsFreeText.program_eq hfree "box.ahk"⟩

end IsFreeText

end HotkeyScript
