import HotkeyScript.Proofs.Number.Digits
import HotkeyScript.Proofs.Plan.Names
import HotkeyScript.Proofs.Terminal.Paint
/-!
# Reports — which breaks have a carriage return

A report ends each of its lines with a line feed. A carriage return is in front of one only
in the texts that a report shows as they are: the name of a script in its frames, and a
value in its summary line (`Error.Tidy.hasReturnBreak_report`). What else it shows are
words, numbers and lines of a script without the white space around them (`Error.Tidy`).
-/

namespace HotkeyScript

namespace Text

variable {cs ds front back : List Char}

/-! ## Texts in a row -/

/-- Behind a text without carriage returns the breaks are those of what follows. -/
theorem hasReturnBreak_append_of_notMem (h : '\r' ∉ cs) :
    HasReturnBreak (cs ++ ds) ↔ HasReturnBreak ds := by
  rw [hasReturnBreak_append, or_iff_right (not_hasReturnBreak_of_notMem h)]
  exact or_iff_left fun hjoint => h (List.mem_of_getLast? hjoint.1)

/-- In the middle of a line the breaks are those of the text there, if those around it have
none. -/
theorem hasReturnBreak_between {rest : List Char} (hfront : '\r' ∉ front) (hback : '\r' ∉ back)
    (hhead : ∃ c ∈ back.head?, c ≠ '\n') (hrest : ¬ HasReturnBreak rest) :
    HasReturnBreak (front ++ (cs ++ (back ++ rest))) ↔ HasReturnBreak cs := by
  obtain ⟨c, hc, hne⟩ := hhead
  rw [hasReturnBreak_append_of_notMem hfront, hasReturnBreak_append,
    hasReturnBreak_append_of_notMem hback, List.head?_append, Option.mem_def.1 hc, or_iff_left]
  rintro (h | ⟨-, h⟩)
  · exact hrest h
  · exact hne (Option.some.inj h)

/-- The breaks of some whole lines and of what follows are those of each. -/
theorem hasReturnBreak_flatten_append {lines : List (List Char)}
    (h : ∀ l ∈ lines, l.getLast? = some '\n') :
    HasReturnBreak (lines.flatten ++ ds) ↔
      (∃ l ∈ lines, HasReturnBreak l) ∨ HasReturnBreak ds := by
  induction lines with
  | nil => simp
  | cons l ls ih =>
    obtain ⟨hl, hls⟩ := List.forall_mem_cons.1 h
    have hjoint : ¬ (l.getLast? = some '\r' ∧ (ls.flatten ++ ds).head? = some '\n') := by
      rintro ⟨hreturn, -⟩
      rw [hl] at hreturn
      exact absurd hreturn (by decide)
    rw [List.flatten_cons, List.append_assoc, hasReturnBreak_append, or_iff_left hjoint, ih hls,
      List.exists_mem_cons_iff, or_assoc]

/-! ## Trimmed texts -/

theorem mem_of_mem_trim {c : Char} (h : c ∈ trim cs) : c ∈ cs := by
  have hmem := (List.dropWhile_sublist isWhite).subset (List.mem_reverse.1 h)
  exact (List.dropWhile_sublist isWhite).subset (List.mem_reverse.1 hmem)

/-- A trimmed text does not end with white space. -/
theorem getLast?_trim_ne {c : Char} (hc : isWhite c = true) : (trim cs).getLast? ≠ some c := by
  intro h
  rw [trim, trimEnd, List.getLast?_reverse] at h
  have hnot := List.head?_dropWhile_not isWhite (cs.dropWhile isWhite).reverse
  rw [h] at hnot
  exact absurd (hc.symm.trans hnot) (by decide)

end Text

open Text

/-! ## Texts without carriage returns -/

/-- A text has no carriage return. -/
def ReturnFree (s : String) : Prop := '\r' ∉ s.toList

instance : DecidablePred ReturnFree := fun s => inferInstanceAs (Decidable ('\r' ∉ s.toList))

theorem ReturnFree.append {s t : String} (hs : ReturnFree s) (ht : ReturnFree t) :
    ReturnFree (s ++ t) := by
  rw [ReturnFree, String.toList_append, List.mem_append, not_or]
  exact ⟨hs, ht⟩

theorem returnFree_toString (n : Int) : ReturnFree (toString n) :=
  Decimal.notMem_toString rfl (by decide) n

theorem Text.IsWord.return_notMem {cs : List Char} (h : IsWord cs) : '\r' ∉ cs := fun hm =>
  Bool.false_ne_true (h '\r' hm)

theorem Text.RunOf.return_notMem {p : Char → Bool} {cs : List Char} (h : RunOf p cs)
    (hp : p '\r' = false) : '\r' ∉ cs := fun hm => by
  have ht := List.all_eq_true.1 h.2 '\r' hm
  rw [hp] at ht
  exact Bool.false_ne_true ht

/-- A number literal has no part of a line break in it. -/
theorem NumberText.return_notMem {kind : TokenKind} {cs : List Char} (h : NumberText kind cs) :
    '\r' ∉ cs := by
  cases h with
  | decimal hds => exact hds.return_notMem rfl
  | float hds hes =>
    rw [List.mem_append, List.mem_cons, not_or, not_or]
    exact ⟨hds.return_notMem rfl, by decide, hes.return_notMem rfl⟩
  | hexadecimal hhs =>
    rw [List.mem_cons, List.mem_cons, not_or, not_or]
    exact ⟨by decide, by decide, hhs.return_notMem rfl⟩

/-! ## Lines of scripts -/

/-- A line that a report shows has no line feed. -/
theorem Source.lineFeed_notMem_lineText (source : Source) (line : Nat) :
    '\n' ∉ (source.lineText line).toList := by
  cases line with
  | zero => exact List.not_mem_nil
  | succ n =>
    rw [lineText, String.toList_ofList]
    intro hmem
    have hline := mem_of_mem_trim hmem
    cases hget : (lines source.text.toList)[n]? with
    | none =>
      rw [hget] at hline
      cases hline
    | some l =>
      rw [hget] at hline
      exact lineFeed_notMem_of_mem_lines (List.mem_of_getElem? hget) hline

/-- And does not end with a carriage return. -/
theorem Source.getLast?_lineText (source : Source) (line : Nat) :
    (source.lineText line).toList.getLast? ≠ some '\r' := by
  cases line with
  | zero => exact Option.some_ne_none _ |>.symm
  | succ n =>
    rw [lineText, String.toList_ofList]
    exact getLast?_trim_ne rfl

/-! ## Frames -/

/-- What a frame shows besides the name of its script has no break with a carriage
return. -/
structure Frame.Tidy (f : Frame) : Prop where
  context : ReturnFree f.context
  lineText : '\n' ∉ f.lineText.toList
  lineEnd : f.lineText.toList.getLast? ≠ some '\r'

namespace Frame

theorem tidy_at (source : Source) {context : String} (h : ReturnFree context)
    (p : Position) : (Frame.at source context p).Tidy :=
  ⟨h, source.lineFeed_notMem_lineText p.line, source.getLast?_lineText p.line⟩

variable {f : Frame}

theorem getLast?_report (f : Frame) : f.report.toList.getLast? = some '\n' := by
  change (_ ++ "\n").toList.getLast? = some '\n'
  rw [String.toList_append]
  exact List.getLast?_append_of_ne_nil _ (by decide)

theorem toList_report (f : Frame) :
    f.report.toList = " File: '".toList ++ (f.script.toList ++ ("', line ".toList ++
      ((toString f.line).toList ++ (", in ".toList ++ (f.context.toList ++ ("\n".toList ++
        ("    ".toList ++ (f.lineText.toList ++ ['\n'])))))))) := by
  change (" File: '" ++ f.script ++ "', line " ++ toString f.line ++ ", in " ++ f.context ++
    "\n" ++ "    " ++ f.lineText ++ "\n").toList = _
  simp only [String.toList_append, List.append_assoc]
  rfl

/-- **The breaks of a frame** with a carriage return are those of its script's name. -/
theorem Tidy.hasReturnBreak_report (h : f.Tidy) :
    HasReturnBreak f.report.toList ↔ HasReturnBreak f.script.toList := by
  have hline : ReturnFree (toString f.line) := returnFree_toString f.line
  have hlast : ¬ HasReturnBreak (f.lineText.toList ++ ['\n']) := by
    rw [hasReturnBreak_append]
    rintro (hb | hb | ⟨hreturn, -⟩)
    · exact h.lineText (hb.subset (by decide))
    · exact absurd hb (by decide)
    · exact h.lineEnd hreturn
  rw [toList_report]
  refine hasReturnBreak_between (by decide) (by decide) ⟨'\'', by decide, by decide⟩ ?_
  rwa [hasReturnBreak_append_of_notMem hline, hasReturnBreak_append_of_notMem (by decide),
    hasReturnBreak_append_of_notMem h.context, hasReturnBreak_append_of_notMem (by decide),
    hasReturnBreak_append_of_notMem (by decide)]

end Frame

/-! ## Summary lines -/

/-- The text of a value that the sentence of a fault shows. -/
def Fault.shown? : Fault → Option String
  | notObject shown | keyNotFound shown => some shown
  | _ => none

/-- The text of a value that a cause shows. -/
def Cause.shown? : Cause → Option String
  | runtime fault => fault.shown?
  | lexical _ | grammar _ _ => none

/-- The name or the number of a script that a cause mentions. -/
def Cause.word? : Cause → Option String
  | lexical _ => none
  | grammar (.numberRange lexeme) _ => some lexeme
  | grammar _ _ => none
  | runtime fault => fault.name?

theorem Kind.returnFree_name (k : Kind) : ReturnFree k.name := by
  cases k <;> decide

theorem Arith.returnFree_symbol (op : Arith) : ReturnFree op.symbol := by
  cases op <;> decide

theorem Arith.returnFree_noun (op : Arith) : ReturnFree op.noun := by
  cases op <;> decide

theorem Sign.returnFree_symbol (sign : Sign) : ReturnFree sign.symbol := by
  cases sign <;> decide

/-- A sentence that shows no value has no carriage return. -/
theorem Fault.returnFree_message {fault : Fault} (hs : fault.shown? = none)
    (hn : ∀ name ∈ fault.name?, ReturnFree name) : ReturnFree fault.message := by
  cases fault with
  | divisionByZero | concatenation | overflow | indexOutOfRange | invalidIndex
  | invalidParameter | returnOutsideFunction => decide +kernel
  | notObject | keyNotFound => cases hs
  | mixedHexadecimal op => exact .append (by decide) op.returnFree_noun
  | mismatch op left right =>
    exact .append (.append (.append (.append (.append (.append (by decide) op.returnFree_symbol)
      (by decide)) left.returnFree_name) (by decide)) right.returnFree_name) (by decide)
  | signedNonNumber sign found =>
    exact .append (.append (.append (.append (by decide) sign.returnFree_symbol) (by decide))
      found.returnFree_name) (by decide)
  | invalidKey found => exact .append found.returnFree_name (by decide)
  | undefined name | notFunction name =>
    exact .append (.append (by decide) (hn name rfl)) (by decide)
  | argumentCount name expected given =>
    exact .append (.append (.append (.append (.append (.append (by decide) (hn name rfl))
      (by decide)) (returnFree_toString expected)) (by decide)) (returnFree_toString given))
      (by decide)
  | callDepth limit => exact .append (.append (by decide) (returnFree_toString limit)) (by decide)
  | unsupportedBox options =>
    exact .append (.append (by decide) (returnFree_toString options.toInt)) (by decide)

theorem Mistake.returnFree_message {mistake : Mistake}
    (h : ∀ lexeme, mistake = .numberRange lexeme → ReturnFree lexeme) :
    ReturnFree mistake.message := by
  cases mistake with
  | numberRange lexeme => exact .append (.append (by decide) (h lexeme rfl)) (by decide)
  | boxNumber which => cases which <;> decide +kernel
  | _ => decide +kernel

/-- The sentence of a fault with the end of its line. -/
theorem Fault.hasReturnBreak_message {fault : Fault}
    (hn : ∀ name ∈ fault.name?, ReturnFree name) :
    HasReturnBreak (fault.message.toList ++ ['\n']) ↔
      ∃ shown ∈ fault.shown?, HasReturnBreak shown.toList := by
  cases hs : fault.shown? with
  | none =>
    rw [hasReturnBreak_append_of_notMem (returnFree_message hs hn)]
    simp only [Option.mem_def, reduceCtorEq, false_and, exists_false, iff_false]
    decide
  | some shown =>
    simp only [Option.mem_def, Option.some.injEq, exists_eq_left']
    cases fault with
    | notObject =>
      cases hs
      change HasReturnBreak ((shown ++ " is not an object.").toList ++ ['\n']) ↔ _
      rw [String.toList_append, List.append_assoc]
      have hfront : '\r' ∉ ([] : List Char) := List.not_mem_nil
      exact hasReturnBreak_between hfront (by decide) ⟨' ', by decide, by decide⟩ (by decide)
    | keyNotFound =>
      cases hs
      change HasReturnBreak (("Key '" ++ shown ++ "' not found in object.").toList ++ ['\n']) ↔ _
      rw [String.toList_append, String.toList_append, List.append_assoc, List.append_assoc]
      exact hasReturnBreak_between (by decide) (by decide) ⟨'\'', by decide, by decide⟩
        (by decide)
    | _ => cases hs

/-- **The breaks of a summary line** with a carriage return are those of the value that it
shows. -/
theorem Cause.hasReturnBreak_message {cause : Cause}
    (h : ∀ word ∈ cause.word?, ReturnFree word) :
    HasReturnBreak (cause.message.toList ++ ['\n']) ↔
      ∃ shown ∈ cause.shown?, HasReturnBreak shown.toList := by
  have hnone : ¬ ∃ shown ∈ (none : Option String), HasReturnBreak shown.toList := nofun
  cases cause with
  | lexical fault =>
    refine iff_of_false ?_ hnone
    cases fault with
    | illegal c =>
      change ¬ HasReturnBreak (("'" ++ String.singleton c ++ "'").toList ++ ['\n'])
      rw [String.toList_append, String.toList_append, String.toList_singleton]
      -- a quotation mark is behind it, not a line feed
      simp [hasReturnBreak_cons, not_hasReturnBreak_nil]
    | unclosedString | unclosedComment => decide +kernel
  | grammar mistake atLineEnd =>
    have hm : ReturnFree mistake.message :=
      Mistake.returnFree_message fun lexeme hl => h lexeme (by subst hl; rfl)
    refine iff_of_false ?_ hnone
    rw [message, hasReturnBreak_append_of_notMem hm]
    decide
  | runtime fault => exact Fault.hasReturnBreak_message h

theorem Cause.returnFree_title (cause : Cause) : ReturnFree cause.title := by
  cases cause with
  | lexical => exact (by decide : ReturnFree "Illegal Character")
  | runtime => exact (by decide : ReturnFree "Runtime Error")
  | grammar _ atLineEnd =>
    cases atLineEnd with
    | true => exact (by decide : ReturnFree "Unexpected EOL")
    | false => exact (by decide : ReturnFree "Invalid Syntax")

/-! ## Reports -/

/-- What an error shows besides a value and the names of scripts has no break with a carriage
return. -/
structure Error.Tidy (e : Error) : Prop where
  frames : ∀ f ∈ e.frames, f.Tidy
  word : ∀ word ∈ e.cause.word?, ReturnFree word

theorem toList_traceback (frames : List Frame) :
    (traceback frames).toList = "Traceback (most recent call last):\n".toList ++
      (frames.map fun f => f.report.toList).flatten := by
  change ("Traceback (most recent call last):\n" ++ _).toList = _
  rw [String.toList_append, String.toList_join, List.flatMap_map, List.flatMap_def]

namespace Error

variable {e : Error}

theorem toList_report (e : Error) :
    e.report.toList = (traceback e.frames).toList ++ (e.cause.title.toList ++
      (": ".toList ++ (e.cause.message.toList ++ ['\n']))) := by
  simp only [report, String.toList_append, List.append_assoc]
  rfl

theorem getLast?_report (e : Error) : e.report.toList.getLast? = some '\n' := by
  rw [report, String.toList_append]
  exact List.getLast?_append_of_ne_nil _ (by decide)

/-- **The breaks of a report** with a carriage return are those of its scripts' names and of
the value that it shows. -/
theorem Tidy.hasReturnBreak_report (h : e.Tidy) :
    HasReturnBreak e.report.toList ↔
      (∃ f ∈ e.frames, HasReturnBreak f.script.toList) ∨
        ∃ shown ∈ e.cause.shown?, HasReturnBreak shown.toList := by
  have hends : ∀ l ∈ e.frames.map fun f => f.report.toList, l.getLast? = some '\n' :=
    List.forall_mem_map.2 fun f _ => f.getLast?_report
  have hframes : (∃ l ∈ e.frames.map fun f => f.report.toList, HasReturnBreak l) ↔
      ∃ f ∈ e.frames, HasReturnBreak f.script.toList := by
    simp only [List.mem_map, exists_exists_and_eq_and]
    exact exists_congr fun f => and_congr_right fun hf => (h.frames f hf).hasReturnBreak_report
  rw [toList_report, toList_traceback, List.append_assoc,
    hasReturnBreak_append_of_notMem (by decide +kernel),
    hasReturnBreak_flatten_append hends, hframes,
    hasReturnBreak_append_of_notMem e.cause.returnFree_title,
    hasReturnBreak_append_of_notMem (by decide), Cause.hasReturnBreak_message h.word]

end Error

end HotkeyScript
