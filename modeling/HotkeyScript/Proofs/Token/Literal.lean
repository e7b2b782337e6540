import HotkeyScript.Proofs.Token.Given
/-!
# Tokens — number literals as texts of their own

A number literal is read where nothing of a number stands behind it
(`NumberText.readBefore`), so a text that is a number literal has one token besides the two
ends of the file (`NumberText.tokenize_eq`). The other way round, a text without blanks at
its ends and without a `;` that has one number token is the lexeme of that token
(`lexeme_eq_of_tokenize`).
-/

namespace HotkeyScript

open Text

/-! ## Digits of literals -/

/-- What is read as a digit is one to the base 16. -/
theorem Decimal.isHexDigit_of_digit? {c : Char} {d : Nat} (h : digit? c = some d) :
    isHexDigit c = true := by
  unfold digit? at h
  unfold isHexDigit
  split at h
  next hrange =>
    have hdigit : c.isDigit = true := Char.isDigit_iff_toNat.2 hrange
    rw [hdigit]
    rfl
  split at h
  next hrange => simp [hrange]
  split at h
  next hrange => simp [hrange]
  next => cases h

/-- What is read to the base 10 are digits. -/
theorem Decimal.runOf_isDigit {cs : List Char} {n : Nat} (h : natural? 10 cs = some n) :
    RunOf Char.isDigit cs :=
  of_natural? (fun _ _ hd hten => isDigit_of_digit? hd hten) h

/-- What is read to any base are hexadecimal digits. -/
theorem Decimal.runOf_isHexDigit {base : Nat} {cs : List Char} {n : Nat}
    (h : natural? base cs = some n) : RunOf isHexDigit cs :=
  of_natural? (fun _ _ hd _ => isHexDigit_of_digit? hd) h

/-! ## Literals as marks -/

namespace NumberText

variable {kind : TokenKind} {cs rest : List Char}

theorem isNumber (h : NumberText kind cs) : kind.isNumber = true := by
  cases h <;> rfl

/-- In a number literal stand only characters of numbers. -/
theorem all_isNumberChar (h : NumberText kind cs) : cs.all isNumberChar = true := by
  have hrun {p : Char → Bool} (hp : ∀ c, p c = true → isNumberChar c = true) {ds : List Char}
      (hds : RunOf p ds) : ds.all isNumberChar = true :=
    List.all_eq_true.2 fun c hc => hp c (List.all_eq_true.1 hds.2 c hc)
  have hdigit (c : Char) : c.isDigit = true → isNumberChar c = true := Scan.isNumberChar_of_isDigit
  cases h with
  | decimal hds => exact hrun hdigit hds
  | float hds hes =>
    rw [List.all_append, hrun hdigit hds, List.all_cons, hrun hdigit hes]
    rfl
  | hexadecimal hhs =>
    rw [List.all_cons, List.all_cons, hrun (fun c hc => (isHexDigit_iff.1 hc).1) hhs]
    rfl

/-- A number literal is read where nothing of a number comes next. -/
theorem readBefore (h : NumberText kind cs) (hrest : NotNext isNumberChar rest) :
    (Wording.plain kind cs).ReadBefore rest := by
  obtain ⟨c, text, rfl, hc⟩ := h.exists_cons
  have htext : text.all isNumberChar = true := (Bool.and_eq_true_iff.1 h.all_isNumberChar).2
  refine ⟨c, text, rfl, Scan.isBlank_of_isNameChar (Scan.isNameChar_of_isDigit hc), ?_,
    fun lineStart spaced => ?_⟩
  · rintro rfl
    cases h.isNumber
  · rw [Scan.next_digit lineStart spaced hc]
    refine (Scan.number_eq_ok_iff hc).2 ⟨kind, ?_, ?_⟩
    · rwa [hrest.takeWhile_append htext]
    · rw [hrest.takeWhile_append htext, hrest.dropWhile_append htext]
      rfl

/-- A number literal as a mark. -/
def mark (kind : TokenKind) (cs : List Char) : Mark := ⟨.plain kind cs, []⟩

/-- **A text that is a number literal has one token**, besides the ends of the file. -/
theorem tokenize_eq (h : NumberText kind cs) :
    tokenize (String.ofList cs) = .ok [Mark.fileStart, (mark kind cs).token .start,
      Mark.fileEnd (Position.start.past cs)] := by
  have hms : Mark.Scanned [] [mark kind cs] := ⟨rfl, h.readBefore (.nil _), trivial⟩
  have htext : Mark.textOf [mark kind cs] = cs := List.append_nil _
  have htokens := Mark.tokenize_of_scanned hms
  rw [htext] at htokens
  exact htokens

end NumberText

section

variable {text : String} {sof t eof : Token}

/-! ## Texts with one number token -/

/-- A text that loses nothing at its start starts with nothing that could be lost. -/
theorem Text.eq_nil_of_dropWhile_eq {p : Char → Bool} {front cs : List Char}
    (hcs : cs.dropWhile p = cs) (hfront : front <+: cs) (hp : ∀ c ∈ front, p c = true) :
    front = [] := by
  cases front with
  | nil => rfl
  | cons c front =>
    obtain ⟨rest, rfl⟩ := hfront
    rw [List.cons_append, List.dropWhile_cons_of_pos (hp c List.mem_cons_self)] at hcs
    have hlength := (List.dropWhile_suffix p (l := front ++ rest)).length_le
    rw [hcs, List.length_cons] at hlength
    omega

/-- Trimming takes nothing off a text that is trimmed, at neither end. -/
theorem Text.dropWhile_eq_of_trim {cs : List Char} (h : trim cs = cs) :
    cs.dropWhile isWhite = cs ∧ cs.reverse.dropWhile isWhite = cs.reverse := by
  have hstart : cs.dropWhile isWhite = cs := by
    have hlength : (trim cs).length ≤ (cs.dropWhile isWhite).length := by
      have hend := (List.dropWhile_suffix isWhite (l := (cs.dropWhile isWhite).reverse)).length_le
      rwa [List.length_reverse, ← List.length_reverse] at hend
    rw [h] at hlength
    exact (List.dropWhile_suffix isWhite).eq_of_length_le hlength
  refine ⟨hstart, ?_⟩
  rw [trim, hstart, trimEnd] at h
  rw [← List.reverse_eq_iff, h]

theorem Text.isWhite_of_isBlank {c : Char} (h : isBlank c = true) : isWhite c = true := by
  simp only [isBlank, Bool.or_eq_true, beq_iff_eq] at h
  rcases h with (rfl | rfl) | rfl <;> decide

/-- A trimmed text is all that stands in it between blanks in front and blanks behind. -/
theorem Text.between_eq_of_trim {cs : List Char} {i j : Nat} (h : trim cs = cs)
    (hfront : ∀ c ∈ cs.take i, isBlank c = true) (hback : ∀ c ∈ cs.drop j, isBlank c = true) :
    between cs i j = cs := by
  obtain ⟨hkeepsFront, hkeepsBack⟩ := dropWhile_eq_of_trim h
  have htake : cs.take i = [] := eq_nil_of_dropWhile_eq hkeepsFront (List.take_prefix i cs)
    fun c hc => isWhite_of_isBlank (hfront c hc)
  have hdrop : (cs.drop j).reverse = [] := eq_nil_of_dropWhile_eq hkeepsBack
    (List.reverse_prefix.2 (List.drop_suffix j cs))
    fun c hc => isWhite_of_isBlank (hback c (List.mem_reverse.1 hc))
  have hall : cs.take j = cs := by
    rw [← List.append_nil (cs.take j), ← List.reverse_eq_nil_iff.1 hdrop, List.take_append_drop]
  rw [between, hall, ← List.nil_append (cs.drop i), ← htake, List.take_append_drop]

/-- Without a `;` in the text, only blanks are skipped in it. -/
theorem Text.Skipped.blanks_of_notMem {gap : List Char} {next : TokenKind}
    (h : Skipped gap next) (hcomment : ';' ∉ gap) : ∀ c ∈ gap, isBlank c = true := by
  cases h with
  | blanks hblanks => exact hblanks
  | comment =>
    exact absurd (List.mem_append_right _ List.mem_cons_self) hcomment

/-- Behind a token that opens no comment nothing but blanks is skipped, if there is no `;`. -/
theorem Token.Apart.blanks {cs : List Char} {t u : Token} (h : Token.Apart cs t u)
    (ht : t.kind ≠ .openComment) (hcomment : ';' ∉ cs) :
    ∀ c ∈ between cs t.span.stop.offset u.span.start.offset, isBlank c = true := by
  cases h with
  | skipped hskipped =>
    refine hskipped.blanks_of_notMem fun hmem => hcomment ?_
    exact List.mem_of_mem_take (List.mem_of_mem_drop hmem)
  | inside hblock => exact absurd hblock.opener_kind ht

/-- **The one number token of a trimmed text without a `;` is all of the text.** -/
theorem lexeme_eq_of_tokenize (h : tokenize text = .ok [sof, t, eof])
    (ht : t.kind.isNumber = true) (htrim : trim text.toList = text.toList)
    (hcomment : ';' ∉ text.toList) : t.lexeme = text := by
  have hne {kind : TokenKind} (hkind : kind.isNumber = false) : t.kind ≠ kind := by
    rintro rfl
    rw [hkind] at ht
    cases ht
  obtain ⟨sof', mid, eof', hts, hsof, -, hstart, -, hend, -⟩ := exists_ends_of_tokenize h
  obtain ⟨rfl, hmid⟩ := List.cons.inj hts
  obtain ⟨-, heof⟩ := List.append_inj' (show [t] ++ [eof] = mid ++ [eof'] from hmid) rfl
  obtain ⟨rfl, -⟩ := List.cons.inj heof
  have hgaps := isChain_of_tokenize h
  rw [List.isChain_cons_cons, List.isChain_cons_cons] at hgaps
  obtain ⟨hfront, hback, -⟩ := hgaps
  have hfront := hfront.blanks (by rw [hsof]; decide) hcomment
  have hback := hback.blanks (hne rfl) hcomment
  rw [hstart] at hfront
  rw [hend, between, List.take_length] at hback
  have hlexeme := lexeme_of_tokenize h t (List.mem_cons_of_mem _ List.mem_cons_self) (hne rfl)
    (hne rfl)
  rw [between_eq_of_trim htrim hfront hback] at hlexeme
  exact String.toList_inj.1 hlexeme

end

end HotkeyScript
