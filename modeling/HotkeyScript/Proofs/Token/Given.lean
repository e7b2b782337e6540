import HotkeyScript.Proofs.Token.Cover
import HotkeyScript.Proofs.Token.Number
/-!
# Tokens — what tokens are cut from

A token is cut from some text, unless it is raw text or an end of the file; a number token
is cut from a number literal, and an identifier from a word (`Piece.Given`). One walk over
the scans says so (`Scan.given_next`), and it holds of the tokens of a text with the places
where they stand (`exists_given_of_tokenize`): a token inside the text ends behind where it
starts (`wide_of_tokenize`), the number tokens are number literals
(`numberText_of_tokenize`) and the identifiers are words (`isWord_of_tokenize`).
-/

namespace HotkeyScript

open Text

namespace NumberText

/-- A number literal starts with a digit. -/
theorem exists_cons {kind : TokenKind} {cs : List Char} (h : NumberText kind cs) :
    ∃ c text, cs = c :: text ∧ c.isDigit = true := by
  have hrun {ds : List Char} (hds : RunOf Char.isDigit ds) :
      ∃ c text, ds = c :: text ∧ c.isDigit = true := by
    obtain ⟨c, text, rfl⟩ := List.exists_cons_of_ne_nil hds.1
    exact ⟨c, text, rfl, (Bool.and_eq_true_iff.1 hds.2).1⟩
  cases h with
  | decimal hds => exact hrun hds
  | @float ds es hds hes =>
    obtain ⟨c, text, rfl, hc⟩ := hrun hds
    exact ⟨c, text ++ '.' :: es, rfl, hc⟩
  | @hexadecimal hs hhs => exact ⟨'0', 'x' :: hs, rfl, rfl⟩

end NumberText

/-- A text of characters that names may contain. -/
def Text.IsWord (cs : List Char) : Prop := ∀ c ∈ cs, isNameChar c = true

/-- A piece as a text may be cut into. -/
inductive Piece.Given : Piece → Prop where
  | gap (text : List Char) : Given (.gap text)
  | raw (lexeme text : List Char) (spaced : Bool) : Given (.token .raw lexeme text spaced)
  | fileEnd (spaced : Bool) : Given (.token .fileEnd [] [] spaced)
  | number {kind : TokenKind} {text : List Char} (spaced : Bool) : NumberText kind text →
      Given (.token kind text text spaced)
  | word (c : Char) (text : List Char) (spaced : Bool) : IsWord (c :: text) →
      Given (.token .identifier (c :: text) (c :: text) spaced)
  | other {kind : TokenKind} (lexeme : List Char) (c : Char) (text : List Char) (spaced : Bool) :
      kind.isNumber = false → kind ≠ .identifier → Given (.token kind lexeme (c :: text) spaced)

namespace Scan

open Piece

variable {lineStart spaced : Bool} {c : Char} {cs : List Char} {s : Scan}

/-- No token of one character is a number or an identifier. -/
theorem isNumber_of_punctuation? {kind : TokenKind} (h : punctuation? c = some kind) :
    kind.isNumber = false ∧ kind ≠ .identifier := by
  unfold punctuation? at h
  split at h <;> cases h <;> exact ⟨rfl, by decide⟩

/-- No word is a number. -/
theorem isNumber_ofWord? (w : String) :
    ((TokenKind.ofWord? w).getD .identifier).isNumber = false := by
  unfold TokenKind.ofWord?
  split <;> rfl

theorem given_plain {kind : TokenKind} (h : kind.isNumber = false) (hne : kind ≠ .identifier)
    (c : Char) (text rest : List Char) :
    ∀ p ∈ (plain kind (c :: text) spaced rest).pieces, p.Given :=
  List.forall_mem_singleton.2 (.other _ _ _ _ h hne)

theorem given_star : ∀ p ∈ (star spaced cs).pieces, p.Given := by
  unfold star
  split <;> exact given_plain rfl (by decide) _ _ _

theorem given_slash (h : slash lineStart spaced cs = .ok s) : ∀ p ∈ s.pieces, p.Given := by
  unfold slash at h
  split at h
  next =>
    split at h
    next =>
      split at h <;> cases h
      refine List.forall_mem_cons.2 ⟨.other _ _ _ _ rfl (by decide), ?_⟩
      refine List.forall_mem_cons.2 ⟨.gap _, ?_⟩
      exact List.forall_mem_singleton.2 (.other _ _ _ _ rfl (by decide))
    next => cases h; exact given_plain rfl (by decide) _ _ _
  next => cases h; exact given_plain rfl (by decide) _ _ _

theorem given_colon (h : colon spaced cs = .ok s) : ∀ p ∈ s.pieces, p.Given := by
  unfold colon at h
  split at h <;> cases h <;> exact given_plain rfl (by decide) _ _ _

theorem given_quote (h : quote spaced cs = .ok s) : ∀ p ∈ s.pieces, p.Given := by
  unfold quote at h
  split at h <;> cases h
  exact List.forall_mem_singleton.2 (.other _ _ _ _ rfl (by decide))

theorem given_number (hc : c.isDigit = true) (h : number spaced c cs = .ok s) :
    ∀ p ∈ s.pieces, p.Given := by
  obtain ⟨kind, hliteral, rfl⟩ := (number_eq_ok_iff hc).1 h
  exact List.forall_mem_singleton.2 (.number _ hliteral)

theorem given_argumentPieces (tail : List Char) (args : List (List Char)) :
    ∀ p ∈ argumentPieces spaced tail args, p.Given := by
  fun_induction argumentPieces spaced tail args with
  | case1 => exact fun p hp => absurd hp List.not_mem_nil
  | case2 arg => exact List.forall_mem_singleton.2 (.raw _ _ _)
  | case3 arg args _ ih =>
    refine List.forall_mem_cons.2 ⟨.raw _ _ _, List.forall_mem_cons.2 ⟨?_, ih⟩⟩
    exact .other _ _ _ _ rfl (by decide)

theorem given_word (hc : isNameStart c = true) : ∀ p ∈ (word spaced c cs).pieces, p.Given := by
  unfold word
  dsimp only
  split
  next hk =>
    rw [hk]
    refine List.forall_mem_cons.2 ⟨.other _ _ _ _ rfl (by decide), ?_⟩
    unfold afterCommand
    dsimp only
    split
    · exact List.forall_mem_singleton.2 (.gap _)
    · refine List.forall_mem_append.2
        ⟨List.forall_mem_cons.2 ⟨.gap _, ?_⟩, given_argumentPieces _ _⟩
      unfold leadingComma
      split
      · exact List.forall_mem_singleton.2 (.other _ _ _ _ rfl (by decide))
      · exact fun p hp => nomatch hp
  next =>
    have hnumber := isNumber_ofWord? (String.ofList (c :: cs.takeWhile isNameChar))
    generalize (TokenKind.ofWord? _).getD .identifier = kind at hnumber
    refine List.forall_mem_singleton.2 ?_
    by_cases hk : kind = .identifier
    · subst hk
      refine .word _ _ _ (List.forall_mem_cons.2 ⟨isNameChar_of_isNameStart hc, ?_⟩)
      exact List.all_eq_true.1 List.all_takeWhile
    · exact .other _ _ _ _ hnumber hk

/-- **What a scan gives** is cut from some text, numbers from number literals and
identifiers from words. -/
theorem given_next (h : next lineStart spaced c cs = .ok s) : ∀ p ∈ s.pieces, p.Given := by
  unfold next at h
  split at h
  next hk =>
    cases h
    obtain ⟨hnumber, hne⟩ := isNumber_of_punctuation? hk
    exact given_plain hnumber hne _ _ _
  split at h
  next => cases h; exact List.forall_mem_singleton.2 (.gap _)
  split at h
  next => cases h; exact given_star
  split at h
  next => exact given_slash h
  split at h
  next => exact given_colon h
  split at h
  next =>
    cases h
    refine List.forall_mem_cons.2 ⟨.other _ _ _ _ rfl (by decide), ?_⟩
    exact List.forall_mem_singleton.2 (.raw _ _ _)
  split at h
  next => exact given_quote h
  split at h
  next hc => exact given_number hc h
  split at h
  next hc => cases h; exact given_word hc
  next => cases h; exact given_plain rfl (by decide) _ _ _

end Scan

theorem Piece.given_cut {lineStart : Bool} {cs : List Char} {ps : List Piece}
    (h : cut lineStart cs = .ok ps) : ∀ p ∈ ps, p.Given := by
  fun_induction cut lineStart cs generalizing ps with
  | case1 =>
    cases h
    exact List.forall_mem_cons.2 ⟨.gap _, List.forall_mem_singleton.2 (.fileEnd _)⟩
  | case2 => cases h
  | case3 => cases h
  | case4 lineStart cs blanks c tail hcs scan hs more hmore =>
    rename_i ih
    cases h
    refine List.forall_mem_append.2 ⟨List.forall_mem_cons.2 ⟨.gap _, ?_⟩, ih hmore⟩
    exact Scan.given_next hs

section

variable {text : String} {ts : List Token}

/-- **Each token spans what it was cut from**, but for the start of the file. -/
theorem exists_given_of_tokenize (h : tokenize text = .ok ts) {t : Token} (ht : t ∈ ts)
    (hstart : t.kind ≠ .fileStart) : ∃ p lexeme stretch spaced,
      (Piece.token t.kind lexeme stretch spaced).Given ∧ t.lexeme = String.ofList lexeme ∧
        t.span = ⟨p, p.past stretch⟩ := by
  obtain ⟨ps, hcut, rfl⟩ := exists_cut_of_tokenize h
  obtain ⟨front, kind, lexeme, stretch, spaced, back, hps, rfl⟩ := Piece.exists_of_mem_place ht
  have hmem : Piece.token kind lexeme stretch spaced ∈ Piece.token .fileStart [] [] false :: ps :=
    hps ▸ List.mem_append_right _ List.mem_cons_self
  obtain heq | hmem := List.mem_cons.1 hmem
  · cases heq
    exact absurd rfl hstart
  · refine ⟨Position.start.past (Piece.textOf front), lexeme, stretch, spaced,
      Piece.given_cut hcut _ hmem, rfl, ?_⟩
    rw [← Position.past_append]

/-- **A token inside a text ends behind where it starts**, unless it is raw text. -/
theorem wide_of_tokenize (h : tokenize text = .ok ts) :
    ∀ t ∈ ts, t.kind ≠ .raw → t.kind ≠ .fileStart → t.kind ≠ .fileEnd →
      t.span.start.offset < t.span.stop.offset := by
  intro t ht hraw hstart hend
  obtain ⟨p, lexeme, stretch, spaced, hgiven, -, hspan⟩ := exists_given_of_tokenize h ht hstart
  have hstretch : stretch ≠ [] := by
    generalize t.kind = kind at hraw hend hgiven
    cases hgiven with
    | raw => exact absurd rfl hraw
    | fileEnd => exact absurd rfl hend
    | number spaced hliteral =>
      obtain ⟨c, cs, rfl, -⟩ := hliteral.exists_cons
      exact List.cons_ne_nil c cs
    | word | other => exact List.cons_ne_nil _ _
  have hpos := List.length_pos_iff.2 hstretch
  rw [hspan]
  change p.offset < (p.past stretch).offset
  rw [Position.offset_past p]
  omega

/-- **The number tokens of a text are number literals.** -/
theorem numberText_of_tokenize (h : tokenize text = .ok ts) :
    ∀ t ∈ ts, t.kind.isNumber = true → NumberText t.kind t.lexeme.toList := by
  intro t ht hnumber
  have hstart : t.kind ≠ .fileStart := fun hk => by rw [hk] at hnumber; cases hnumber
  obtain ⟨p, lexeme, stretch, spaced, hgiven, hlexeme, -⟩ := exists_given_of_tokenize h ht hstart
  rw [hlexeme, String.toList_ofList]
  generalize t.kind = kind at hnumber hgiven
  cases hgiven with
  | raw => cases hnumber
  | fileEnd | word => cases hnumber
  | number spaced hliteral => exact hliteral
  | other _ _ _ _ hother =>
    rw [hother] at hnumber
    cases hnumber

/-- **The identifiers of a text are words.** -/
theorem isWord_of_tokenize (h : tokenize text = .ok ts) :
    ∀ t ∈ ts, t.kind = .identifier → IsWord t.lexeme.toList := by
  intro t ht hk
  have hstart : t.kind ≠ .fileStart := fun hstart => by rw [hk] at hstart; cases hstart
  obtain ⟨p, lexeme, stretch, spaced, hgiven, hlexeme, -⟩ := exists_given_of_tokenize h ht hstart
  rw [hlexeme, String.toList_ofList]
  rw [hk] at hgiven
  cases hgiven with
  | number spaced hliteral => cases hliteral
  | word _ _ _ hword => exact hword
  | other _ _ _ _ _ hne => exact absurd rfl hne

end

end HotkeyScript
