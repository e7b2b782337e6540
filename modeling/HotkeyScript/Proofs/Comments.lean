import HotkeyScript.Error
import HotkeyScript.Proofs.Program.Agreement
import HotkeyScript.Proofs.Token.Comment
/-!
# Comments are opaque

With another text in the place of a comment a script is read the same
(`comments_opaque`): its tokens are seen the same or it has the same fault
(`tokenize_seen`), and it makes up the same program but for where the statements
stand, or holds the same mistake. Where tokens stand decides nothing in the
grammar, so the alignment here is the one along which any spans are alike
(`Alignment.anywhere`).
-/

namespace HotkeyScript

/-- The alignment of any two texts: every span stands for every other. -/
def Alignment.anywhere : Alignment where
  alike _ _ := True
  merge _ _ := .intro

/-! ## Tokens -/

/-- Tokens that are seen the same are alike wherever they stand. -/
theorem tokensLike_anywhere {ts us : List Token} (h : us.map Token.seen = ts.map Token.seen) :
    TokensLike .anywhere ts us := by
  induction ts generalizing us with
  | nil => rw [List.map_eq_nil_iff.1 h]; exact .nil
  | cons t ts ih =>
    obtain ⟨u, us, rfl, hu, hus⟩ := List.map_eq_cons_iff.1 h
    simp only [Token.seen, Prod.mk.injEq] at hu
    exact .cons ⟨hu.1, hu.2.1, .intro, fun _ => hu.2.2⟩ (ih hus)

/-- Cuts that are seen the same give the same tokens wherever they stand, or the
same fault. -/
theorem tokenize_seen {text text' : String}
    (h : Piece.seenIn (Piece.cut true text'.toList) = Piece.seenIn (Piece.cut true text.toList)) :
    Alike (fun e e' => e'.fault = e.fault)
      (fun ts us => us.map Token.seen = ts.map Token.seen ∧ ts ≠ [])
      (tokenize text) (tokenize text') := by
  unfold tokenize
  cases hx : Piece.cut true text.toList with
  | error e =>
    cases hy : Piece.cut true text'.toList with
    | error e' => rw [hx, hy] at h; exact .error (Except.error.inj h)
    | ok qs => rw [hx, hy] at h; cases h
  | ok ps =>
    cases hy : Piece.cut true text'.toList with
    | error e' => rw [hx, hy] at h; cases h
    | ok qs =>
      rw [hx, hy] at h
      refine .ok ⟨?_, List.cons_ne_nil _ _⟩
      rw [Piece.map_seen_place, Piece.map_seen_place, List.filterMap_cons, List.filterMap_cons,
        Except.ok.inj h]

/-! ## Scripts -/

/-- The same cause, whatever the place. -/
def Error.SameCause (e e' : Error) : Prop := e'.cause = e.cause

variable {lineStart : Bool} {kind : CommentKind} {passed opener inside rest other : List Char}

/-- Up to the text of a comment a script is the same, whatever the text. -/
theorem Comment.sameAhead (h : Comment lineStart kind opener inside rest) (other : List Char) :
    SameAhead (opener ++ (inside ++ rest)) (opener ++ (other ++ rest)) := by
  obtain ⟨front, rfl⟩ := h.exists_opener_eq
  have hmark : kind.mark = ';' ∨ kind.mark = '\n' := by
    cases kind with
    | line => exact .inl rfl
    | block => exact .inr rfl
  rw [List.append_assoc, List.append_assoc]
  exact SameAhead.append (.stop _ _ hmark) front

/-- **Comments are opaque.** Let the lexer recognise a comment in a script. With
any text in its place that may stand in such a comment, the script has the same
tokens but for where they stand, or cannot be cut into tokens for the same reason;
and it makes up the same program but for where things stand, or is refused for the
same reason. -/
theorem comments_opaque
    (hreach : Piece.Reaches lineStart (opener ++ (inside ++ rest)) true
      (passed ++ (opener ++ (inside ++ rest))))
    (hcomment : Comment lineStart kind opener inside rest) (hother : kind.Admits other)
    (name : String) :
    let source : Source := ⟨name, String.ofList (passed ++ (opener ++ (inside ++ rest)))⟩
    let source' : Source := ⟨name, String.ofList (passed ++ (opener ++ (other ++ rest)))⟩
    Alike Error.SameCause (fun ts us => us.map Token.seen = ts.map Token.seen)
        source.tokens source'.tokens ∧
      Alike Error.SameCause (Program.Like .anywhere) source.program source'.program := by
  intro source source'
  have hcut : Piece.seenIn (Piece.cut true source'.text.toList) =
      Piece.seenIn (Piece.cut true source.text.toList) := by
    obtain ⟨passed', front, hpassed, hcut, hcut'⟩ := hreach.behind (hcomment.sameAhead other)
    obtain rfl := List.append_cancel_right hpassed
    rw [String.toList_ofList, String.toList_ofList, hcut, hcut', Piece.seenIn_behind,
      Piece.seenIn_behind, hcomment.seenIn_cut hother]
  have htokens := tokenize_seen hcut
  unfold Source.program Source.tokens
  generalize tokenize source.text = r, tokenize source'.text = r' at htokens
  cases htokens with
  | error he => exact ⟨.error (congrArg Cause.lexical he), .error (congrArg Cause.lexical he)⟩
  | @ok ts us ht =>
    refine ⟨.ok ht.1, ?_⟩
    have hp := Program.like_ofTokens (tokensLike_anywhere ht.1) ht.2
    change Alike _ _ (source.programOf ts) (source'.programOf us)
    unfold Source.programOf
    generalize Program.ofTokens ts = r, Program.ofTokens us = r' at hp
    cases hp with
    | ok hp => exact .ok hp
    | error he =>
      refine .error ?_
      simp only [Error.SameCause, Error.ofGrammar, Error.beforeRun, he.mistake, he.atLineEnd]

/-- A comment behind the arguments of a message box, and one in its place that
looks like an opener, a string, an assignment and another box. -/
theorem comments_opaque_behindArguments :
    let passed := "x := 1\n".toList
    let opener := "MsgBox one, two ;".toList
    let inside := " said".toList
    let other := "/* \" = MsgBox three, ; */".toList
    let rest := "\ny".toList
    let source : Source := ⟨"box.ahk", String.ofList (passed ++ (opener ++ (inside ++ rest)))⟩
    let source' : Source := ⟨"box.ahk", String.ofList (passed ++ (opener ++ (other ++ rest)))⟩
    (source.program.toOption.map fun p => p.statements.length) = some 3 ∧
      Alike Error.SameCause (fun ts us => us.map Token.seen = ts.map Token.seen)
        source.tokens source'.tokens ∧
      Alike Error.SameCause (Program.Like .anywhere) source.program source'.program := by
  intro passed opener inside other rest source source'
  have hreach : Piece.Reaches true (opener ++ (inside ++ rest)) true
      (passed ++ (opener ++ (inside ++ rest))) :=
    .scan rfl rfl (.scan rfl rfl (.scan rfl rfl (.scan rfl rfl .here)))
  have hcomment : Comment true .line opener inside rest :=
    @Comment.ofArguments true [] "MsgBox".toList " one, two ".toList _ _ _ _
      (fun b hb => nomatch hb) rfl rfl rfl rfl rfl
  have hother : '\n' ∉ other := by decide +kernel
  exact ⟨by decide +kernel, comments_opaque hreach hcomment hother "box.ahk"⟩

end HotkeyScript
