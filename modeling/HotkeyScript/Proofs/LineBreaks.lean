import HotkeyScript.Command.Basic
import HotkeyScript.Proofs.Session.Likeness
import HotkeyScript.Proofs.Token.Returns
/-!
# Line breaks of either kind

A text with a carriage return in front of each line feed is the same script as
the text without them (`line_breaks_alike`). Its tokens are the same but for where
they stand (`tokenize_like`), the spans of the one text stand for those of the
other (`Alignment.breaks`), and the lines are the same; so the two are run alike.
-/

namespace HotkeyScript

open Text

/-! ## Positions -/

/-- A position in a text, and the one that it is in the text without carriage
returns: the same text is in front, but for them. -/
def Position.Abreast (text : List Char) (p q : Position) : Prop :=
  ∃ before, before <+: text ∧ p = start.past before ∧ q = start.past (withoutReturns before)

/-- Carriage returns make no lines. -/
theorem Position.line_past_withoutReturns (p : Position) (cs : List Char) :
    (p.past (withoutReturns cs)).line = (p.past cs).line := by
  rw [line_past, line_past, withoutReturns, List.count_filter (by decide)]

namespace Position.Abreast

variable {text : List Char} {p p' q q' : Position}

theorem line (h : Abreast text p p') : p'.line = p.line := by
  obtain ⟨before, -, rfl, rfl⟩ := h
  exact line_past_withoutReturns start before

/-- What comes first in the one text comes no later in the other. -/
theorem offset_le (h : Abreast text p p') (h' : Abreast text q q') (hle : p.offset ≤ q.offset) :
    p'.offset ≤ q'.offset := by
  obtain ⟨before, hb, rfl, rfl⟩ := h
  obtain ⟨before', hb', rfl, rfl⟩ := h'
  rw [offset_past, offset_past] at hle ⊢
  have hp := List.prefix_of_prefix_length_le hb hb' (Nat.le_of_add_le_add_left hle)
  exact Nat.add_le_add_left (withoutReturns_mono hp).length_le _

/-- And what stands at one place in the other text is one position. -/
theorem eq_of_offset (h : Abreast text p p') (h' : Abreast text q q')
    (he : p'.offset = q'.offset) : p' = q' := by
  obtain ⟨before, hb, rfl, rfl⟩ := h
  obtain ⟨before', hb', rfl, rfl⟩ := h'
  rw [offset_past, offset_past] at he
  have hl := Nat.add_left_cancel he
  have hp := List.prefix_of_prefix_length_le (withoutReturns_mono hb) (withoutReturns_mono hb')
    (Nat.le_of_eq hl)
  rw [hp.eq_of_length hl]

/-- One of two positions is chosen in either text, or either will do. -/
theorem choose {c c' : Prop} [Decidable c] [Decidable c'] (h : Abreast text p p')
    (h' : Abreast text q q') (hpos : c → ¬ c' → p' = q') (hneg : ¬ c → ¬ c') :
    Abreast text (if c then q else p) (if c' then q' else p') := by
  by_cases hc : c
  · rw [if_pos hc]
    split
    next => exact h'
    next hc' => exact hpos hc hc' ▸ h'
  · rw [if_neg hc, if_neg (hneg hc)]
    exact h

end Position.Abreast

/-- **The alignment of a text with the one without carriage returns.** -/
def Alignment.breaks (text : List Char) : Alignment where
  alike s t := s.start.Abreast text t.start ∧ s.stop.Abreast text t.stop
  merge := by
    rintro s s' t t' ⟨hs, hs'⟩ ⟨ht, ht'⟩
    constructor
    -- spans that begin apart may begin together once a return between them is gone
    · refine hs.choose ht (fun hc hc' => ?_) fun hc => ?_
      · have hle := ht.offset_le hs (Nat.le_of_lt hc)
        exact hs.eq_of_offset ht (Nat.le_antisymm (Nat.le_of_not_lt hc') hle)
      · exact Nat.not_lt.2 (hs.offset_le ht (Nat.le_of_not_lt hc))
    · refine hs'.choose ht' (fun hc hc' => ?_) fun hc => ?_
      · have hle := hs'.offset_le ht' (Nat.le_of_lt hc)
        exact hs'.eq_of_offset ht' (Nat.le_antisymm hle (Nat.le_of_not_lt hc'))
      · exact Nat.not_lt.2 (ht'.offset_le hs' (Nat.le_of_not_lt hc))

instance (text : List Char) : (Alignment.breaks text).KeepsLines where
  line h := h.1.line

/-! ## Tokens -/

/-- Like pieces are placed abreast. -/
theorem Piece.place_like {text : List Char} (before : List Char) {ps qs : List Piece}
    (h : List.Forall₂ Piece.Like ps qs) (ht : before ++ textOf ps = text) :
    TokensLike (.breaks text) (place (Position.start.past before) ps)
      (place (Position.start.past (withoutReturns before)) qs) := by
  induction h generalizing before with
  | nil => exact .nil
  | @cons p q ps qs hp _ ih =>
    have hb : before ++ p.text <+: text := by
      rw [← ht, textOf_cons, ← List.append_assoc]
      exact List.prefix_append _ _
    have ht' : before ++ p.text ++ textOf ps = text := by
      rw [List.append_assoc]
      exact ht
    have ih := ih (before ++ p.text) ht'
    rw [Position.past_append, withoutReturns_append, Position.past_append] at ih
    cases hp with
    | gap => exact ih
    | token kind lexeme text' hs =>
      refine .cons ⟨rfl, rfl, ⟨?_, ?_⟩, hs⟩ ih
      · exact ⟨before, (List.prefix_append _ _).trans hb, rfl, rfl⟩
      · refine ⟨before ++ text', hb, (Position.past_append ..).symm, ?_⟩
        rw [withoutReturns_append, Position.past_append]

/-- **Texts with breaks of either kind have like tokens**, or one fault. -/
theorem tokenize_like {text : String} (h : ReturnsAtBreaks text.toList) :
    Alike LexicalError.Like (TokensLike (.breaks text.toList)) (tokenize text)
      (tokenize (String.ofList (withoutReturns text.toList))) := by
  have hc := Piece.cut_like h true
  unfold tokenize
  rw [String.toList_ofList]
  generalize hx : Piece.cut true text.toList = r,
    Piece.cut true (withoutReturns text.toList) = r' at hc
  cases hc with
  | ok hp =>
    have ht := Piece.textOf_cut hx
    exact .ok (Piece.place_like [] (.cons (Piece.like_bare (.token .fileStart [] [] false)) hp) ht)
  | error cut => exact .error ⟨rfl, Position.line_past_withoutReturns .start cut.before⟩

/-! ## Scripts -/

/-- A script with breaks of either kind is read alike. -/
theorem Source.readAlike_breaks (name : String) {text : String} (h : ReturnsAtBreaks text.toList) :
    ReadAlike (.breaks text.toList) ⟨name, text⟩
      ⟨name, String.ofList (withoutReturns text.toList)⟩ where
  name := rfl
  lineText := by
    funext line
    cases line with
    | zero => rfl
    | succ n => simp only [lineText, String.toList_ofList, h.lines_withoutReturns]
  tokenized := tokenize_like h

/-- The names of the module with their flags, and how their values are shown. -/
def Session.shownBindings (s : Session) : List (String × Bool × String) :=
  s.globals.bindings.map fun b => (b.name, b.isGlobal, s.machine.heap.display b.value)

theorem Session.Like.shownBindings {A : Alignment} {s t : Session} (h : s.Like A t) :
    t.shownBindings = s.shownBindings := by
  rw [Session.shownBindings, Session.shownBindings, globals, globals,
    h.machine.stack.module.symbols]
  simp only [h.machine.heap.looksLike.display]

theorem Execution.Like.console {x y : Execution} (h : x.Like y) (colour : Bool) :
    y.console colour = x.console colour := by
  rw [Execution.console, Execution.console, h.status, h.output, h.report]

/-- Like tokens have the same kinds and lexemes. -/
theorem TokensLike.lexemes {A : Alignment} {ts us : List Token} (h : TokensLike A ts us) :
    us.map (fun t => (t.kind, t.lexeme)) = ts.map fun t => (t.kind, t.lexeme) := by
  induction h with
  | nil => rfl
  | cons h _ ih => rw [List.map_cons, List.map_cons, ih, h.kind, h.lexeme]

/-- **Line breaks of either kind make the same script.** With a carriage return put
in front of each line feed, a text can be cut into tokens just when it could
before, with the same kinds and lexemes; and run by itself with any settings it
ends with the same status, shows and reports the same, asks for the same message
boxes, and leaves the same names behind. -/
theorem line_breaks_alike (text : String) (h : '\r' ∉ text.toList) :
    let text' := String.ofList (withReturns text.toList)
    ((tokenize text').toOption.map fun ts => ts.map fun t => (t.kind, t.lexeme)) =
      ((tokenize text).toOption.map fun ts => ts.map fun t => (t.kind, t.lexeme)) ∧
    ∀ (name : String) (settings : Settings) (accepts : Request → Bool),
      let x := (Session.start name settings accepts).execute text
      let x' := (Session.start name settings accepts).execute text'
      x'.1.status = x.1.status ∧ x'.1.output = x.1.output ∧ x'.1.report = x.1.report ∧
        (∀ colour, x'.1.console colour = x.1.console colour) ∧
        x'.2.machine.shown = x.2.machine.shown ∧ x'.2.shownBindings = x.2.shownBindings := by
  intro text'
  have hbreaks : ReturnsAtBreaks text'.toList := by
    rw [String.toList_ofList]
    exact returnsAtBreaks_withReturns h
  have htext : String.ofList (withoutReturns text'.toList) = text := by
    rw [String.toList_ofList, withoutReturns_withReturns h, String.ofList_toList]
  have htokens := tokenize_like hbreaks
  rw [htext] at htokens
  refine ⟨?_, fun name settings accepts => ?_⟩
  · generalize tokenize text' = r', tokenize text = r at htokens
    cases htokens with
    | ok ht => exact congrArg some ht.lexemes.symm
    | error => rfl
  · have hread := Source.readAlike_breaks name hbreaks
    rw [htext] at hread
    obtain ⟨hx, hs⟩ := (Session.like_start name settings accepts).execute hread
    exact ⟨hx.status.symm, hx.output.symm, hx.report.symm, fun colour => (hx.console colour).symm,
      hs.machine.shown.symm, hs.shownBindings.symm⟩

/-- A block comment, a box in front of a comment, an assignment, and a name without
a value, in either kind of lines. -/
theorem line_breaks_alike_boxThenUndefined :
    let text := "/*\n*/\nMsgBox one, two ; three\nx := 1\ny"
    let text' := String.ofList (withReturns text.toList)
    let x := (Session.start "breaks.ahk" {} fun _ => true).execute text
    let x' := (Session.start "breaks.ahk" {} fun _ => true).execute text'
    '\r' ∉ text.toList ∧ text'.length = text.length + 4 ∧ (tokenize text).toOption.isSome = true ∧
      (x.1.status = 1 ∧ x.1.output.length = 1 ∧ x.2.shownBindings.length = 1) ∧
      (tokenize text').toOption.isSome = true ∧ x'.1.status = 1 ∧ x'.1.output = x.1.output ∧
      x'.1.report = x.1.report ∧ x'.2.machine.shown = x.2.machine.shown ∧
      x'.2.shownBindings = x.2.shownBindings := by
  intro text text' x x'
  have hr : '\r' ∉ text.toList := by decide +kernel
  have htext : (tokenize text).toOption.isSome = true := by decide +kernel
  have hx : x.1.status = 1 ∧ x.1.output.length = 1 ∧ x.2.shownBindings.length = 1 := by
    decide +kernel
  obtain ⟨ht, hrun⟩ := line_breaks_alike text hr
  obtain ⟨hstatus, houtput, hreport, -, hshown, hbindings⟩ := hrun "breaks.ahk" {} fun _ => true
  refine ⟨hr, by decide +kernel, htext, hx, ?_, hstatus.trans hx.1, houtput, hreport, hshown,
    hbindings⟩
  have hsome := congrArg Option.isSome ht
  rw [Option.isSome_map, Option.isSome_map] at hsome
  exact hsome.trans htext

end HotkeyScript
