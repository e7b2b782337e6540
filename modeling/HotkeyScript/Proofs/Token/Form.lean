import HotkeyScript.Proofs.Token.Break
/-!
# Tokens — what one scan may give

A scan gives a comment, a whole block comment, a command with what follows it, or
a row of tokens (`Scan.Form`, `Scan.form_next`). A token that it gives is faithful:
its lexeme is its text unless its escapes were resolved (`Scan.Form.faithful`).

The inside of a block comment ends at the first closer that is alone on its line
(`Scan.interior?_closer`, `Scan.interior?_nearest`), and where the next token is to
stand first on its line it does (`Scan.Form.fresh`).
-/

namespace HotkeyScript

namespace Text

/-! ## The last line of a text -/

/-- What stands behind the last line break of a text. -/
def lastLine : List Char → List Char
  | [] => []
  | c :: cs => if '\n' ∈ c :: cs then lastLine cs else c :: cs

theorem lastLine_of_notMem {cs : List Char} (h : '\n' ∉ cs) : lastLine cs = cs := by
  cases cs with
  | nil => rfl
  | cons c cs => rw [lastLine, if_neg h]

theorem lastLine_cons_of_mem {c : Char} {cs : List Char} (h : '\n' ∈ c :: cs) :
    lastLine (c :: cs) = lastLine cs := by
  rw [lastLine, if_pos h]

/-- What stands in front of a line that is not the first does not matter. -/
theorem lastLine_append_of_mem {ds : List Char} (h : '\n' ∈ ds) (cs : List Char) :
    lastLine (cs ++ ds) = lastLine ds := by
  induction cs with
  | nil => rfl
  | cons c cs ih =>
    rw [List.cons_append, lastLine_cons_of_mem, ih]
    exact List.mem_cons_of_mem _ (List.mem_append_right _ h)

theorem lastLine_append_break (cs : List Char) : lastLine (cs ++ ['\n']) = [] :=
  lastLine_append_of_mem (List.mem_singleton_self _) cs

theorem lastLine_append_of_notMem {ds : List Char} (h : '\n' ∉ ds) (cs : List Char) :
    lastLine (cs ++ ds) = lastLine cs ++ ds := by
  induction cs with
  | nil => exact lastLine_of_notMem h
  | cons c cs ih =>
    by_cases hc : '\n' ∈ c :: cs
    · have hcd : '\n' ∈ c :: (cs ++ ds) := List.mem_append_left ds hc
      rw [List.cons_append, lastLine_cons_of_mem hcd, lastLine_cons_of_mem hc, ih]
    · have hcd : '\n' ∉ c :: cs ++ ds := by
        rw [List.mem_append, not_or]
        exact ⟨hc, h⟩
      rw [lastLine_of_notMem hc, lastLine_of_notMem hcd]

end Text

open Text

/-! ## What one scan may give -/

/-- A piece as a scan may give it: no start or end of a file, a line end just for
a line break, and a lexeme that is its text unless its escapes are resolved. -/
inductive Piece.Faithful : Piece → Prop where
  | token {kind : TokenKind} {lexeme text : List Char} (spaced : Bool) :
      kind ≠ .fileStart → kind ≠ .fileEnd → (kind = .lineEnd → text = ['\n']) →
      (kind ≠ .quoted → kind ≠ .raw → lexeme = text) → Faithful (.token kind lexeme text spaced)

namespace Piece.Faithful

/-- A token inside the text, whose lexeme is its text. -/
theorem plain {kind : TokenKind} (text : List Char) (spaced : Bool)
    (h : kind ≠ .fileStart ∧ kind ≠ .fileEnd ∧ kind ≠ .lineEnd) :
    (Piece.token kind text text spaced).Faithful :=
  .token spaced h.1 h.2.1 (fun he => (h.2.2 he).elim) fun _ _ => rfl

theorem raw (lexeme text : List Char) (spaced : Bool) :
    (Piece.token .raw lexeme text spaced).Faithful :=
  .token spaced nofun nofun nofun fun _ hr => (hr rfl).elim

theorem quoted (lexeme text : List Char) (spaced : Bool) :
    (Piece.token .quoted lexeme text spaced).Faithful :=
  .token spaced nofun nofun nofun fun hq _ => (hq rfl).elim

end Piece.Faithful

namespace Scan

/-- **What one scan may give** from a character and what follows it: a comment, a
whole block comment, a command with what follows it, or a row of tokens. -/
inductive Form (lineStart : Bool) : Char → List Char → Scan → Prop where
  | comment (cs : List Char) : Form lineStart ';' cs (.comment cs)
  | block {spaced : Bool} {cs inside rest : List Char} : lineStart = true →
      restIsWhite cs = true → interior? false cs = some (inside, rest) →
      Form lineStart '/' ('*' :: cs)
        ⟨[.token .openComment ['/', '*'] ['/', '*'] spaced, .gap inside,
          .token .closeComment ['*', '/'] ['*', '/'] spaced], rest⟩
  | command {c : Char} {cs name blanks rest : List Char} {spaced : Bool} {ps : List Piece} :
      (∀ b ∈ blanks, isBlank b = true) → (∀ p ∈ ps, p.Faithful) →
      Form lineStart c cs ⟨.token .command name name spaced :: .gap blanks :: ps, rest⟩
  | tokens {c : Char} {cs rest : List Char} {ps : List Piece} : ps ≠ [] → (∀ p ∈ ps, p.Faithful) →
      Form lineStart c cs ⟨ps, rest⟩

variable {lineStart spaced : Bool} {c : Char} {cs : List Char} {s : Scan}

theorem Form.one {p : Piece} (hp : p.Faithful) (rest : List Char) :
    Form lineStart c cs ⟨[p], rest⟩ := by
  refine .tokens (List.cons_ne_nil p []) fun q hq => ?_
  rw [List.mem_singleton.1 hq]
  exact hp

theorem inner_of_punctuation? {kind : TokenKind} (h : punctuation? c = some kind) :
    kind ≠ .fileStart ∧ kind ≠ .fileEnd ∧ (kind = .lineEnd → c = '\n') := by
  unfold punctuation? at h
  split at h <;> cases h <;> simp

theorem inner_ofWord? (w : String) :
    (TokenKind.ofWord? w).getD .identifier ≠ .fileStart ∧
      (TokenKind.ofWord? w).getD .identifier ≠ .fileEnd ∧
      (TokenKind.ofWord? w).getD .identifier ≠ .lineEnd := by
  unfold TokenKind.ofWord?
  split <;> simp

theorem form_star : Form lineStart c cs (star spaced cs) := by
  unfold star
  split
  · exact .one (.plain _ _ (by decide)) _
  · exact .one (.plain _ _ (by decide)) _

theorem form_slash (h : slash lineStart spaced cs = .ok s) : Form lineStart '/' cs s := by
  unfold slash at h
  split at h
  next cs =>
    split at h
    next hopen =>
      obtain ⟨hl, hw⟩ := Bool.and_eq_true_iff.1 hopen
      split at h
      next hi => cases h; exact .block hl hw hi
      next => cases h
    next => cases h; exact .one (.plain _ _ (by decide)) _
  next => cases h; exact .one (.plain _ _ (by decide)) _

theorem form_colon (h : colon spaced cs = .ok s) : Form lineStart c cs s := by
  unfold colon at h
  split at h <;> cases h
  · exact .one (.plain _ _ (by decide)) _
  · exact .one (.plain _ _ (by decide)) _

theorem form_equals : Form lineStart c cs (equals spaced cs) := by
  refine .tokens (List.cons_ne_nil _ _) fun p hp => ?_
  obtain rfl | hp := List.mem_cons.1 hp
  · exact .plain _ _ (by decide)
  · rw [List.mem_singleton.1 hp]
    exact .raw _ _ _

theorem form_quote (h : quote spaced cs = .ok s) : Form lineStart c cs s := by
  unfold quote at h
  split at h <;> cases h
  exact .one (.quoted _ _ _) _

/-- What a number literal takes is the whole run of characters that may stand in one. -/
theorem digits_run {shape final : Shape} {cs text rest : List Char}
    (h : digits shape cs = .ok (final, text, rest)) :
    text = cs.takeWhile isNumberChar ∧ rest = cs.dropWhile isNumberChar := by
  induction cs generalizing shape text with
  | nil => cases h; exact ⟨rfl, rfl⟩
  | cons c cs ih =>
    unfold digits at h
    split at h
    next hc =>
      split at h
      · cases h
      · split at h
        next hd =>
          cases h
          obtain ⟨htext, hrest⟩ := ih hd
          rw [List.takeWhile_cons_of_pos hc, List.dropWhile_cons_of_pos hc]
          exact ⟨congrArg (c :: ·) htext, hrest⟩
        next => cases h
    next hc =>
      cases h
      rw [List.takeWhile_cons_of_neg hc, List.dropWhile_cons_of_neg hc]
      exact ⟨rfl, rfl⟩

/-- A character that a number literal is refused for stands in that run, behind what was
read of it. -/
theorem digits_run_error {shape : Shape} {cs before : List Char} {d : Char}
    (h : digits shape cs = .error (before, d)) :
    ∃ more, cs.takeWhile isNumberChar = before ++ d :: more := by
  induction cs generalizing shape before with
  | nil => cases h
  | cons c cs ih =>
    unfold digits at h
    split at h
    next hc =>
      rw [List.takeWhile_cons_of_pos hc]
      split at h
      · cases h
        exact ⟨_, rfl⟩
      · split at h
        next => cases h
        next hd =>
          cases h
          obtain ⟨more, hmore⟩ := ih hd
          exact ⟨more, congrArg (c :: ·) hmore⟩
    next => cases h

theorem form_number (h : number spaced c cs = .ok s) : Form lineStart c cs s := by
  unfold number at h
  split at h
  · cases h
  next shape text rest hd =>
    split at h <;> cases h
    refine .one (.plain _ _ ?_) _
    cases shape <;> decide

theorem faithful_argumentPieces (tail : List Char) (args : List (List Char)) :
    ∀ p ∈ argumentPieces spaced tail args, p.Faithful := by
  fun_induction argumentPieces spaced tail args with
  | case1 => exact fun p hp => nomatch hp
  | case2 arg =>
    intro p hp
    rw [List.mem_singleton.1 hp]
    exact .raw _ _ _
  | case3 arg args _ ih =>
    intro p hp
    obtain rfl | hp := List.mem_cons.1 hp
    · exact .raw _ _ _
    obtain rfl | hp := List.mem_cons.1 hp
    · exact .plain _ _ (by decide)
    · exact ih p hp

theorem faithful_leadingComma (cs : List Char) : ∀ p ∈ leadingComma spaced cs, p.Faithful := by
  unfold leadingComma
  split
  · intro p hp
    rw [List.mem_singleton.1 hp]
    exact .plain _ _ (by decide)
  · exact fun p hp => nomatch hp

theorem isBlank_of_mem_takeWhile (cs : List Char) :
    ∀ b ∈ cs.takeWhile isBlank, isBlank b = true :=
  List.all_eq_true.1 List.all_takeWhile

theorem form_word : Form lineStart c cs (word spaced c cs) := by
  unfold word
  dsimp only
  split
  next hk =>
    rw [hk]
    unfold afterCommand
    dsimp only
    split
    · exact .command (isBlank_of_mem_takeWhile _) fun p hp => nomatch hp
    · refine .command (isBlank_of_mem_takeWhile _) fun p hp => ?_
      exact (List.mem_append.1 hp).elim (faithful_leadingComma _ p) (faithful_argumentPieces _ _ p)
  next => exact .one (.plain _ _ (inner_ofWord? _)) _

/-- **What a scan gives has one of the forms.** -/
theorem form_next (h : next lineStart spaced c cs = .ok s) : Form lineStart c cs s := by
  unfold next at h
  split at h
  next kind hk =>
    cases h
    obtain ⟨hs, he, hl⟩ := inner_of_punctuation? hk
    exact .one (.token _ hs he (fun hn => by rw [hl hn]) fun _ _ => rfl) _
  · split at h
    next hc => cases h; exact hc ▸ .comment cs
    split at h
    next => cases h; exact form_star
    split at h
    next hc => exact hc ▸ form_slash h
    split at h
    next => exact form_colon h
    split at h
    next => cases h; exact form_equals
    split at h
    next => exact form_quote h
    split at h
    next => exact form_number h
    split at h
    next => cases h; exact form_word
    next => cases h; exact .one (.plain _ _ (by decide)) _

/-! ## The inside of a block comment -/

/-- The closer has only blanks in front of it on its line, which is a later one
unless the search began on a blank line, and only white space behind it. -/
theorem interior?_closer {fresh : Bool} {cs inside rest : List Char}
    (h : interior? fresh cs = some (inside, rest)) :
    restIsWhite rest = true ∧ (∀ c ∈ lastLine inside, isBlank c = true) ∧
      ('\n' ∈ inside ∨ fresh = true) := by
  induction cs generalizing fresh inside with
  | nil => cases h
  | cons c cs ih =>
    rw [interior?] at h
    split at h
    next hclose =>
      cases h
      obtain ⟨hfresh, hc⟩ := Bool.and_eq_true_iff.1 hclose
      obtain ⟨ds, hd⟩ := exists_of_closesHere hc
      cases hd
      refine ⟨hc, fun c hm => ?_, .inr hfresh⟩
      exact absurd hm List.not_mem_nil
    next =>
      obtain ⟨⟨inside, rest⟩, hr, he⟩ := Option.map_eq_some_iff.1 h
      cases he
      obtain ⟨hwhite, hlast, hbreak⟩ := ih hr
      by_cases hin : '\n' ∈ inside
      · have hm : '\n' ∈ c :: inside := List.mem_cons_of_mem c hin
        exact ⟨hwhite, by rwa [lastLine_cons_of_mem hm], .inl hm⟩
      by_cases hc : c = '\n'
      · have hm : '\n' ∈ c :: inside := hc ▸ List.mem_cons_self
        exact ⟨hwhite, by rwa [lastLine_cons_of_mem hm], .inl hm⟩
      · -- the closer is on the line of `c`, so that line was blank up to here
        have hfresh := hbreak.resolve_left hin
        rw [beq_eq_false_iff_ne.2 hc, Bool.false_or, Bool.and_eq_true] at hfresh
        have hm : '\n' ∉ c :: inside := by
          rw [List.mem_cons, not_or]
          exact ⟨fun he => hc he.symm, hin⟩
        rw [lastLine_of_notMem hin] at hlast
        refine ⟨hwhite, ?_, .inr hfresh.1⟩
        rw [lastLine_of_notMem hm]
        exact List.forall_mem_cons.2 ⟨hfresh.2, hlast⟩

/-- No line of the inside would have closed the comment: neither the one that the
search began on, where only blanks were seen of it, nor a later one. -/
theorem interior?_nearest {fresh : Bool} {cs inside rest : List Char}
    (h : interior? fresh cs = some (inside, rest)) :
    (fresh = true → ∀ line b, inside = line ++ '\n' :: b → '\n' ∉ line →
      closesHere (line.dropWhile isBlank) = false) ∧
    ∀ a line b, inside = a ++ '\n' :: line ++ '\n' :: b → '\n' ∉ line →
      closesHere (line.dropWhile isBlank) = false := by
  induction cs generalizing fresh inside with
  | nil => cases h
  | cons c cs ih =>
    rw [interior?] at h
    split at h
    next =>
      cases h
      exact ⟨fun _ line b he => by simp at he, fun a line b he => by simp at he⟩
    next hclose =>
      obtain ⟨⟨inside, rest⟩, hr, he⟩ := Option.map_eq_some_iff.1 h
      cases he
      obtain ⟨hfirst, hlater⟩ := ih hr
      constructor
      · rintro rfl line b hi hline
        cases line with
        | nil => rfl
        | cons d line =>
          simp only [List.cons_append, List.cons.injEq] at hi
          obtain ⟨rfl, rfl⟩ := hi
          by_cases hd : isBlank c = true
          · rw [List.dropWhile_cons_of_pos hd]
            refine hfirst ?_ line b rfl fun hm => hline (List.mem_cons_of_mem c hm)
            rw [hd, Bool.and_self, Bool.or_true]
          · -- the line begins here, and what was read of it does not close
            have hcs : line ++ '\n' :: (b ++ '*' :: '/' :: rest) = cs := by
              rw [← interior?_append hr, List.append_assoc, List.cons_append]
            rw [← hcs, Bool.true_and] at hclose
            rw [List.dropWhile_cons_of_neg hd, ← closesHere_append_break _ c line]
            exact Bool.eq_false_iff.2 hclose
      · intro a line b hi hline
        cases a with
        | nil =>
          simp only [List.nil_append, List.cons_append, List.cons.injEq] at hi
          obtain ⟨rfl, hi⟩ := hi
          exact hfirst rfl line b hi hline
        | cons d a =>
          simp only [List.cons_append, List.cons.injEq] at hi
          exact hlater a line b hi.2 hline

/-! ## Where the next token stands first on its line -/

/-- Behind a text, the next token stands first on its line, if the line goes on. -/
def Fresh (pre cs : List Char) : Prop :=
  (∀ c ∈ lastLine pre, isBlank c = true) ∨ thisLine cs = []

/-- Tokens behind which a line starts end with a line break. -/
theorem exists_break_of_startsLine {ps : List Piece} (hne : ps ≠ []) (hp : ∀ p ∈ ps, p.Faithful)
    {rest : List Char} {before : Bool} (h : startsLine ⟨ps, rest⟩ before = true) :
    ∃ x, Piece.textOf ps = x ++ ['\n'] := by
  induction ps generalizing before with
  | nil => exact (hne rfl).elim
  | cons p ps ih =>
    obtain ⟨hfirst, hps⟩ := List.forall_mem_cons.1 hp
    by_cases hnil : ps = []
    · subst hnil
      cases hfirst with
      | token spaced _ _ hl _ =>
        refine ⟨[], ?_⟩
        rw [Piece.textOf_cons, Piece.text, hl (beq_iff_eq.1 h)]
        rfl
    · obtain ⟨x, hx⟩ := ih hnil hps h
      exact ⟨p.text ++ x, by rw [Piece.textOf_cons, hx, List.append_assoc]⟩

/-- What follows a line starts with its break, if with anything. -/
theorem fromLineEnd_cases (cs : List Char) :
    fromLineEnd cs = [] ∨ ∃ rest, fromLineEnd cs = '\n' :: rest := by
  cases hr : fromLineEnd cs with
  | nil => exact .inl rfl
  | cons c rest =>
    have hc := List.head?_dropWhile_not (· != '\n') cs
    rw [fromLineEnd] at hr
    rw [hr] at hc
    have hc : c = '\n' := by simpa using hc
    exact .inr ⟨rest, by rw [hc]⟩

/-- Behind a scan, a token that is to stand first on its line does. -/
theorem Form.fresh (h : Form lineStart c cs s) (hl : s.startsLine lineStart = true)
    (pre : List Char) : Fresh (pre ++ Piece.textOf s.pieces) s.rest := by
  have hfresh {x : List Char} (hx : ∃ y, x = y ++ ['\n']) : Fresh (pre ++ x) s.rest := by
    obtain ⟨y, rfl⟩ := hx
    left
    rw [← List.append_assoc, lastLine_append_break]
    exact fun c hm => absurd hm List.not_mem_nil
  cases h with
  | comment cs =>
    right
    obtain hr | ⟨rest, hr⟩ := fromLineEnd_cases cs
    · rw [Scan.comment, hr]
      rfl
    · rw [Scan.comment, hr]
      rfl
  | block => cases hl
  | @command _ _ name blanks rest spaced ps hb hp =>
    by_cases hnil : ps = []
    · subst hnil
      cases hl
    · have hl : startsLine ⟨ps, rest⟩ false = true := hl
      obtain ⟨x, hx⟩ := exists_break_of_startsLine hnil hp hl
      refine hfresh ⟨name ++ (blanks ++ x), ?_⟩
      simp [Piece.text, hx]
  | tokens hne hp => exact hfresh (exists_break_of_startsLine hne hp hl)

/-- Blanks in front of a token that is to stand first on its line do not matter. -/
theorem Fresh.blank {pre bs tail : List Char} (h : Fresh pre (bs ++ c :: tail)) (hc : c ≠ '\n')
    (hb : ∀ b ∈ bs, isBlank b = true) : ∀ b ∈ lastLine (pre ++ bs), isBlank b = true := by
  have hbreak : '\n' ∉ bs := fun hm => absurd (hb _ hm) (by decide)
  cases h with
  | inl h =>
    rw [lastLine_append_of_notMem hbreak]
    exact fun b hm => (List.mem_append.1 hm).elim (h b) (hb b)
  | inr h =>
    have hd {d : Char} {ds : List Char} (hd : d ≠ '\n') : thisLine (d :: ds) ≠ [] := by
      have hp : (d != '\n') = true := bne_iff_ne.2 hd
      rw [thisLine, List.takeWhile_cons, hp]
      exact List.cons_ne_nil _ _
    cases bs with
    | nil => exact (hd hc h).elim
    | cons b bs => exact (hd (fun he => hbreak (he ▸ List.mem_cons_self)) h).elim

/-- Each token of a scan is faithful. -/
theorem Form.faithful (h : Form lineStart c cs s) {kind : TokenKind} {lexeme text : List Char}
    {spaced : Bool} (hm : .token kind lexeme text spaced ∈ s.pieces) :
    (Piece.token kind lexeme text spaced).Faithful := by
  cases h with
  | comment => simp [Scan.comment] at hm
  | block =>
    simp only [List.mem_cons, reduceCtorEq, List.not_mem_nil, or_false, false_or] at hm
    obtain h | h := hm <;> cases h <;> exact .plain _ _ (by decide)
  | command hb hp =>
    simp only [List.mem_cons, reduceCtorEq, false_or] at hm
    obtain h | h := hm
    · cases h
      exact .plain _ _ (by decide)
    · exact hp _ h
  | tokens hne hp => exact hp _ hm

end Scan

end HotkeyScript
