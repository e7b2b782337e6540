import HotkeyScript.Proofs.Token.Break
/-!
# Tokens — how far a scan looks ahead

A scan decides by what comes next where it stops, and no scan looks past a `;` or a
line break for it. So a scan that stops in front of one rest stops in front of
another, with the same pieces, where the two rests differ only behind a `;` or a line
break (`SameAhead`, `Scan.steady_next`). There is one lemma for each scan.

A cut comes scan by scan to the rests of its text (`Piece.Reaches`), and what it has
come past on the way to one rest it comes past on the way to the other
(`Piece.Reaches.behind`).
-/

namespace HotkeyScript

open Text

/-! ## Rests that are the same ahead -/

/-- Rests that differ only behind a `;` or a line break. -/
inductive SameAhead : List Char → List Char → Prop where
  | stop {m : Char} (r s : List Char) : m = ';' ∨ m = '\n' → SameAhead (m :: r) (m :: s)
  | cons (c : Char) {r s : List Char} : SameAhead r s → SameAhead (c :: r) (c :: s)

namespace SameAhead

variable {r s : List Char}

theorem append (h : SameAhead r s) (t : List Char) : SameAhead (t ++ r) (t ++ s) := by
  induction t with
  | nil => exact h
  | cons c t ih => exact .cons c ih

theorem exists_cons (h : SameAhead r s) : ∃ c r' s', r = c :: r' ∧ s = c :: s' := by
  cases h with
  | stop r s => exact ⟨_, r, s, rfl, rfl⟩
  | cons c => exact ⟨c, _, _, rfl, rfl⟩

theorem head? (h : SameAhead r s) : s.head? = r.head? := by
  obtain ⟨c, r', s', rfl, rfl⟩ := h.exists_cons
  rfl

theorem restIsWhite (h : SameAhead r s) : Scan.restIsWhite s = Scan.restIsWhite r := by
  induction h with
  | stop r s hm => obtain rfl | rfl := hm <;> rfl
  | cons c _ ih =>
    unfold Scan.restIsWhite thisLine at ih ⊢
    simp only [List.takeWhile_cons]
    split
    · simp only [List.all_cons, ih]
    · rfl

theorem closesHere (h : SameAhead r s) : Scan.closesHere s = Scan.closesHere r := by
  cases h with
  | stop r s hm => obtain rfl | rfl := hm <;> rfl
  | cons c h =>
    cases h with
    | stop r s hm =>
      obtain rfl | rfl := hm <;> simp [Scan.closesHere]
    | cons d h =>
      by_cases hcd : c = '*' ∧ d = '/'
      · obtain ⟨rfl, rfl⟩ := hcd
        exact h.restIsWhite
      · unfold Scan.closesHere
        split <;> split <;> simp_all

theorem readsExpression (h : SameAhead r s) : Scan.readsExpression s = Scan.readsExpression r := by
  obtain ⟨c, r', s', rfl, rfl⟩ := h.exists_cons
  cases h with
  | stop _ _ hm => obtain rfl | rfl := hm <;> rfl
  | cons _ h =>
    obtain ⟨d, r', s', rfl, rfl⟩ := h.exists_cons
    unfold Scan.readsExpression
    split <;> simp_all

/-- A run of characters of one class that stops in front of the one rest, or
before, stops there with the other rest. -/
theorem takeWhile (h : SameAhead r s) {p : Char → Bool} {t u : List Char}
    (hd : (t ++ r).dropWhile p = u ++ r) :
    (t ++ s).takeWhile p = (t ++ r).takeWhile p ∧ (t ++ s).dropWhile p = u ++ s := by
  induction t with
  | nil =>
    obtain ⟨c, r', s', rfl, rfl⟩ := h.exists_cons
    have hc : ¬ p c = true := by
      intro hc
      have hle := (List.dropWhile_sublist p (l := r')).length_le
      rw [List.nil_append, List.dropWhile_cons_of_pos hc] at hd
      rw [hd, List.length_append, List.length_cons] at hle
      omega
    rw [List.nil_append, List.dropWhile_cons_of_neg hc, List.self_eq_append_left] at hd
    rw [List.nil_append, List.nil_append, List.takeWhile_cons_of_neg hc,
      List.takeWhile_cons_of_neg hc, List.dropWhile_cons_of_neg hc, hd]
    exact ⟨rfl, rfl⟩
  | cons a t ih =>
    by_cases ha : p a = true
    · rw [List.cons_append, List.dropWhile_cons_of_pos ha] at hd
      obtain ⟨ht, hl⟩ := ih hd
      rw [List.cons_append, List.cons_append, List.takeWhile_cons_of_pos ha,
        List.takeWhile_cons_of_pos ha, List.dropWhile_cons_of_pos ha, ht]
      exact ⟨rfl, hl⟩
    · rw [List.cons_append, List.dropWhile_cons_of_neg ha, ← List.cons_append,
        List.append_cancel_right_eq] at hd
      rw [List.cons_append, List.cons_append, List.takeWhile_cons_of_neg ha,
        List.takeWhile_cons_of_neg ha, List.dropWhile_cons_of_neg ha, ← hd]
      exact ⟨rfl, rfl⟩

/-- What was read of a line, when the rest begins where the line ends. -/
theorem line (h : SameAhead r s) {t : List Char} (hd : fromLineEnd (t ++ r) = r) :
    thisLine (t ++ s) = thisLine (t ++ r) ∧ fromLineEnd (t ++ s) = s :=
  h.takeWhile (u := []) hd

end SameAhead

namespace Scan

/-! ## Scans that do not look past them -/

/-- A scan that stops in front of a rest stops so in front of any that is the same
ahead. -/
def Steady (scan : List Char → Except Cut Scan) : Prop :=
  ∀ (r s t : List Char) (ps : List Piece), SameAhead r s →
    scan (t ++ r) = .ok ⟨ps, r⟩ → scan (t ++ s) = .ok ⟨ps, s⟩

/-- A token that leaves all that follows its first character. -/
theorem steady_all (ps : List Piece) : Steady fun cs => .ok ⟨ps, cs⟩ := by
  intro r s t qs hrs h
  obtain ⟨rfl, ht⟩ := Scan.mk.inj (Except.ok.inj h)
  rw [List.append_left_eq_self.1 ht]
  rfl

theorem Steady.ite {p : Prop} [Decidable p] {f g : List Char → Except Cut Scan}
    (hf : p → Steady f) (hg : ¬ p → Steady g) : Steady fun cs => if p then f cs else g cs := by
  by_cases hp : p
  · simpa only [if_pos hp] using hf hp
  · simpa only [if_neg hp] using hg hp

/-- A scan that takes the rest of its line. -/
theorem steady_line (pieces : List Char → List Piece) :
    Steady fun cs => .ok ⟨pieces (thisLine cs), fromLineEnd cs⟩ := by
  intro r s t ps hrs h
  obtain ⟨rfl, hd⟩ := Scan.mk.inj (Except.ok.inj h)
  obtain ⟨hline, hs⟩ := hrs.line hd
  simp only [hline, hs]

/-- A scan that takes one character more if it is a certain one, and all that a
steady scan takes behind it. -/
theorem Steady.cons {scan f : List Char → Except Cut Scan} {d : Char} {p : List Piece}
    (hscan : ∀ a cs, scan (a :: cs) = if a = d then f cs else .ok ⟨p, a :: cs⟩)
    (hf : Steady f) (hle : ∀ {cs s}, f cs = .ok s → s.rest.length ≤ cs.length) : Steady scan := by
  intro r s t ps hrs h
  cases t with
  | nil =>
    obtain ⟨c, r', s', rfl, rfl⟩ := hrs.exists_cons
    rw [List.nil_append, hscan] at h ⊢
    split at h
    next => exact absurd (hle h) (Nat.not_succ_le_self _)
    next hc => cases h; rw [if_neg hc]
  | cons a t =>
    rw [List.cons_append, hscan] at h ⊢
    split at h
    next ha => rw [if_pos ha]; exact hf _ _ _ _ hrs h
    next ha =>
      obtain ⟨rfl, ht⟩ := Scan.mk.inj (Except.ok.inj h)
      exact absurd (List.append_left_eq_self.1 ht) (List.cons_ne_nil a t)

theorem steady_star (spaced : Bool) : Steady fun cs => .ok (star spaced cs) := by
  refine Steady.cons (f := fun cs => .ok (plain .closeComment ['*', '/'] spaced cs)) (d := '/')
    (p := [.token .times ['*'] ['*'] spaced]) (fun a cs => ?_) (steady_all _) fun h => ?_
  · unfold star
    split <;> simp_all [plain]
  · cases h
    exact Nat.le_refl _

theorem steady_colon (spaced : Bool) : Steady (colon spaced) := by
  refine Steady.cons (f := fun cs => .ok (plain .assign [':', '='] spaced cs)) (d := '=')
    (p := [.token .colon [':'] [':'] spaced]) (fun a cs => ?_) (steady_all _) fun h => ?_
  · unfold colon
    split <;> simp_all [plain]
  · cases h
    exact Nat.le_refl _

/-! ## Block comments -/

/-- A block comment that is closed before a rest is closed before any that is the
same ahead. -/
theorem steady_interior? {r s t inside : List Char} {fresh : Bool} (hrs : SameAhead r s)
    (h : interior? fresh (t ++ r) = some (inside, r)) :
    interior? fresh (t ++ s) = some (inside, s) := by
  induction t generalizing fresh inside with
  | nil =>
    have hl := congrArg List.length (interior?_append h)
    simp only [List.length_append, List.length_cons, List.nil_append] at hl
    omega
  | cons a t ih =>
    have hc : closesHere (a :: (t ++ s)) = closesHere (a :: (t ++ r)) :=
      (hrs.append (a :: t)).closesHere
    rw [List.cons_append, interior?] at h ⊢
    rw [hc]
    split at h
    next hclose =>
      rw [if_pos hclose]
      simp only [Option.some.injEq, Prod.mk.injEq] at h ⊢
      refine ⟨h.1, ?_⟩
      cases t with
      | nil => exact absurd (congrArg List.length h.2) (by cases hrs <;> simp)
      | cons b t =>
        rw [List.append_left_eq_self.1 h.2]
        rfl
    next hclose =>
      obtain ⟨⟨inside, r'⟩, hr, he⟩ := Option.map_eq_some_iff.1 h
      cases he
      rw [if_neg hclose, ih hr]
      rfl

/-- What is read behind a `/*`. -/
def afterOpener (lineStart spaced : Bool) (cs : List Char) : Except Cut Scan :=
  if lineStart && restIsWhite cs then
    match interior? false cs with
    | some (inside, rest) =>
      .ok ⟨[.token .openComment ['/', '*'] ['/', '*'] spaced, .gap inside,
        .token .closeComment ['*', '/'] ['*', '/'] spaced], rest⟩
    | none => .error ⟨.unclosedComment, '/' :: '*' :: cs, []⟩
  else .ok (plain .openComment ['/', '*'] spaced cs)

theorem steady_afterOpener (lineStart spaced : Bool) : Steady (afterOpener lineStart spaced) := by
  intro r s t ps hrs h
  unfold afterOpener at h ⊢
  rw [(hrs.append t).restIsWhite]
  split at h
  next hopen =>
    rw [if_pos hopen]
    split at h
    next hi => cases h; rw [steady_interior? hrs hi]
    next => cases h
  next hopen =>
    rw [if_neg hopen]
    exact steady_all _ _ _ _ _ hrs h

theorem steady_slash (lineStart spaced : Bool) : Steady (slash lineStart spaced) := by
  refine Steady.cons (f := afterOpener lineStart spaced) (d := '*')
    (p := [.token .divide ['/'] ['/'] spaced]) (fun a cs => ?_)
    (steady_afterOpener lineStart spaced) fun h => ?_
  · by_cases ha : a = '*'
    · rw [if_pos ha, ha]
      rfl
    · rw [if_neg ha]
      unfold slash
      split <;> simp_all [plain]
  · unfold afterOpener at h
    split at h
    · split at h
      next hi =>
        cases h
        rw [← interior?_append hi]
        simp only [List.length_append, List.length_cons]
        omega
      next => cases h
    · cases h
      exact Nat.le_refl _

/-! ## Strings and numbers -/

theorem string?_text_ne_nil {cs value text rest : List Char}
    (h : string? cs = some (value, text, rest)) : text ≠ [] := by
  unfold string? at h
  split at h
  · obtain ⟨r, -, he⟩ := Option.map_eq_some_iff.1 h
    cases he
    exact List.cons_ne_nil _ _
  · cases h
    exact List.cons_ne_nil _ _
  · split at h
    · cases h
    · obtain ⟨r, -, he⟩ := Option.map_eq_some_iff.1 h
      cases he
      exact List.cons_ne_nil _ _
  · cases h

/-- A string that is closed before a rest is closed before any that is the same
ahead: no quote was doubled by the first of what follows. -/
theorem steady_string? {r s t value text : List Char} (hrs : SameAhead r s)
    (h : string? (t ++ r) = some (value, text, r)) :
    string? (t ++ s) = some (value, text, s) := by
  have htext := List.append_cancel_right (string?_append h)
  subst htext
  fun_induction string? text generalizing value with
  | case1 cs ih =>
    obtain ⟨⟨v, t, r'⟩, hr, he⟩ := Option.map_eq_some_iff.1 h
    cases he
    rw [List.cons_append, List.cons_append, string?, ih hr]
    rfl
  | case2 cs hq =>
    obtain ⟨c, r', s', hrc, hsc⟩ := (hrs.append cs).exists_cons
    rw [List.cons_append, hrc] at h
    rw [List.cons_append, hsc]
    by_cases hc : c = '"'
    · subst hc
      obtain ⟨r, -, he⟩ := Option.map_eq_some_iff.1 h
      cases cs with
      | nil => simp at he
      | cons a cs => cases hrc; exact absurd rfl (hq cs)
    · rw [string?_quote hc] at h ⊢
      simp only [Option.some.injEq, Prod.mk.injEq, List.cons.injEq] at h
      obtain ⟨rfl, ⟨-, rfl⟩, -⟩ := h
      rw [← hsc]
      rfl
  | case3 => cases h
  | case4 c cs hq hq' hn ih =>
    rw [List.cons_append, string?_char (fun hc => hq' hc) hn] at h ⊢
    obtain ⟨⟨v, t, r'⟩, hr, he⟩ := Option.map_eq_some_iff.1 h
    cases he
    rw [ih hr]
    rfl
  | case5 => exact absurd rfl (string?_text_ne_nil h)

theorem steady_quote (spaced : Bool) : Steady (quote spaced) := by
  intro r s t ps hrs h
  unfold quote at h
  split at h
  next hs =>
    cases h
    rw [quote, steady_string? hrs hs]
  next => cases h

theorem steady_digits {r s t text : List Char} {shape final : Shape} (hrs : SameAhead r s)
    (h : digits shape (t ++ r) = .ok (final, text, r)) :
    digits shape (t ++ s) = .ok (final, text, s) := by
  induction t generalizing shape text with
  | nil =>
    obtain ⟨c, r', s', rfl, rfl⟩ := hrs.exists_cons
    have htext := List.append_left_eq_self.1 (digits_append h)
    subst htext
    rw [List.nil_append, digits] at h ⊢
    split at h
    next =>
      split at h
      · cases h
      · split at h <;> cases h
    next hc => cases h; rw [if_neg hc]
  | cons c t ih =>
    rw [List.cons_append, digits, (hrs.append t).head?]
    rw [List.cons_append, digits] at h
    split at h
    next hc =>
      rw [if_pos hc]
      cases hn : shape.next? c (t ++ r).head? with
      | none => rw [hn] at h; cases h
      | some next =>
        rw [hn] at h
        cases hd : digits next (t ++ r) with
        | error e => simp only [hd] at h; cases h
        | ok d =>
          obtain ⟨f, u, l⟩ := d
          simp only [hd] at h
          cases h
          simp only [ih hd]
    next hc =>
      simp only [Except.ok.injEq, Prod.mk.injEq, ← List.cons_append] at h
      exact absurd (List.append_left_eq_self.1 h.2.2) (List.cons_ne_nil c t)

theorem steady_number (spaced : Bool) (c : Char) : Steady (number spaced c) := by
  intro r s t ps hrs h
  unfold number at h
  split at h
  · cases h
  next hd =>
    split at h
    next => cases h
    next hx =>
      cases h
      rw [number, steady_digits hrs hd]
      simp only [if_neg hx]
      rfl

/-! ## Commands and words -/

/-- The comment behind arguments and what follows it were there to read. -/
theorem length_arguments_le (afterGap : Bool) (cs : List Char) :
    (arguments afterGap cs).2.1.length + (arguments afterGap cs).2.2.length ≤ cs.length := by
  induction cs generalizing afterGap with
  | nil => exact Nat.le_refl _
  | cons c cs ih =>
    have hline := congrArg List.length (thisLine_append_fromLineEnd cs)
    rw [List.length_append] at hline
    rw [arguments, List.length_cons]
    split
    · simp
    split
    · simp only [List.length_cons]
      omega
    split
    · exact Nat.le_succ_of_le (ih false)
    · exact Nat.le_succ_of_le (ih (isGap c))

theorem arguments_rest_length_le (afterGap : Bool) (cs : List Char) :
    (arguments afterGap cs).2.2.length ≤ cs.length :=
  Nat.le_trans (Nat.le_add_left _ _) (length_arguments_le afterGap cs)

/-- Arguments take a character that does not end their line. -/
theorem arguments_rest_length_lt (afterGap : Bool) {c : Char} (hc : c ≠ '\n') (cs : List Char) :
    (arguments afterGap (c :: cs)).2.2.length < (c :: cs).length := by
  rw [arguments, if_neg hc]
  refine Nat.lt_succ_of_le ?_
  split
  · exact (List.dropWhile_sublist (· != '\n')).length_le
  split
  · exact arguments_rest_length_le false cs
  · exact arguments_rest_length_le (isGap c) cs

/-- Arguments end with their line. -/
theorem steady_arguments {r s t : List Char} {afterGap : Bool} (hrs : SameAhead r s)
    (h : (arguments afterGap (t ++ r)).2.2 = r) :
    arguments afterGap (t ++ s) =
      ((arguments afterGap (t ++ r)).1, (arguments afterGap (t ++ r)).2.1, s) := by
  induction t generalizing afterGap with
  | nil =>
    obtain ⟨c, r', s', rfl, rfl⟩ := hrs.exists_cons
    have hc : c = '\n' := by
      refine Decidable.byContradiction fun hc => ?_
      have hlt := arguments_rest_length_lt afterGap hc r'
      rw [List.nil_append] at h
      rw [h] at hlt
      exact Nat.lt_irrefl _ hlt
    subst hc
    rfl
  | cons a t ih =>
    rw [List.cons_append, arguments] at h
    rw [List.cons_append, List.cons_append, arguments, arguments]
    split at h
    next => exact absurd (List.append_left_eq_self.1 h) (List.cons_ne_nil a t)
    next hn =>
      rw [if_neg hn, if_neg hn]
      split at h
      next hc =>
        obtain ⟨hline, hs⟩ := hrs.line h
        rw [if_pos hc, if_pos hc, hline, hs]
      next hc =>
        rw [if_neg hc, if_neg hc]
        split at h
        next hcomma => rw [if_pos hcomma, if_pos hcomma, ih h]
        next hcomma => rw [if_neg hcomma, if_neg hcomma, ih h]

theorem length_withoutComma_le (cs : List Char) : (withoutComma cs).length ≤ cs.length := by
  unfold withoutComma
  split
  · exact Nat.le_succ _
  · exact Nat.le_refl _

/-- The first comma of a line with arguments was read with them. -/
theorem withoutComma_append {r s t : List Char} (hrs : SameAhead r s)
    (hle : r.length ≤ (withoutComma (t ++ r)).length) :
    ∃ t', withoutComma (t ++ r) = t' ++ r ∧ withoutComma (t ++ s) = t' ++ s ∧
      ∀ spaced, leadingComma spaced (t ++ s) = leadingComma spaced (t ++ r) := by
  have hcons {c : Char} (hc : c ≠ ',') (cs : List Char) :
      withoutComma (c :: cs) = c :: cs ∧ ∀ spaced, leadingComma spaced (c :: cs) = [] := by
    unfold withoutComma leadingComma
    constructor
    · split <;> simp_all
    · intro spaced
      split <;> simp_all
  cases t with
  | nil =>
    obtain ⟨c, r', s', rfl, rfl⟩ := hrs.exists_cons
    by_cases hc : c = ','
    · subst hc
      exact absurd hle (Nat.not_succ_le_self _)
    · exact ⟨[], (hcons hc r').1, (hcons hc s').1, fun spaced =>
        ((hcons hc s').2 spaced).trans ((hcons hc r').2 spaced).symm⟩
  | cons a t =>
    by_cases ha : a = ','
    · subst ha
      exact ⟨t, rfl, rfl, fun _ => rfl⟩
    · exact ⟨a :: t, (hcons ha (t ++ r)).1, (hcons ha (t ++ s)).1, fun spaced =>
        ((hcons ha (t ++ s)).2 spaced).trans ((hcons ha (t ++ r)).2 spaced).symm⟩

/-- What stands behind a rest stands there in the text. -/
theorem exists_append_of_length_le {t r u v : List Char} (h : u ++ v = t ++ r)
    (hle : r.length ≤ v.length) : ∃ t', v = t' ++ r := by
  obtain ⟨t', ht⟩ := List.suffix_of_suffix_length_le ⟨t, rfl⟩ ⟨u, h⟩ hle
  exact ⟨t', ht.symm⟩

theorem steady_afterCommand {r s t : List Char} {spaced : Bool} (hrs : SameAhead r s)
    (h : (afterCommand spaced (t ++ r)).rest = r) :
    afterCommand spaced (t ++ s) = ⟨(afterCommand spaced (t ++ r)).pieces, s⟩ := by
  have hsplit : (t ++ r).takeWhile isBlank ++ (t ++ r).dropWhile isBlank = t ++ r :=
    List.takeWhile_append_dropWhile
  unfold afterCommand at h ⊢
  dsimp only at h ⊢
  split at h
  next hreads =>
    have hline : (t ++ r).dropWhile isBlank = r := h
    obtain ⟨hblanks, hs⟩ := hrs.takeWhile (u := []) hline
    rw [hline] at hreads ⊢
    rw [hblanks, hs, List.nil_append, hrs.readsExpression, if_pos hreads, if_pos hreads]
  next hreads =>
    dsimp only at h
    have hrl : r.length ≤ (withoutComma ((t ++ r).dropWhile isBlank)).length := by
      have hle := arguments_rest_length_le true (withoutComma ((t ++ r).dropWhile isBlank))
      rwa [h] at hle
    obtain ⟨left, hleft⟩ := exists_append_of_length_le hsplit
      (Nat.le_trans hrl (length_withoutComma_le _))
    obtain ⟨hblanks, hs⟩ := hrs.takeWhile hleft
    rw [hleft] at hrl hreads h ⊢
    obtain ⟨args, hr, hs', hcomma⟩ := withoutComma_append hrs hrl
    rw [hblanks, hs, (hrs.append left).readsExpression, if_neg hreads, if_neg hreads, hs', hcomma]
    rw [hr] at h ⊢
    rw [steady_arguments hrs h]

theorem steady_word (spaced : Bool) (c : Char) : Steady fun cs => .ok (word spaced c cs) := by
  intro r s t ps hrs h
  have h := Except.ok.inj h
  have hsplit : (t ++ r).takeWhile isNameChar ++ (t ++ r).dropWhile isNameChar = t ++ r :=
    List.takeWhile_append_dropWhile
  unfold word at h ⊢
  dsimp only at h ⊢
  split at h
  next hk =>
    obtain ⟨rfl, hrest⟩ := Scan.mk.inj h
    have hle := congrArg List.length
      (afterCommand_append spaced ((t ++ r).dropWhile isNameChar))
    rw [hrest, List.length_append] at hle
    obtain ⟨left, hleft⟩ := exists_append_of_length_le hsplit (by omega)
    obtain ⟨hname, hs⟩ := hrs.takeWhile hleft
    rw [hleft] at hrest ⊢
    rw [hname, hs, if_pos hk, steady_afterCommand hrs hrest]
  next hk =>
    obtain ⟨rfl, hrest⟩ := Scan.mk.inj h
    obtain ⟨hname, hs⟩ := hrs.takeWhile (u := []) hrest
    rw [hname, hs, if_neg hk]
    rfl

/-! ## One scan -/

/-- **No scan looks past a `;` or a line break** to decide where it stops. -/
theorem steady_next (lineStart spaced : Bool) (c : Char) : Steady (next lineStart spaced c) := by
  unfold next
  cases punctuation? c with
  | some kind => exact steady_all _
  | none =>
    refine .ite (fun _ => steady_line fun line => [.gap (';' :: line)]) fun _ => ?_
    refine .ite (fun _ => steady_star spaced) fun _ => ?_
    refine .ite (fun _ => steady_slash lineStart spaced) fun _ => ?_
    refine .ite (fun _ => steady_colon spaced) fun _ => ?_
    refine .ite (fun _ => steady_line fun line => [.token .equals ['='] ['='] spaced,
      .token .raw (unescape (dropReturns line)) line spaced]) fun _ => ?_
    refine .ite (fun _ => steady_quote spaced) fun _ => ?_
    refine .ite (fun _ => steady_number spaced c) fun _ => ?_
    exact .ite (fun _ => steady_word spaced c) fun _ => steady_all _

end Scan

/-! ## The way of a cut -/

namespace Piece

open Scan

/-- **How far a cut comes.** In front of a text, with the next token first on its
line or not, a cut comes scan by scan to a rest of the text, with a token first on
its line there or not. -/
inductive Reaches (restStart : Bool) (rest : List Char) : Bool → List Char → Prop where
  | here : Reaches restStart rest restStart rest
  | scan {lineStart : Bool} {cs tail : List Char} {c : Char} {scan : Scan} :
      cs.dropWhile isBlank = c :: tail →
      next lineStart (!(cs.takeWhile isBlank).isEmpty) c tail = .ok scan →
      Reaches restStart rest (scan.startsLine lineStart) scan.rest →
      Reaches restStart rest lineStart cs

theorem behind_nil (r : Except Cut (List Piece)) : behind [] r = r := by
  cases r <;> rfl

/-- What a cut has come past is cut into pieces of its own, and behind them the rest is
cut. -/
theorem Reaches.exists_cut_eq {restStart lineStart : Bool} {rest cs : List Char}
    (h : Reaches restStart rest lineStart cs) :
    ∃ front, cs = textOf front ++ rest ∧
      cut lineStart cs = Piece.behind front (cut restStart rest) := by
  induction h with
  | here => exact ⟨[], rfl, (behind_nil _).symm⟩
  | @scan lineStart cs tail c scan hc hs _ ih =>
    obtain ⟨front, hrest, hcut⟩ := ih
    refine ⟨.gap (cs.takeWhile isBlank) :: scan.pieces ++ front, ?_, ?_⟩
    · rw [textOf_append, textOf_cons, Piece.text, List.append_assoc, List.append_assoc, ← hrest,
        (covers_next hs).textOf_append_rest, ← hc, List.takeWhile_append_dropWhile]
    · rw [behind_append, ← hcut]
      exact cut_of_scan hc hs

/-- **What a cut has come past does not depend on what it comes to**, but for what
is the same ahead: in front of the other rest it comes past the same pieces. -/
theorem Reaches.behind {restStart lineStart : Bool} {rest rest' cs : List Char}
    (h : Reaches restStart rest lineStart cs) (hrest : SameAhead rest rest') :
    ∃ passed front, cs = passed ++ rest ∧
      cut lineStart (passed ++ rest) = Piece.behind front (cut restStart rest) ∧
      cut lineStart (passed ++ rest') = Piece.behind front (cut restStart rest') := by
  induction h with
  | here => exact ⟨[], [], rfl, (behind_nil _).symm, (behind_nil _).symm⟩
  | @scan lineStart cs tail c scan hc hs _ ih =>
    obtain ⟨passed, front, hpassed, hcut, hcut'⟩ := ih
    obtain ⟨text, -, htail⟩ := covers_next hs
    have hcs : cs = (cs.takeWhile isBlank ++ c :: text) ++ (passed ++ rest) := by
      rw [List.append_assoc, List.cons_append, ← hpassed, htail, ← hc,
        List.takeWhile_append_dropWhile]
    generalize hb : cs.takeWhile isBlank = blanks at hcs hs
    have hs' : next lineStart (!blanks.isEmpty) c (text ++ (passed ++ rest')) =
        .ok ⟨scan.pieces, passed ++ rest'⟩ := by
      refine steady_next lineStart _ c _ _ text _ (hrest.append passed) ?_
      rw [← hpassed, htail]
      exact hs
    rw [hcs] at hb hc
    have hd : ((blanks ++ c :: text) ++ (passed ++ rest)).dropWhile isBlank =
        (c :: text) ++ (passed ++ rest) := by
      rw [hc, ← htail, hpassed]
      rfl
    obtain ⟨hb', hc'⟩ := (hrest.append passed).takeWhile hd
    rw [hb] at hb'
    have hcut₀ := cut_of_scan hc (hb.symm ▸ hs)
    have hcut₀' := cut_of_scan hc' (hb'.symm ▸ hs')
    rw [hb, hpassed] at hcut₀
    rw [hb'] at hcut₀'
    refine ⟨blanks ++ c :: text ++ passed, .gap blanks :: scan.pieces ++ front, ?_, ?_, ?_⟩
    · rw [List.append_assoc]
      exact hcs
    · rw [List.append_assoc, behind_append, ← hcut]
      exact hcut₀
    · rw [List.append_assoc, behind_append, ← hcut']
      exact hcut₀'

end Piece

end HotkeyScript
