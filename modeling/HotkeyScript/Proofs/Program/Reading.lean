import HotkeyScript.Proofs.Program.Phrase
import HotkeyScript.Proofs.Success
/-!
# Programs — what is read is spelled

A rule that reads a value has taken tokens off the front that the value is spelled
with (`Rule.Reads`). There is one lemma for each rule, and each cites those of the
rules that it calls, so that the program of a whole script is spelled with the
script's tokens (`Program.spelled_ofTokens`).
-/

namespace HotkeyScript

/-- A number has the span of its token. -/
theorem Token.span_of_number? {t : Token} {literal : NumberLiteral} (h : t.number? = .ok literal) :
    literal.span = t.span := by
  rw [number?] at h
  split at h
  next => cases h; rfl
  next => cases h

namespace Parsed

/-! ## What is left behind what was read -/

variable {α β : Type} {bound : Nat}

section
variable (value : β) (t : Token) (ts : List Token) (p : Parsed α bound)

@[simp] theorem rest_as : (p.as value).rest = p.rest := rfl
@[simp] theorem rest_relax : p.relax.rest = p.rest := rfl
@[simp] theorem rest_behind (p : Parsed α ts.length) : (p.behind t).rest = p.rest := rfl
@[simp] theorem rest_behindHead (p : Parsed α ts.tail.length) : p.behindHead.rest = p.rest := rfl
@[simp] theorem rest_behindLineEnds (p : Parsed α (skipLineEnds ts).length) :
    p.behindLineEnds.rest = p.rest := rfl
@[simp] theorem rest_followedBy (q : Parsed β p.rest.length) : (p.followedBy q).rest = q.rest := rfl
@[simp] theorem rest_extendedBy (q : Parsed β (p.rest.length + 1)) :
    (p.extendedBy q).rest = q.rest := rfl

end

/-- A value was read that the tokens taken off the front bear out. -/
def Took (p : Parsed α bound) (P : α → List Token → Prop) (ts : List Token) : Prop :=
  ∃ used, P p.value used ∧ used ++ p.rest = ts

/-- Where nothing is read, the value is borne out by what was taken before. -/
theorem took_nothing {P : α → List Token → Prop} {value : α} {front : List Token}
    (h : P value front) (ts : List Token) :
    (nothing value ts).Took (fun x used => P x (front ++ used)) ts :=
  ⟨[], show P value (front ++ []) by rwa [List.append_nil], rfl⟩

/-- What is read behind, borne out together with what was taken in front. -/
theorem Took.extendedBy {p : Parsed α bound} {q : Parsed β (p.rest.length + 1)}
    {P : α → List Token → Prop} {Q : β → List Token → Prop} {ts : List Token} (h : p.Took P ts)
    (hq : ∀ {front}, P p.value front → q.Took (fun y used => Q y (front ++ used)) p.rest) :
    (p.extendedBy q).Took Q ts := by
  obtain ⟨front, hfront, hts⟩ := h
  obtain ⟨back, hback, hrest⟩ := hq hfront
  exact ⟨front ++ back, hback, by simp [hrest, hts]⟩

/-- A token read in front is the first of those that were taken. -/
theorem Took.behind {t : Token} {ts : List Token} {p : Parsed α ts.length}
    {P : α → List Token → Prop} (h : p.Took (fun x used => P x (t :: used)) ts) :
    (p.behind t).Took P (t :: ts) := by
  obtain ⟨used, hused, hts⟩ := h
  exact ⟨t :: used, hused, congrArg (t :: ·) hts⟩

end Parsed

/-- Whatever a rule reads is borne out by the tokens that it takes. -/
def Rule.Reads {α : Type} (rule : Rule α) (P : α → List Token → Prop) : Prop :=
  ∀ ts p, rule ts = .ok p → p.Took P ts

def OptionalRule.Reads {α : Type} (rule : OptionalRule α) (P : α → List Token → Prop) : Prop :=
  ∀ ts p, rule ts = .ok p → p.Took P ts

namespace Rule

open Phrase

variable {α β : Type} {P : α → List Token → Prop} {nested operand : Rule Expr}

/-- Line ends in front are a part of the tokens. -/
theorem skipLineEnds_append (ts : List Token) :
    ∃ ends, (∀ t ∈ ends, t.kind = .lineEnd) ∧ ends ++ skipLineEnds ts = ts := by
  refine ⟨ts.takeWhile (·.kind == .lineEnd), fun t ht => ?_, List.takeWhile_append_dropWhile⟩
  simpa using List.all_eq_true.1 List.all_takeWhile t ht

/-- A token that comes next by its kind is there. -/
theorem exists_of_nextKind {ts : List Token} {kind : TokenKind} (h : nextKind ts = kind)
    (hend : kind ≠ .fileEnd) : ∃ t, t.kind = kind ∧ t :: ts.tail = ts := by
  cases ts with
  | nil => exact (hend h.symm).elim
  | cons t ts => exact ⟨t, h, rfl⟩

/-! ## Tokens and rows -/

/-- Just the token that was asked for. -/
theorem reads_expect (kind : TokenKind) (mistake : Mistake) :
    (expect kind mistake).Reads fun t used => t.kind = kind ∧ used = [t] := by
  intro ts p h
  cases ts with
  | nil => cases h
  | cons t ts =>
    rw [expect] at h
    split at h
    next hk => cases h; exact ⟨[t], ⟨hk, rfl⟩, rfl⟩
    next => cases h

/-- A chain goes on from what was read in front of it. -/
theorem reads_chain {sep? : TokenKind → Option β} {join : β → α → α → α} {item : Rule α}
    (hitem : item.Reads P)
    (hjoin : ∀ {t s x y front back}, P x front → sep? t.kind = some s → P y back →
      P (join s x y) (front ++ t :: back))
    {left : α} {front : List Token} (hleft : P left front) :
    (chain sep? join item left).Reads fun x used => P x (front ++ used) := by
  intro ts
  induction left, ts using chain.induct sep? join generalizing front with
  | case1 left =>
    intro p h
    rw [chain] at h
    cases h
    exact Parsed.took_nothing hleft _
  | case2 left t ts hs =>
    intro p h
    rw [chain, hs] at h
    cases h
    exact Parsed.took_nothing hleft _
  | case3 left t ts s hs ih =>
    intro p h
    rw [chain, hs] at h
    obtain ⟨right, hright, h⟩ := bind_eq_ok_iff.1 h
    obtain ⟨more, hmore, h⟩ := bind_eq_ok_iff.1 h
    cases h
    obtain ⟨mid, hmid, hts⟩ := hitem _ _ hright
    obtain ⟨back, hback, hrest⟩ := ih right (hjoin hleft hs hmid) more hmore
    refine ⟨t :: mid ++ back, ?_, ?_⟩
    · rw [List.append_assoc] at hback
      exact hback
    · simp [hrest, hts]

/-- Items are there one by one, then the closing token. -/
theorem reads_items {item : Rule α} {Q : List α → List Token → Prop} (hitem : item.Reads P)
    (hone : ∀ {x front}, P x front → Q [x] front)
    (hmore : ∀ {x xs comma front back}, P x front → comma.kind = .comma → Q xs back →
      Q (x :: xs) (front ++ comma :: back))
    (close : TokenKind) (mistake : Mistake) :
    (items item close mistake).Reads fun r used =>
      r.2.kind = close ∧ ∃ mid, Q r.1 mid ∧ used = mid ++ [r.2] := by
  intro ts
  induction ts using items.induct with
  | case1 ts ih =>
    intro p h
    rw [items] at h
    obtain ⟨first, hfirst, h⟩ := bind_eq_ok_iff.1 h
    obtain ⟨front, hfront, hts⟩ := hitem _ _ hfirst
    split at h
    next hcomma =>
      obtain ⟨more, hm, h⟩ := bind_eq_ok_iff.1 h
      cases h
      obtain ⟨comma, hk, htail⟩ := exists_of_nextKind hcomma nofun
      obtain ⟨used, ⟨hclose, mid, hmid, hused⟩, hrest⟩ := ih first more hm
      refine ⟨front ++ comma :: used, ⟨hclose, _, hmore hfront hk hmid, ?_⟩, ?_⟩
      · rw [hused, List.append_assoc]
        rfl
      · simp [hrest, htail, hts]
    next =>
      obtain ⟨last, hlast, h⟩ := bind_eq_ok_iff.1 h
      cases h
      obtain ⟨used, ⟨hk, hused⟩, hrest⟩ := reads_expect _ _ _ _ hlast
      refine ⟨front ++ used, ⟨hk, front, hone hfront, hused ▸ rfl⟩, ?_⟩
      simp [hrest, hts]

/-- A list may also close at once, with nothing in it. -/
theorem reads_listed {item : Rule α} {Q : List α → List Token → Prop} (hitem : item.Reads P)
    (hnone : Q [] []) (hone : ∀ {x front}, P x front → Q [x] front)
    (hmore : ∀ {x xs comma front back}, P x front → comma.kind = .comma → Q xs back →
      Q (x :: xs) (front ++ comma :: back))
    (close : TokenKind) (mistake : Mistake) :
    (listed item close mistake).Reads fun r used =>
      r.2.kind = close ∧ ∃ mid, Q r.1 mid ∧ used = mid ++ [r.2] := by
  intro ts p h
  cases ts with
  | nil => exact reads_items hitem hone hmore close mistake _ _ h
  | cons t ts =>
    rw [listed] at h
    split at h
    next hk => cases h; exact ⟨[t], ⟨hk, [], hnone, rfl⟩, rfl⟩
    next => exact reads_items hitem hone hmore close mistake _ _ h

/-! ## Expressions -/

/-- Reads what an expression is spelled with. -/
abbrev ReadsExpr (rule : Rule Expr) : Prop := rule.Reads fun e used => Spelled (.expr e) used

/-- The operators between operands are those of their tokens. -/
theorem reads_join {sep? : TokenKind → Option BinaryOp}
    (hsep : ∀ {kind op}, sep? kind = some op → BinaryOp.ofKind? kind = some op)
    (hitem : ReadsExpr nested) {left : Expr} {front : List Token}
    (hleft : Spelled (.expr left) front) :
    (chain sep? Expr.join nested left).Reads fun e used => Spelled (.expr e) (front ++ used) :=
  reads_chain hitem (fun hx hs hy => .binary hx (hsep hs) hy) hleft

theorem ofKind?_of_additive {kind : TokenKind} {op : BinaryOp}
    (h : BinaryOp.additive? kind = some op) : BinaryOp.ofKind? kind = some op := by
  rw [BinaryOp.ofKind?, h]
  rfl

theorem ofKind?_of_multiplicative {kind : TokenKind} {op : BinaryOp}
    (h : BinaryOp.multiplicative? kind = some op) : BinaryOp.ofKind? kind = some op := by
  cases kind <;> cases h <;> rfl

theorem ofKind?_of_logical {kind : TokenKind} {op : BinaryOp}
    (h : BinaryOp.logical? kind = some op) : BinaryOp.ofKind? kind = some op := by
  cases kind <;> cases h <;> rfl

/-- Factors are operands of the multiplicative operators between them. -/
theorem reads_product (h : ReadsExpr operand) : ReadsExpr (product operand) := by
  intro ts p hp
  obtain ⟨first, hfirst, hp⟩ := bind_eq_ok_iff.1 hp
  obtain ⟨all, hall, hp⟩ := bind_eq_ok_iff.1 hp
  cases hp
  exact (h _ _ hfirst).extendedBy fun hf => reads_join ofKind?_of_multiplicative h hf _ _ hall

theorem reads_condition (h : ReadsExpr nested) : ReadsExpr (condition nested) := by
  intro ts p hp
  obtain ⟨first, hfirst, hp⟩ := bind_eq_ok_iff.1 hp
  obtain ⟨all, hall, hp⟩ := bind_eq_ok_iff.1 hp
  cases hp
  exact (h _ _ hfirst).extendedBy fun hf => reads_join ofKind?_of_logical h hf _ _ hall

/-- A condition goes on with its two arms, or stands alone. -/
theorem reads_arms (h : ReadsExpr nested) {cond : Expr} {front : List Token}
    (hcond : Spelled (.expr cond) front) :
    (arms nested cond).Reads fun e used => Spelled (.expr e) (front ++ used) := by
  intro ts p hp
  have hnone (ts : List Token) : (Parsed.nothing cond ts).Took
      (fun e used => Spelled (.expr e) (front ++ used)) ts := Parsed.took_nothing hcond ts
  cases ts with
  | nil => cases hp; exact hnone []
  | cons t ts =>
    rw [arms] at hp
    split at hp
    next hk =>
      obtain ⟨yes, hyes, hp⟩ := bind_eq_ok_iff.1 hp
      obtain ⟨colon, hcolon, hp⟩ := bind_eq_ok_iff.1 hp
      obtain ⟨no, hno, hp⟩ := bind_eq_ok_iff.1 hp
      cases hp
      obtain ⟨mid, hmid, hts⟩ := h _ _ hyes
      obtain ⟨used, ⟨hkc, rfl⟩, hrc⟩ := reads_expect _ _ _ _ hcolon
      obtain ⟨back, hback, hrest⟩ := h _ _ hno
      refine ⟨t :: mid ++ colon.value :: back, ?_, ?_⟩
      · have hchoice := Spelled.choice hcond hk hmid hkc hback
        rw [List.append_assoc] at hchoice
        exact hchoice
      · simp [← hts, ← hrc, ← hrest]
    next => cases hp; exact hnone (t :: ts)

/-- Terms are products, and a `?` behind them makes a choice of what was read. -/
theorem reads_sum (hn : ReadsExpr nested) (h : ReadsExpr operand) :
    ReadsExpr (sum nested operand) := by
  intro ts p hp
  obtain ⟨first, hfirst, hp⟩ := bind_eq_ok_iff.1 hp
  obtain ⟨all, hall, hp⟩ := bind_eq_ok_iff.1 hp
  obtain ⟨whole, hwhole, hp⟩ := bind_eq_ok_iff.1 hp
  cases hp
  have hproduct := reads_product h
  have hsum : (first.extendedBy all).Took (fun e used => Spelled (.expr e) used) ts :=
    (hproduct _ _ hfirst).extendedBy fun hf => reads_join ofKind?_of_additive hproduct hf _ _ hall
  exact hsum.extendedBy fun hf => reads_arms hn hf _ _ hwhole

/-! ## Keys and atoms -/

/-- Keys are read behind an object from left to right, so what was read becomes the object
of what comes next. -/
theorem reads_accesses (h : ReadsExpr nested) {object : Expr} {front : List Token}
    (hobject : Spelled (.expr object) front) :
    (accesses nested object).Reads fun e used => Spelled (.expr e) (front ++ used) := by
  intro ts
  induction object, ts using accesses.induct generalizing front with
  | case1 object =>
    intro p hp
    rw [accesses] at hp
    cases hp
    exact Parsed.took_nothing (P := fun e used => Spelled (.expr e) used) hobject _
  | case2 object t ts hopen hempty =>
    intro p hp
    rw [accesses.eq_def] at hp
    dsimp only at hp
    rw [if_pos hopen, if_pos hempty] at hp
    cases hp
  | case3 object t ts hopen hempty ih =>
    intro p hp
    rw [accesses.eq_def] at hp
    dsimp only at hp
    rw [if_pos hopen, if_neg hempty] at hp
    obtain ⟨key, hkey, hp⟩ := bind_eq_ok_iff.1 hp
    obtain ⟨close, hclose, hp⟩ := bind_eq_ok_iff.1 hp
    obtain ⟨more, hmore, hp⟩ := bind_eq_ok_iff.1 hp
    cases hp
    obtain ⟨mid, hmid, hts⟩ := h _ _ hkey
    obtain ⟨used, ⟨hk, rfl⟩, hrc⟩ := reads_expect _ _ _ _ hclose
    obtain ⟨back, hback, hrest⟩ := ih key close (.index hobject hopen.1 hmid hk) more hmore
    refine ⟨t :: mid ++ close.value :: back, ?_, ?_⟩
    · simp only [List.append_assoc, List.cons_append, List.nil_append] at hback ⊢
      exact hback
    · simp [← hts, ← hrc, ← hrest]
  | case4 object t hopen =>
    intro p hp
    rw [accesses, if_neg hopen] at hp
    cases hp
    exact Parsed.took_nothing (P := fun e used => Spelled (.expr e) used) hobject _
  | case5 object t hopen k ts hk ih =>
    intro p hp
    rw [accesses, if_neg hopen, if_pos hk] at hp
    obtain ⟨key, hkey, hp⟩ := bind_eq_ok_iff.1 hp
    obtain ⟨more, hmore, hp⟩ := bind_eq_ok_iff.1 hp
    cases hp
    have hdot : t.kind = .dot := by
      simp only [isMember, Bool.and_eq_true, beq_iff_eq] at hk
      exact hk.1.1.1
    have hobject' : Spelled (.expr (Expr.at object key k)) (front ++ [t, k]) := by
      rw [memberKey] at hkey
      split at hkey
      next hid => cases hkey; exact .member hobject hdot hid
      next =>
        obtain ⟨literal, hliteral, hkey⟩ := bind_eq_ok_iff.1 hkey
        cases hkey
        exact .place hobject hdot hliteral
    obtain ⟨back, hback, hrest⟩ := ih key hobject' more hmore
    refine ⟨t :: k :: back, ?_, ?_⟩
    · rw [List.append_assoc] at hback
      exact hback
    · simp [hrest]
  | case6 object t hopen k ts hk =>
    intro p hp
    rw [accesses, if_neg hopen, if_neg hk] at hp
    cases hp
    exact Parsed.took_nothing (P := fun e used => Spelled (.expr e) used) hobject _

/-- A name that stands directly before a colon is a key of its own; any other key is an
expression. -/
theorem reads_entry (h : ReadsExpr nested) :
    (entry nested).Reads fun e used => Spelled (.entry e) used := by
  intro ts p hp
  obtain ⟨key, hkey, hp⟩ := bind_eq_ok_iff.1 hp
  obtain ⟨colon, hcolon, hp⟩ := bind_eq_ok_iff.1 hp
  obtain ⟨value, hvalue, hp⟩ := bind_eq_ok_iff.1 hp
  cases hp
  obtain ⟨used, ⟨hkc, rfl⟩, hrc⟩ := reads_expect _ _ _ _ hcolon
  obtain ⟨back, hback, hrest⟩ := h _ _ hvalue
  have hnested (hkey : nested ts = .ok key) :
      ∃ front, Spelled (.entry (key.value, value.value)) (front ++ colon.value :: back) ∧
        front ++ key.rest = ts := by
    obtain ⟨front, hfront, hts⟩ := h _ _ hkey
    exact ⟨front, .entry hfront hkc hback, hts⟩
  have hread : ∃ front, Spelled (.entry (key.value, value.value)) (front ++ colon.value :: back) ∧
      front ++ key.rest = ts := by
    unfold entryKey at hkey
    split at hkey
    next t c ts _ _ =>
      split at hkey
      next hk =>
        cases hkey
        exact ⟨[t], .namedEntry hk.1 hkc hback, rfl⟩
      next => exact hnested hkey
    next => exact hnested hkey
  obtain ⟨front, hentry, hts⟩ := hread
  refine ⟨front ++ colon.value :: back, hentry, ?_⟩
  simp [← hts, ← hrc, ← hrest]

theorem reads_listedExprs (h : ReadsExpr nested) (close : TokenKind) (mistake : Mistake) :
    (listed nested close mistake).Reads fun r used =>
      r.2.kind = close ∧ ∃ mid, Spelled (.exprs r.1) mid ∧ used = mid ++ [r.2] :=
  reads_listed (Q := fun es used => Spelled (.exprs es) used) h .noExprs .oneExpr .moreExprs
    close mistake

/-- An atom is told by its first token, and where keys may follow it, they are read with
it. -/
theorem reads_atom (h : ReadsExpr nested) : ReadsExpr (atom nested) := by
  intro ts p hp
  cases ts with
  | nil => cases hp
  | cons t ts =>
    rw [atom.eq_def] at hp
    dsimp only at hp
    split at hp
    case h_4 hk => cases hp; exact ⟨[t], .quoted hk, rfl⟩
    case h_5 hk => cases hp; exact ⟨[t], .boolean hk, rfl⟩
    case h_6 hk =>
      cases ts with
      | nil => cases hp; exact ⟨[t], .name hk, rfl⟩
      | cons opener rest =>
        dsimp only at hp
        split at hp
        next hopen =>
          obtain ⟨args, hargs, hp⟩ := bind_eq_ok_iff.1 hp
          obtain ⟨whole, hwhole, hp⟩ := bind_eq_ok_iff.1 hp
          cases hp
          refine .behind (.behind ((reads_listedExprs h _ _ _ _ hargs).extendedBy ?_))
          rintro front ⟨hclose, mid, hmid, rfl⟩
          exact reads_accesses h (.call hk hopen.1 hmid hclose) _ _ hwhole
        next =>
          obtain ⟨back, hback, hrest⟩ := reads_accesses h (.name hk) _ _ hp
          exact ⟨t :: back, hback, congrArg (t :: ·) hrest⟩
    case h_7 hk =>
      obtain ⟨inner, hinner, hp⟩ := bind_eq_ok_iff.1 hp
      obtain ⟨close, hclose, hp⟩ := bind_eq_ok_iff.1 hp
      cases hp
      obtain ⟨mid, hmid, hts⟩ := h _ _ hinner
      obtain ⟨used, ⟨hkc, rfl⟩, hrest⟩ := reads_expect _ _ _ _ hclose
      refine ⟨t :: mid ++ [close.value], .paren hk hmid hkc, ?_⟩
      simp [← hts, ← hrest]
    case h_8 hk =>
      obtain ⟨all, hall, hp⟩ := bind_eq_ok_iff.1 hp
      obtain ⟨whole, hwhole, hp⟩ := bind_eq_ok_iff.1 hp
      cases hp
      refine .behind ((reads_listedExprs h _ _ _ _ hall).extendedBy ?_)
      rintro front ⟨hclose, mid, hmid, rfl⟩
      exact reads_accesses h (.array hk hmid hclose) _ _ hwhole
    case h_9 hk =>
      obtain ⟨all, hall, hp⟩ := bind_eq_ok_iff.1 hp
      obtain ⟨whole, hwhole, hp⟩ := bind_eq_ok_iff.1 hp
      cases hp
      have hlisted := reads_listed (Q := fun es used => Spelled (.entries es) used)
        (reads_entry h) .noEntries .oneEntry .moreEntries .rightBrace .commaOrBrace
      refine .behind ((hlisted _ _ hall).extendedBy ?_)
      rintro front ⟨hclose, mid, hmid, rfl⟩
      exact reads_accesses h (.table hk hmid hclose) _ _ hwhole
    case h_10 => cases hp
    -- the three forms of a number
    all_goals
      obtain ⟨literal, hliteral, hp⟩ := bind_eq_ok_iff.1 hp
      cases hp
      exact ⟨[t], .number hliteral, rfl⟩

/-! ## Levels -/

/-- A sign is read with the operand behind it, which may be deeper by one. -/
theorem reads_signed {deeper : Rule Expr} (hd : ReadsExpr deeper) (h : ReadsExpr nested) :
    ReadsExpr (signed deeper nested) := by
  intro ts p hp
  cases ts with
  | nil => exact reads_atom h _ _ hp
  | cons t ts =>
    rw [signed] at hp
    split at hp
    next => exact reads_atom h _ _ hp
    next op hop =>
      obtain ⟨e, he, hp⟩ := bind_eq_ok_iff.1 hp
      cases hp
      obtain ⟨back, hback, hrest⟩ := hd _ _ he
      exact ⟨t :: back, .unary hop hback, by simp [hrest]⟩

/-- Every level reads what it should, for the one below does. -/
theorem reads_levels (n : Nat) :
    ReadsExpr (expression n) ∧ ReadsExpr (Rule.operand n) := by
  induction n with
  | zero =>
    rw [expression, Rule.operand]
    exact ⟨nofun, nofun⟩
  | succ n ih =>
    rw [expression, Rule.operand]
    have hsigned := reads_signed ih.2 ih.1
    exact ⟨reads_sum ih.1 hsigned, hsigned⟩

/-- **Whatever is read as an expression is spelled as one**, at every level. -/
theorem reads_expression (n : Nat) : ReadsExpr (expression n) := (reads_levels n).1

/-! ## Message boxes -/

/-- An empty line. -/
theorem line_nil : BoxArguments.Line [] [] := ⟨rfl, fun _ ht => absurd ht List.not_mem_nil⟩

/-- The raw arguments in front are raw, with commas between them. -/
theorem segments_append (ts : List Token) :
    ∃ line, BoxArguments.Line (BoxArguments.segments ts).1 line ∧
      line ++ (BoxArguments.segments ts).2 = ts := by
  fun_induction BoxArguments.segments ts with
  | case1 => exact ⟨[], line_nil, rfl⟩
  | case2 t hk => exact ⟨[t], ⟨by simp [hk], by simp [hk]⟩, rfl⟩
  | case3 t hk => exact ⟨[], line_nil, rfl⟩
  | case4 t c ts hk hc ih =>
    obtain ⟨line, hline, hts⟩ := ih
    refine ⟨t :: c :: line, ⟨?_, ?_⟩, congrArg (t :: c :: ·) hts⟩
    · simp [hk, hc, hline.args_eq]
    · simpa [hk, hc] using hline.kinds
  | case5 t c ts hk => exact ⟨[t], ⟨by simp [hk], by simp [hk]⟩, rfl⟩
  | case6 t c ts hk => exact ⟨[], line_nil, rfl⟩

/-- A comma may stand in front of them. -/
theorem segments_line_append (ts : List Token) :
    ∃ line, BoxArguments.Line (BoxArguments.segments (BoxArguments.line ts)).1 line ∧
      line ++ (BoxArguments.segments (BoxArguments.line ts)).2 = ts := by
  unfold BoxArguments.line
  split
  next hcomma =>
    obtain ⟨comma, hk, htail⟩ := exists_of_nextKind hcomma nofun
    obtain ⟨line, hline, hts⟩ := segments_append ts.tail
    refine ⟨comma :: line, ⟨?_, ?_⟩, ?_⟩
    · simp [hk, hline.args_eq]
    · simpa [hk] using hline.kinds
    · rw [List.cons_append, hts, htail]
  next => exact segments_append ts

theorem reads_box (h : ReadsExpr nested) {word : Token} (hword : word.kind = .command) :
    (box nested word).Reads fun s used => Spelled (.stmt s) (word :: used) := by
  intro ts p hp
  rw [box] at hp
  split at hp
  next hpercent =>
    obtain ⟨text, htext, hp⟩ := bind_eq_ok_iff.1 hp
    cases hp
    obtain ⟨percent, hk, htail⟩ := exists_of_nextKind hpercent nofun
    obtain ⟨back, hback, hrest⟩ := h _ _ htext
    exact ⟨percent :: back, .boxExpr hword hk hback, by simp [hrest, htail]⟩
  next =>
    obtain ⟨args, hargs, hp⟩ := bind_eq_ok_iff.1 hp
    cases hp
    obtain ⟨line, hline, hts⟩ := segments_line_append ts
    refine ⟨line, ?_, hts⟩
    have hspelled := Spelled.boxLine hword hline hargs
    rw [BoxArguments.spanOf] at hspelled
    cases hlast : (BoxArguments.segments (BoxArguments.line ts)).1.getLast? with
    | none => rwa [hlast] at hspelled
    | some last => rwa [hlast] at hspelled

/-! ## Statements -/

/-- Reads what a statement is spelled with. -/
abbrev ReadsStmt (rule : Rule Stmt) : Prop := rule.Reads fun s used => Spelled (.stmt s) used

abbrev ReadsBlock (rule : Rule Block) : Prop := rule.Reads fun b used => Spelled (.block b) used

variable {expr : Rule Expr} {block : Rule Block}

theorem reads_globalAssignment (h : ReadsExpr expr) {word : Token}
    (hword : word.kind = .globalWord) :
    (globalAssignment expr word).Reads fun s used => Spelled (.stmt s) (word :: used) := by
  intro ts p hp
  obtain ⟨name, hname, hp⟩ := bind_eq_ok_iff.1 hp
  obtain ⟨sign, hsign, hp⟩ := bind_eq_ok_iff.1 hp
  obtain ⟨value, hvalue, hp⟩ := bind_eq_ok_iff.1 hp
  cases hp
  obtain ⟨used, ⟨hkn, rfl⟩, hts⟩ := reads_expect _ _ _ _ hname
  obtain ⟨used, ⟨hks, rfl⟩, hrs⟩ := reads_expect _ _ _ _ hsign
  obtain ⟨back, hback, hrest⟩ := h _ _ hvalue
  refine ⟨name.value :: sign.value :: back, .assignGlobal hword hkn hks hback, ?_⟩
  simp [← hts, ← hrs, ← hrest]

theorem reads_returned (h : ReadsExpr expr) {word : Token} (hword : word.kind = .returnWord) :
    (returned expr word).Reads fun s used => Spelled (.stmt s) (word :: used) := by
  intro ts p hp
  rw [returned] at hp
  split at hp
  next => cases hp; exact ⟨[], .giveNothing hword, rfl⟩
  next =>
    obtain ⟨value, hvalue, hp⟩ := bind_eq_ok_iff.1 hp
    cases hp
    obtain ⟨back, hback, hrest⟩ := h _ _ hvalue
    exact ⟨back, .give hword hback, by simp [hrest]⟩

theorem elseWord?_append {ts : List Token} {p : Parsed Unit ts.length}
    (h : elseWord? ts = some p) : ∃ ends other ends', (∀ t ∈ ends, t.kind = .lineEnd) ∧
      other.kind = .elseWord ∧ (∀ t ∈ ends', t.kind = .lineEnd) ∧
      ends ++ other :: (ends' ++ p.rest) = ts := by
  obtain ⟨ends, hends, hts⟩ := skipLineEnds_append ts
  unfold elseWord? at h
  split at h
  next t rest hskip =>
    split at h
    next hk =>
      cases h
      obtain ⟨ends', hends', hrest⟩ := skipLineEnds_append rest
      refine ⟨ends, t, ends', hends, hk, hends', ?_⟩
      rw [hrest, ← hskip, hts]
    next => cases h
  next => cases h

/-- The `else` may stand behind line ends; where it does not, they are left to the end of
the statement. -/
theorem reads_branch (h : ReadsExpr expr) (hb : ReadsBlock block) {word : Token}
    (hword : word.kind = .ifWord) :
    (branch expr block word).Reads fun s used => Spelled (.stmt s) (word :: used) := by
  intro ts
  induction word, ts using branch.induct with
  | case1 word ts ih =>
    intro p hp
    rw [branch.eq_def] at hp
    obtain ⟨test, htest, hp⟩ := bind_eq_ok_iff.1 hp
    obtain ⟨yes, hyes, hp⟩ := bind_eq_ok_iff.1 hp
    obtain ⟨front, hfront, hts⟩ := reads_condition h _ _ htest
    obtain ⟨ends, hends, hskip⟩ := skipLineEnds_append test.rest
    obtain ⟨mid, hmid, hry⟩ := hb _ _ hyes
    split at hp
    next =>
      cases hp
      refine ⟨front ++ ends ++ mid, .branch hword hfront hends hmid, ?_⟩
      simp [hry, hskip, hts]
    next t ts' hlt helse =>
      obtain ⟨ends', other, ends'', hends', hother, hends'', hre⟩ := elseWord?_append helse
      dsimp only at hp hre
      split at hp
      next hif =>
        obtain ⟨more, hmore, hp⟩ := bind_eq_ok_iff.1 hp
        cases hp
        obtain ⟨back, hback, hrest⟩ := ih test yes t ts' hlt hif more hmore
        refine ⟨front ++ ends ++ mid ++ ends' ++ other :: ends'' ++ t :: back,
          .branchElse hword hfront hends hmid hends' hother hends'' (.furtherIf hback), ?_⟩
        simp [hrest, hre, hry, hskip, hts]
      next =>
        obtain ⟨no, hno, hp⟩ := bind_eq_ok_iff.1 hp
        cases hp
        obtain ⟨back, hback, hrest⟩ := hb _ _ hno
        refine ⟨front ++ ends ++ mid ++ ends' ++ other :: ends'' ++ back,
          .branchElse hword hfront hends hmid hends' hother hends'' (.arm hback), ?_⟩
        simp [hrest, hre, hry, hskip, hts]
    next =>
      -- at the end of the tokens there is no block
      obtain ⟨no, hno, hp⟩ := bind_eq_ok_iff.1 hp
      exact absurd no.shorter (Nat.not_lt_zero _)

theorem reads_bare (h : ReadsExpr expr) : ReadsStmt (bare expr) := by
  intro ts p hp
  obtain ⟨target, htarget, hp⟩ := bind_eq_ok_iff.1 hp
  obtain ⟨front, hfront, hts⟩ := h _ _ htarget
  split at hp
  next hassign =>
    split at hp
    next object key span hvalue =>
      obtain ⟨value, hv, hp⟩ := bind_eq_ok_iff.1 hp
      cases hp
      obtain ⟨sign, hk, htail⟩ := exists_of_nextKind hassign nofun
      obtain ⟨back, hback, hrest⟩ := h _ _ hv
      rw [hvalue] at hfront
      refine ⟨front ++ sign :: back, .store hfront hk hback, ?_⟩
      simp [hrest, htail, hts]
    next => cases hp
  next =>
    cases hp
    exact ⟨front, .bare hfront, hts⟩

/-- A name begins a declaration, an assignment, or an expression, whichever the tokens
behind it bear out. -/
theorem reads_named (h : ReadsExpr expr) (hb : ReadsBlock block) {name : Token}
    (hname : name.kind = .identifier) (ts : List Token) (p : Parsed Stmt (name :: ts).length)
    (hp : named expr block name ts = .ok p) :
    p.Took (fun s used => Spelled (.stmt s) used) (name :: ts) := by
  unfold named at hp
  split at hp
  next => exact reads_bare h _ _ hp
  next t rest =>
    split at hp
    next hassign =>
      obtain ⟨value, hvalue, hp⟩ := bind_eq_ok_iff.1 hp
      cases hp
      obtain ⟨back, hback, hrest⟩ := h _ _ hvalue
      exact ⟨name :: t :: back, .assign hname hassign hback, by simp [hrest]⟩
    split at hp
    next hequals =>
      obtain ⟨text, htext, hp⟩ := bind_eq_ok_iff.1 hp
      cases hp
      obtain ⟨used, ⟨hk, rfl⟩, hrest⟩ := reads_expect _ _ _ _ htext
      exact ⟨[name, t, text.value], .assignRaw hname hequals hk, by simpa using hrest⟩
    split at hp
    next hparen =>
      obtain ⟨params, hparams, hp⟩ := bind_eq_ok_iff.1 hp
      split at hp
      next =>
        obtain ⟨body, hbody, hp⟩ := bind_eq_ok_iff.1 hp
        cases hp
        obtain ⟨used, ⟨hclose, mid, hmid, rfl⟩, hra⟩ := reads_listedExprs h _ _ _ _ hparams
        obtain ⟨ends, hends, hskip⟩ := skipLineEnds_append params.rest
        obtain ⟨back, hback, hrest⟩ := hb _ _ hbody
        refine ⟨name :: t :: mid ++ params.value.2 :: ends ++ back,
          .declare hname hparen hmid hclose hends hback, ?_⟩
        rw [List.append_assoc] at hra
        simp [hrest, hskip, ← hra]
      next => exact reads_bare h _ _ hp
    next => exact reads_bare h _ _ hp

/-- A statement is spelled as one; a block comment is none. -/
def SpelledStmt (s : Option Stmt) (used : List Token) : Prop :=
  ∀ ss back, Spelled (.stmts ss) back → Spelled (.stmts (s.toList ++ ss)) (used ++ back)

/-- A statement is told by its first word. -/
theorem reads_statement (h : ReadsExpr expr) (hb : ReadsBlock block) :
    (statement expr block).Reads SpelledStmt := by
  have hsome {s : Stmt} {used : List Token} (hs : Spelled (.stmt s) used) :
      SpelledStmt (some s) used := fun ss back hss => .moreStmts hs hss
  have hbehind {t : Token} {ts : List Token} {bound : Nat} {s : Parsed Stmt bound}
      (hs : s.Took (fun s used => Spelled (.stmt s) (t :: used)) ts) :
      ∃ used, SpelledStmt (some s.value) used ∧ used ++ s.rest = t :: ts := by
    obtain ⟨used, hused, hrest⟩ := hs
    exact ⟨t :: used, hsome hused, congrArg (t :: ·) hrest⟩
  intro ts p hp
  cases ts with
  | nil =>
    obtain ⟨s, hs, hp⟩ := bind_eq_ok_iff.1 hp
    cases hp
    obtain ⟨used, hused, hrest⟩ := reads_bare h _ _ hs
    exact ⟨used, hsome hused, hrest⟩
  | cons t ts =>
    rw [statement.eq_def] at hp
    dsimp only at hp
    split at hp <;> obtain ⟨s, hs, hp⟩ := bind_eq_ok_iff.1 hp <;> cases hp
    next hk =>
      obtain ⟨used, ⟨hclose, rfl⟩, hrest⟩ := reads_expect _ _ _ _ hs
      exact ⟨[t, s.value], fun ss back hss => .comment hk hclose hss, congrArg (t :: ·) hrest⟩
    next hk => exact hbehind (reads_globalAssignment h hk _ _ hs)
    next hk => exact hbehind (reads_returned h hk _ _ hs)
    next hk => exact hbehind (reads_branch h hb hk _ _ hs)
    next hk => exact hbehind (reads_box h hk _ _ hs)
    next hk =>
      obtain ⟨used, hused, hrest⟩ := reads_named h hb hk _ _ hs
      exact ⟨used, hsome hused, hrest⟩
    next =>
      obtain ⟨used, hused, hrest⟩ := reads_bare h _ _ hs
      exact ⟨used, hsome hused, hrest⟩

/-! ## Rows of statements and blocks -/

theorem reads_endOfStatement (inBlock : Bool) :
    (endOfStatement inBlock).Reads fun _ used => ∀ t ∈ used, t.kind = .lineEnd := by
  intro ts p hp
  cases ts with
  | nil => cases hp; exact ⟨[], nofun, rfl⟩
  | cons t ts =>
    rw [endOfStatement] at hp
    split at hp
    next hk => cases hp; exact ⟨[t], by simpa using hk, rfl⟩
    split at hp
    next => cases hp; exact ⟨[], nofun, rfl⟩
    next => cases hp

/-- Line ends between statements are no statements. -/
theorem spelled_lineEnds {ends back : List Token} {ss : List Stmt}
    (hends : ∀ t ∈ ends, t.kind = .lineEnd) (h : Spelled (.stmts ss) back) :
    Spelled (.stmts ss) (ends ++ back) := by
  induction ends with
  | nil => exact h
  | cons t ends ih =>
    obtain ⟨ht, hends⟩ := List.forall_mem_cons.1 hends
    exact .lineEnd ht (ih hends)

/-- Statements one behind the other, each up to its end. -/
theorem reads_statements {statement : Rule (Option Stmt)} (h : statement.Reads SpelledStmt)
    (inBlock : Bool) :
    (statements statement inBlock).Reads fun ss used => Spelled (.stmts ss) used := by
  intro ts
  induction ts using statements.induct inBlock with
  | case1 ts hend =>
    intro p hp
    rw [statements, if_pos hend] at hp
    cases hp
    obtain ⟨ends, hends, hts⟩ := skipLineEnds_append ts
    refine ⟨ends, ?_, hts⟩
    simpa using spelled_lineEnds hends .noStmts
  | case2 ts hend ih =>
    intro p hp
    rw [statements, if_neg hend] at hp
    obtain ⟨first, hfirst, hp⟩ := bind_eq_ok_iff.1 hp
    obtain ⟨stop, hstop, hp⟩ := bind_eq_ok_iff.1 hp
    obtain ⟨more, hmore, hp⟩ := bind_eq_ok_iff.1 hp
    cases hp
    obtain ⟨ends, hends, hts⟩ := skipLineEnds_append ts
    obtain ⟨front, hfront, hrf⟩ := h _ _ hfirst
    obtain ⟨ends', hends', hrs⟩ := reads_endOfStatement inBlock _ _ hstop
    obtain ⟨back, hback, hrest⟩ := ih first stop more hmore
    refine ⟨ends ++ (front ++ (ends' ++ back)), ?_, ?_⟩
    · exact spelled_lineEnds hends (hfront _ _ (spelled_lineEnds hends' hback))
    · simp [hrest, hrs, hrf, hts]

theorem reads_braced {statement : Rule (Option Stmt)} (h : statement.Reads SpelledStmt) :
    ReadsBlock (braced statement) := by
  intro ts p hp
  obtain ⟨opener, hopen, hp⟩ := bind_eq_ok_iff.1 hp
  obtain ⟨body, hbody, hp⟩ := bind_eq_ok_iff.1 hp
  obtain ⟨closer, hclose, hp⟩ := bind_eq_ok_iff.1 hp
  cases hp
  obtain ⟨used, ⟨hko, rfl⟩, hts⟩ := reads_expect _ _ _ _ hopen
  obtain ⟨mid, hmid, hrm⟩ := reads_statements h true _ _ hbody
  obtain ⟨used, ⟨hkc, rfl⟩, hrest⟩ := reads_expect _ _ _ _ hclose
  refine ⟨opener.value :: mid ++ [closer.value], .block hko hmid hkc, ?_⟩
  simp [← hts, ← hrm, ← hrest]

/-- **Whatever is read as a block is spelled as one**, at every level. -/
theorem reads_block (n : Nat) : ReadsBlock (Rule.block n) := by
  induction n with
  | zero =>
    rw [Rule.block]
    exact nofun
  | succ n ih =>
    rw [Rule.block]
    exact reads_braced (reads_statement (reads_expression n) ih)

theorem reads_script : script.Reads fun ss used => Spelled (.stmts ss) used :=
  reads_statements (reads_statement (reads_expression _) (reads_block _)) false

/-- At the end of a script nothing is left, for a statement that no brace closes
goes up to there. -/
theorem rest_statements {statement : Rule (Option Stmt)} {ts : List Token}
    {p : Parsed (List Stmt) (ts.length + 1)} (h : statements statement false ts = .ok p) :
    p.rest = [] := by
  induction ts using statements.induct false with
  | case1 ts hend =>
    rw [statements, if_pos hend] at h
    cases h
    simpa using hend
  | case2 ts hend ih =>
    rw [statements, if_neg hend] at h
    obtain ⟨first, hfirst, h⟩ := bind_eq_ok_iff.1 h
    obtain ⟨stop, hstop, h⟩ := bind_eq_ok_iff.1 h
    obtain ⟨more, hmore, h⟩ := bind_eq_ok_iff.1 h
    cases h
    exact ih first stop hmore

end Rule

/-- **A program is spelled with its tokens**, all of them but the start and the end
of the file. -/
theorem Program.spelled_ofTokens {tokens : List Token} {program : Program}
    (h : Program.ofTokens tokens = .ok program) :
    Phrase.Spelled (.stmts program.statements) (tokens.drop 1).dropLast := by
  rw [Program.ofTokens] at h
  split at h
  next parsed hparsed =>
    cases h
    obtain ⟨used, hused, hrest⟩ := Rule.reads_script _ _ hparsed
    rw [Rule.rest_statements hparsed, List.append_nil] at hrest
    rwa [hrest] at hused
  next => cases h

end HotkeyScript
