import HotkeyScript.Proofs.Program.Likeness
/-!
# Programs — like tokens are read alike

A rule sees of a token its kind, its lexeme and whether a blank came in front, and
of spans only what they make up together. So on tokens that are alike it reads
values that are alike, or objects to the same at tokens that are alike
(`Rule.Agree`). There is one lemma for each rule, down to the program of a
script (`Program.like_ofTokens`).
-/

namespace HotkeyScript

variable (A : Alignment)

/-! ## Answers that are alike -/

/-- Token lists that are alike one by one. -/
abbrev TokensLike (ts us : List Token) : Prop := List.Forall₂ (Token.Like A) ts us

/-- Like values, or like failures. -/
abbrev AnswerLike {α β : Type} (V : α → β → Prop) :
    Except Failure α → Except Failure β → Prop := Alike (Failure.Like A) V

/-- Like values were read, and like tokens are left. -/
structure Parsed.Like {α : Type} (V : α → α → Prop) {m n : Nat} (p : Parsed α m)
    (q : Parsed α n) : Prop where
  value : V p.value q.value
  rest : TokensLike A p.rest q.rest

/-- Two rules that read alike what is alike. -/
def Rule.Agree {α : Type} (V : α → α → Prop) {bound : List Token → Nat}
    (rule rule' : (ts : List Token) → Except Failure (Parsed α (bound ts))) : Prop :=
  ∀ ts us, TokensLike A ts us → AnswerLike A (Parsed.Like A V) (rule ts) (rule' us)

variable {A}

namespace TokensLike

variable {ts us : List Token}

theorem head? (h : TokensLike A ts us) : Option.Rel (Token.Like A) ts.head? us.head? := by
  cases h with
  | nil => exact .none
  | cons h _ => exact .some h

theorem tail (h : TokensLike A ts us) : TokensLike A ts.tail us.tail := by
  cases h with
  | nil => exact .nil
  | cons _ h => exact h

/-- The kind of what comes next decides most of what a rule does. -/
theorem nextKind (h : TokensLike A ts us) :
    HotkeyScript.nextKind us = HotkeyScript.nextKind ts := by
  cases h with
  | nil => rfl
  | cons h _ => exact h.kind

/-- As many ends of lines are skipped. -/
theorem skipLineEnds (h : TokensLike A ts us) :
    TokensLike A (HotkeyScript.skipLineEnds ts) (HotkeyScript.skipLineEnds us) := by
  induction h with
  | nil => exact .nil
  | @cons t u ts us h hs ih =>
    unfold HotkeyScript.skipLineEnds at ih ⊢
    rw [List.dropWhile_cons, List.dropWhile_cons, h.kind]
    split
    · exact ih
    · exact .cons h hs

/-- A mistake noticed at what comes next. -/
theorem here (h : TokensLike A ts us) {α β : Type} {V : α → β → Prop} (mistake : Mistake) :
    AnswerLike A V (.error (mistake.here ts)) (.error (mistake.here us)) :=
  .error ⟨rfl, h.head?⟩

end TokensLike

namespace Token.Like

variable {t u : Token}

theorem identifier (h : t.Like A u) : t.identifier.Like A u.identifier := ⟨h.lexeme, h.span⟩

/-- A lexeme stands for a number wherever it stands. -/
theorem number? (h : t.Like A u) : AnswerLike A (NumberLiteral.Like A) t.number? u.number? := by
  rw [Token.number?, Token.number?, h.kind, h.lexeme]
  split
  · exact .ok ⟨rfl, h.span⟩
  · exact .error ⟨rfl, .some h⟩

end Token.Like

namespace Rule

variable {α β : Type} {V : α → α → Prop} {nested deeper : Rule Expr}

/-- Reads like expressions from like tokens. -/
abbrev AgreeExpr (A : Alignment) (rule : Rule Expr) : Prop := Agree A (Expr.Like A) rule rule

/-! ## Tokens and rows -/

/-- The token that is expected is there in both, or it is in neither. -/
theorem agree_expect (kind : TokenKind) (mistake : Mistake) :
    Agree A (Token.Like A) (expect kind mistake) (expect kind mistake) := by
  intro ts us h
  cases h with
  | nil => exact TokensLike.here .nil mistake
  | @cons t u ts us ht hs =>
    rw [expect, expect, ht.kind]
    split
    · exact .ok ⟨ht, hs⟩
    · exact TokensLike.here (.cons ht hs) mistake

theorem agree_tooDeep : Agree A V (tooDeep (α := α)) tooDeep :=
  fun _ _ h => h.here .nestedTooDeeply

/-- Operands that are joined one after another, if what is joined of like parts is alike. -/
theorem agree_chain {sep? : TokenKind → Option β} {join : β → α → α → α} {item : Rule α}
    (hitem : Agree A V item item)
    (hjoin : ∀ s {x x' y y'}, V x x' → V y y' → V (join s x y) (join s x' y'))
    {left left' : α} (hleft : V left left') :
    Agree A V (chain sep? join item left) (chain sep? join item left') := by
  intro ts us h
  -- the operands so far grow on either side, so both are generalized
  induction left, ts using chain.induct sep? join generalizing left' us with
  | case1 left =>
    cases h
    rw [chain, chain]
    exact .ok ⟨hleft, .nil⟩
  | case2 left t ts hs =>
    cases h with
    | cons ht h =>
      rw [chain, chain, ht.kind, hs]
      exact .ok ⟨hleft, .cons ht h⟩
  | case3 left t ts s hs ih =>
    cases h with
    | cons ht h =>
      rw [chain, chain, ht.kind, hs]
      refine .bind (hitem _ _ h) fun right right' hr => ?_
      refine .bind (ih right (hjoin s hleft hr.value) _ hr.rest) fun more more' hm => ?_
      exact .ok ⟨hm.value, hm.rest⟩

/-- Like items with like closing tokens. -/
def ListedLike (A : Alignment) (V : α → α → Prop) (r r' : List α × Token) : Prop :=
  List.Forall₂ V r.1 r'.1 ∧ r.2.Like A r'.2

/-- Items with commas between them, up to the token that closes them. -/
theorem agree_items {item : Rule α} (hitem : Agree A V item item) (close : TokenKind)
    (mistake : Mistake) :
    Agree A (ListedLike A V) (items item close mistake) (items item close mistake) := by
  intro ts us h
  induction ts using items.induct generalizing us with
  | case1 ts ih =>
    rw [items, items]
    refine .bind (hitem _ _ h) fun first first' hf => ?_
    rw [hf.rest.nextKind]
    split
    · refine .bind (ih first _ hf.rest.tail) fun more more' hm => ?_
      exact .ok ⟨⟨.cons hf.value hm.value.1, hm.value.2⟩, hm.rest⟩
    · refine .bind (agree_expect close mistake _ _ hf.rest) fun last last' hl => ?_
      exact .ok ⟨⟨.cons hf.value .nil, hl.value⟩, hl.rest⟩

/-- Items, or nothing but the token that closes them. -/
theorem agree_listed {item : Rule α} (hitem : Agree A V item item) (close : TokenKind)
    (mistake : Mistake) :
    Agree A (ListedLike A V) (listed item close mistake) (listed item close mistake) := by
  intro ts us h
  cases h with
  | nil => exact agree_items hitem close mistake _ _ .nil
  | cons ht h =>
    rw [listed, listed, ht.kind]
    split
    · exact .ok ⟨⟨.nil, ht⟩, h⟩
    · exact agree_items hitem close mistake _ _ (.cons ht h)

/-! ## Expressions -/

/-- What is joined has the span that its operands make up together. -/
theorem like_join (op : BinaryOp) {e e' f f' : Expr} (h : e.Like A e') (h' : f.Like A f') :
    (Expr.join op e f).Like A (Expr.join op e' f') :=
  .binary op h h' (A.merge h.span h'.span)

/-- Operands of the tighter operators. -/
theorem agree_product {operand : Rule Expr} (h : AgreeExpr A operand) :
    AgreeExpr A (product operand) := by
  intro ts us hs
  refine .bind (h _ _ hs) fun first first' hf => ?_
  refine .bind (agree_chain h like_join hf.value _ _ hf.rest) fun all all' ha => ?_
  exact .ok ⟨ha.value, ha.rest⟩

theorem agree_condition (h : AgreeExpr A nested) : AgreeExpr A (condition nested) := by
  intro ts us hs
  refine .bind (h _ _ hs) fun first first' hf => ?_
  refine .bind (agree_chain h like_join hf.value _ _ hf.rest) fun all all' ha => ?_
  exact .ok ⟨ha.value, ha.rest⟩

/-- The arms of a choice, if a question mark comes next. -/
theorem agree_arms (h : AgreeExpr A nested) {e f : Expr} (he : e.Like A f) :
    Agree A (Expr.Like A) (arms nested e) (arms nested f) := by
  intro ts us hs
  cases hs with
  | nil => exact .ok ⟨he, .nil⟩
  | cons ht hs =>
    rw [arms, arms, ht.kind]
    split
    · refine .bind (h _ _ hs) fun yes yes' hy => ?_
      refine .bind (agree_expect _ _ _ _ hy.rest) fun colon colon' hc => ?_
      refine .bind (h _ _ hc.rest) fun no no' hn => ?_
      exact .ok ⟨.choice he hy.value hn.value (A.merge he.span hn.value.span), hn.rest⟩
    · exact .ok ⟨he, .cons ht hs⟩

/-- An expression: products with operators between them, and the arms of a choice behind
them. -/
theorem agree_sum {operand : Rule Expr} (hn : AgreeExpr A nested) (h : AgreeExpr A operand) :
    AgreeExpr A (sum nested operand) := by
  intro ts us hs
  have hp := agree_product h
  refine .bind (hp _ _ hs) fun first first' hf => ?_
  refine .bind (agree_chain hp like_join hf.value _ _ hf.rest) fun all all' ha => ?_
  refine .bind (agree_arms hn ha.value _ _ ha.rest) fun whole whole' hw => ?_
  exact .ok ⟨hw.value, hw.rest⟩

/-! ## Keys and atoms -/

/-- Behind a point a name is a member, and a number is an index. -/
theorem like_memberKey {t u : Token} (h : t.Like A u) :
    AnswerLike A (Key.Like A) (memberKey t) (memberKey u) := by
  rw [memberKey, memberKey, h.kind]
  split
  · exact .ok (.member h.identifier)
  · exact .bind h.number? fun l k hl => .ok (.index (.number hl))

/-- An access reaches from what is accessed to its last token. -/
theorem like_at {e f : Expr} {k l : Key} {t u : Token} (he : e.Like A f) (hk : k.Like A l)
    (ht : t.Like A u) : (Expr.at e k t).Like A (Expr.at f l u) :=
  .access he hk (A.merge he.span ht.span)

/-- No line end is a point, or a key behind one. -/
theorem isMember_like {d e k l : Token} (hd : d.Like A e) (hk : k.Like A l) :
    isMember e l = isMember d k := by
  by_cases hdot : d.kind = .lineEnd
  · rw [isMember, isMember, hd.kind, hdot]
    rfl
  by_cases hkey : k.kind = .lineEnd
  · have hn : (TokenKind.lineEnd == .identifier || TokenKind.lineEnd == .decimal ||
        TokenKind.lineEnd == .hexadecimal) = false := rfl
    simp only [isMember, hk.kind, hkey, hn, Bool.and_false]
  · rw [isMember, isMember, hd.kind, hd.spaced hdot, hk.kind, hk.spaced hkey]

/-- And none is an opening mark that has to be attached. -/
theorem opens_like {t u : Token} (h : t.Like A u) {kind : TokenKind} (hk : kind ≠ .lineEnd) :
    (u.kind = kind ∧ !u.spaced) ↔ (t.kind = kind ∧ !t.spaced) := by
  rw [h.kind]
  refine and_congr_right fun he => ?_
  rw [h.spaced (he ▸ hk)]

/-- Brackets and members that are attached to what was read: what is read so far grows on
either side. -/
theorem agree_accesses (h : AgreeExpr A nested) {e f : Expr} (he : e.Like A f) :
    Agree A (Expr.Like A) (accesses nested e) (accesses nested f) := by
  intro ts us hs
  induction e, ts using accesses.induct generalizing f us with
  | case1 e =>
    cases hs
    rw [accesses, accesses]
    exact .ok ⟨he, .nil⟩
  | case2 e t ts hopen hempty =>
    cases hs with
    | cons ht hs =>
      rw [accesses.eq_def, accesses.eq_def]
      dsimp only
      rw [if_pos hopen, if_pos ((opens_like ht (by decide)).2 hopen), TokensLike.nextKind hs,
        if_pos hempty, if_pos hempty]
      exact TokensLike.here hs .emptyBrackets
  | case3 e t ts hopen hempty ih =>
    cases hs with
    | cons ht hs =>
      rw [accesses.eq_def, accesses.eq_def]
      dsimp only
      rw [if_pos hopen, if_pos ((opens_like ht (by decide)).2 hopen), TokensLike.nextKind hs,
        if_neg hempty, if_neg hempty]
      refine .bind (h _ _ hs) fun key key' hk => ?_
      refine .bind (agree_expect _ _ _ _ hk.rest) fun close close' hc => ?_
      have hi := like_at he (.index hk.value) hc.value
      refine .bind (ih key close hi _ hc.rest) fun more more' hm => ?_
      exact .ok ⟨hm.value, hm.rest⟩
  | case4 e t hopen =>
    cases hs with
    | cons ht hs =>
      cases hs
      rw [accesses, accesses, if_neg hopen, if_neg (mt (opens_like ht (by decide)).1 hopen)]
      exact .ok ⟨he, .cons ht .nil⟩
  | case5 e t hopen k ts hk ih =>
    cases hs with
    | cons ht hs =>
      cases hs with
      | cons hk' hs =>
        rw [accesses, accesses, if_neg hopen, if_neg (mt (opens_like ht (by decide)).1 hopen),
          isMember_like ht hk', if_pos hk, if_pos hk]
        refine .bind (like_memberKey hk') fun key key' hkey => ?_
        refine .bind (ih key (like_at he hkey hk') _ hs) fun more more' hm => ?_
        exact .ok ⟨hm.value, hm.rest⟩
  | case6 e t hopen k ts hk =>
    cases hs with
    | cons ht hs =>
      cases hs with
      | cons hk' hs =>
        rw [accesses, accesses, if_neg hopen, if_neg (mt (opens_like ht (by decide)).1 hopen),
          isMember_like ht hk', if_neg hk, if_neg hk]
        exact .ok ⟨he, .cons ht (.cons hk' hs)⟩

/-- A name in front of a colon is a text that is its lexeme. -/
theorem agree_entryKey (h : AgreeExpr A nested) : AgreeExpr A (entryKey nested) := by
  intro ts us hs
  cases hs with
  | nil => exact h _ _ .nil
  | cons ht hs =>
    cases hs with
    | nil => exact h _ _ (.cons ht .nil)
    | cons hc hs =>
      rw [entryKey, entryKey, ht.kind, hc.kind, ht.lexeme]
      split
      · exact .ok ⟨.text _ false ht.span, .cons hc hs⟩
      · exact h _ _ (.cons ht (.cons hc hs))

theorem agree_entry (h : AgreeExpr A nested) :
    Agree A (Expr.EntryLike A) (entry nested) (entry nested) := by
  intro ts us hs
  refine .bind (agree_entryKey h _ _ hs) fun key key' hk => ?_
  refine .bind (agree_expect _ _ _ _ hk.rest) fun colon colon' hc => ?_
  refine .bind (h _ _ hc.rest) fun value value' hv => ?_
  exact .ok ⟨.mk hk.value hv.value, hv.rest⟩

/-- The kind of the first token decides which form an atom has; behind a name an attached
parenthesis makes a call of it. -/
theorem agree_atom (h : AgreeExpr A nested) : AgreeExpr A (atom nested) := by
  intro ts us hs
  cases hs with
  | nil => exact TokensLike.here .nil .atom
  | @cons t u ts us ht hs =>
    rw [atom.eq_def, atom.eq_def]
    dsimp only
    rw [ht.kind, ht.lexeme]
    split
    case h_4 => exact .ok ⟨.text _ false ht.span, hs⟩
    case h_5 => exact .ok ⟨.boolean _ ht.span, hs⟩
    case h_6 =>
      cases hs with
      | nil => exact .ok ⟨.name ht.identifier, .nil⟩
      | @cons p q ps qs hp hs =>
        dsimp only
        by_cases hopen : p.kind = .leftParen ∧ !p.spaced
        · rw [if_pos hopen, if_pos ((opens_like hp (by decide)).2 hopen)]
          refine .bind (agree_listed h _ _ _ _ hs) fun args args' ha => ?_
          have hc := Expr.Like.call ht.identifier ha.value.1 (A.merge ht.span ha.value.2.span)
          refine .bind (agree_accesses h hc _ _ ha.rest) fun whole whole' hw => ?_
          exact .ok ⟨hw.value, hw.rest⟩
        · rw [if_neg hopen, if_neg (mt (opens_like hp (by decide)).1 hopen)]
          exact agree_accesses h (.name ht.identifier) _ _ (.cons hp hs)
    case h_7 =>
      refine .bind (h _ _ hs) fun inner inner' hi => ?_
      refine .bind (agree_expect _ _ _ _ hi.rest) fun close close' hc => ?_
      exact .ok ⟨hi.value, hc.rest⟩
    case h_8 =>
      refine .bind (agree_listed h _ _ _ _ hs) fun all all' ha => ?_
      have hc := Expr.Like.array ha.value.1 (A.merge ht.span ha.value.2.span)
      refine .bind (agree_accesses h hc _ _ ha.rest) fun whole whole' hw => ?_
      exact .ok ⟨hw.value, hw.rest⟩
    case h_9 =>
      refine .bind (agree_listed (agree_entry h) _ _ _ _ hs) fun all all' ha => ?_
      have hc := Expr.Like.table ha.value.1 (A.merge ht.span ha.value.2.span)
      refine .bind (agree_accesses h hc _ _ ha.rest) fun whole whole' hw => ?_
      exact .ok ⟨hw.value, hw.rest⟩
    case h_10 => exact TokensLike.here (.cons ht hs) .atom
    -- the three forms of a number
    all_goals exact .bind ht.number? fun l k hl => .ok ⟨.number hl, hs⟩

/-! ## Levels -/

/-- Behind a sign the operand is a level deeper. -/
theorem agree_signed (hd : AgreeExpr A deeper) (h : AgreeExpr A nested) :
    AgreeExpr A (signed deeper nested) := by
  intro ts us hs
  cases hs with
  | nil => exact agree_atom h _ _ .nil
  | cons ht hs =>
    rw [signed, signed, ht.kind]
    split
    · exact agree_atom h _ _ (.cons ht hs)
    · refine .bind (hd _ _ hs) fun e f he => ?_
      exact .ok ⟨.unary _ he.value (A.merge ht.span he.value.span), he.rest⟩

/-- Every level agrees, for the one below does. -/
theorem agree_levels (n : Nat) : AgreeExpr A (expression n) ∧ AgreeExpr A (Rule.operand n) := by
  induction n with
  | zero =>
    rw [expression, Rule.operand]
    exact ⟨agree_tooDeep, agree_tooDeep⟩
  | succ n ih =>
    rw [expression, Rule.operand]
    have hsigned := agree_signed ih.2 ih.1
    exact ⟨agree_sum ih.1 hsigned, hsigned⟩

theorem agree_expression (n : Nat) : AgreeExpr A (expression n) := (agree_levels n).1

end Rule

/-! ## Message boxes -/

namespace TokensLike

variable {ts us : List Token}

theorem getLast? (h : TokensLike A ts us) : Option.Rel (Token.Like A) ts.getLast? us.getLast? := by
  rw [List.getLast?_eq_head?_reverse, List.getLast?_eq_head?_reverse]
  exact head? (List.forall₂_reverse_iff.2 h)

theorem isEmpty (h : TokensLike A ts us) : us.isEmpty = ts.isEmpty := by
  cases h <;> rfl

end TokensLike

/-- An answer for what is there. -/
theorem Alike.mapM {ε ε' α α' β β' : Type} {E : ε → ε' → Prop} {R : α → β → Prop}
    {V : α' → β' → Prop} {o : Option α} {o' : Option β} {f : α → Except ε α'} {g : β → Except ε' β'}
    (h : Option.Rel R o o') (hf : ∀ a b, R a b → Alike E V (f a) (g b)) :
    Alike E (Option.Rel V) (o.mapM f) (o'.mapM g) := by
  cases h with
  | none => exact .ok .none
  | some h => exact .bind (hf _ _ h) fun _ _ hv => .ok (.some hv)

namespace BoxArguments

variable {t u : Token} {ts us : List Token}

/-- The comma that may stand first is left out in both. -/
theorem line_like (h : TokensLike A ts us) : TokensLike A (line ts) (line us) := by
  rw [line, line, h.nextKind]
  split
  · exact h.tail
  · exact h

/-- The tokens of a line are parted where the commas are, which is where they are in the
other. -/
theorem segments_like (h : TokensLike A ts us) :
    TokensLike A (segments ts).1 (segments us).1 ∧
      TokensLike A (segments ts).2 (segments us).2 := by
  fun_induction segments ts generalizing us with
  | case1 => cases h; exact ⟨.nil, .nil⟩
  | case2 t hk =>
    cases h with
    | cons ht h =>
      cases h
      rw [segments, if_pos (ht.kind.trans hk)]
      exact ⟨.cons ht .nil, .nil⟩
  | case3 t hk =>
    cases h with
    | cons ht h =>
      cases h
      rw [segments, if_neg (ht.kind ▸ hk)]
      exact ⟨.nil, .cons ht .nil⟩
  | case4 t c ts hk hc ih =>
    cases h with
    | cons ht h =>
      cases h with
      | cons hc' h =>
        obtain ⟨ih, ih'⟩ := ih h
        rw [segments, if_pos (ht.kind.trans hk), if_pos (hc'.kind.trans hc)]
        exact ⟨.cons ht ih, ih'⟩
  | case5 t c ts hk hc =>
    cases h with
    | cons ht h =>
      cases h with
      | cons hc' h =>
        rw [segments, if_pos (ht.kind.trans hk), if_neg (hc'.kind ▸ hc)]
        exact ⟨.cons ht .nil, .cons hc' h⟩
  | case6 t c ts hk =>
    cases h with
    | cons ht h =>
      cases h with
      | cons hc' h =>
        rw [segments, if_neg (ht.kind ▸ hk)]
        exact ⟨.nil, .cons ht (.cons hc' h)⟩

/-- Tokens that are alike as arguments: without the white space around them they are the
same text, and failures at them are related. -/
structure ArgumentLike (A : Alignment) (E : Failure → Failure → Prop) (t u : Token) : Prop where
  content : content u = content t
  span : A.alike t.span u.span
  failure : ∀ mistake, E ⟨mistake, some t⟩ ⟨mistake, some u⟩

theorem argumentLike (h : t.Like A u) : ArgumentLike A (Failure.Like A) t u where
  content := by rw [content, content, h.lexeme]
  span := h.span
  failure _ := ⟨rfl, .some h⟩

section

variable {E : Failure → Failure → Prop}

theorem asText_like (h : ArgumentLike A E t u) : (asText t).Like A (asText u) := by
  rw [asText, asText, h.content]
  exact .text _ true h.span

theorem asNumber_like (which : BoxNumber) (h : ArgumentLike A E t u) :
    Alike E (NumberLiteral.Like A) (asNumber which t) (asNumber which u) := by
  rw [asNumber.eq_def, asNumber.eq_def, h.content]
  split
  case h_4 => exact .error (h.failure _)
  all_goals exact .ok ⟨rfl, h.span⟩

/-- An argument with nothing in it counts as none. -/
theorem given?_like (h : List.Forall₂ (ArgumentLike A E) ts us) (i : Nat) :
    Option.Rel (ArgumentLike A E) (given? ts i) (given? us i) := by
  unfold given?
  generalize ts[i]? = o, us[i]? = o', rel_getElem? h i = hi
  cases hi with
  | none => exact .none
  | some h =>
    rw [Option.filter_some, Option.filter_some, h.content]
    split
    · exact .some h
    · exact .none

theorem asText?_like {o o' : Option Token} (h : Option.Rel (ArgumentLike A E) o o') :
    Option.Rel (Expr.Like A) (o.map asText) (o'.map asText) := by
  cases h with
  | none => exact .none
  | some h => exact .some (asText_like h)

/-- Each argument has its place, and the first that is one too many is objected to. -/
theorem positional_like (h : List.Forall₂ (ArgumentLike A E) ts us) :
    Alike E (BoxArguments.Like A) (positional ts) (positional us) := by
  unfold positional
  generalize ts[maxBoxArguments]? = o, us[maxBoxArguments]? = o',
    rel_getElem? h maxBoxArguments = ho
  cases ho with
  | some ho => exact .error (ho.failure _)
  | none =>
    have hnumber (place) {i} := Alike.mapM (given?_like h i) fun _ _ => asNumber_like place
    refine .bind (hnumber .options) fun _ _ hn => .bind (hnumber .timeout) fun _ _ ht => ?_
    exact .ok ⟨hn, asText?_like (given?_like h 1), asText?_like (given?_like h 2), ht⟩

/-- **Like arguments mean the same**, if they are the same text where they are joined. -/
theorem ofSegments_alike (h : List.Forall₂ (ArgumentLike A E) ts us)
    (hjoined : (joined ts).Like A (joined us)) :
    Alike E (BoxArguments.Like A) (ofSegments ts) (ofSegments us) := by
  cases h with
  | nil => exact .ok ⟨.none, .none, .none, .none⟩
  | @cons t u ts us ht h =>
    have hrest : us.isEmpty = ts.isEmpty := by cases h <;> rfl
    rw [ofSegments, ofSegments, isOptionLike, isOptionLike, ht.content, hrest]
    split
    · exact positional_like (.cons ht h)
    · exact .ok ⟨.none, .none, .some hjoined, .none⟩

end

/-- The text that arguments are joined to is made of their lexemes. -/
theorem lexemes_like (h : TokensLike A ts us) :
    (us.map fun t => t.lexeme.toList) = ts.map fun t => t.lexeme.toList := by
  induction h with
  | nil => rfl
  | cons h _ ih => rw [List.map_cons, List.map_cons, ih, h.lexeme]

/-- Joined arguments reach from the first to the last. -/
theorem joined_like (ht : t.Like A u) (h : TokensLike A ts us) :
    (joined (t :: ts)).Like A (joined (u :: us)) := by
  have hl := TokensLike.getLast? (.cons ht h)
  rw [List.getLast?_cons, List.getLast?_cons] at hl
  cases hl with
  | some hl =>
    simp only [joined, lexemes_like (.cons ht h), List.getLast?_cons, List.head?_cons]
    exact .text _ true (A.merge ht.span hl.span)

theorem ofSegments_like (h : TokensLike A ts us) :
    AnswerLike A (BoxArguments.Like A) (ofSegments ts) (ofSegments us) := by
  cases h with
  | nil => exact .ok ⟨.none, .none, .none, .none⟩
  | cons ht h =>
    exact ofSegments_alike ((List.Forall₂.cons ht h).imp fun _ _ => argumentLike)
      (joined_like ht h)

end BoxArguments

namespace Rule

variable {α β : Type} {V : α → α → Prop} {expr nested : Rule Expr} {block : Rule Block}

/-- A box has an expression behind a percent sign, or raw arguments. -/
theorem agree_box (h : AgreeExpr A nested) {t u : Token} (ht : t.Like A u) :
    Agree A (Stmt.Like A) (box nested t) (box nested u) := by
  intro ts us hs
  rw [box, box, hs.nextKind]
  split
  · refine .bind (h _ _ hs.tail) fun text text' he => ?_
    refine .ok ⟨.box ⟨.none, .none, .some he.value, .none⟩ ?_, he.rest⟩
    exact A.merge ht.span he.value.span
  · obtain ⟨hargs, hrest⟩ := BoxArguments.segments_like (BoxArguments.line_like hs)
    refine .bind (BoxArguments.ofSegments_like hargs) fun args args' ha => ?_
    refine .ok ⟨.box ha ?_, hrest⟩
    have hl := TokensLike.getLast? hargs
    generalize (BoxArguments.segments (BoxArguments.line ts)).1.getLast? = o,
      (BoxArguments.segments (BoxArguments.line us)).1.getLast? = o' at hl
    cases hl with
    | none => exact ht.span
    | some hl => exact A.merge ht.span hl.span

/-! ## Statements -/

/-- A statement ends with its line, with its block or with the script. -/
theorem agree_endOfStatement (inBlock : Bool) :
    Agree A (fun _ _ => True) (endOfStatement inBlock) (endOfStatement inBlock) := by
  intro ts us h
  cases h with
  | nil => exact .ok ⟨trivial, .nil⟩
  | cons ht h =>
    rw [endOfStatement, endOfStatement, ht.kind]
    split
    · exact .ok ⟨trivial, h⟩
    · split
      · exact .ok ⟨trivial, .cons ht h⟩
      · exact TokensLike.here (.cons ht h) .lineEnd

/-- Reads like statements from like tokens, or both nothing. -/
abbrev AgreeStmt (A : Alignment) (statement : Rule (Option Stmt)) : Prop :=
  Agree A (Option.Rel (Stmt.Like A)) statement statement

/-- Statements up to the end: the two lists end together, since what comes next is of one
kind. -/
theorem agree_statements {statement : Rule (Option Stmt)} (h : AgreeStmt A statement)
    (inBlock : Bool) :
    Agree A (List.Forall₂ (Stmt.Like A)) (statements statement inBlock)
      (statements statement inBlock) := by
  intro ts us hs
  induction ts using statements.induct inBlock generalizing us with
  | case1 ts hend =>
    have hend' := hend
    rw [← hs.skipLineEnds.isEmpty, ← hs.skipLineEnds.nextKind] at hend'
    rw [statements, statements, if_pos hend, if_pos hend']
    exact .ok ⟨.nil, hs.skipLineEnds⟩
  | case2 ts hend ih =>
    have hend' := hend
    rw [← hs.skipLineEnds.isEmpty, ← hs.skipLineEnds.nextKind] at hend'
    rw [statements, statements, if_neg hend, if_neg hend']
    refine .bind (h _ _ hs.skipLineEnds) fun first first' hf => ?_
    refine .bind (agree_endOfStatement inBlock _ _ hf.rest) fun stop stop' ho => ?_
    refine .bind (ih first stop _ ho.rest) fun more more' hm => ?_
    refine .ok ⟨?_, hm.rest⟩
    -- a block comment adds no statement to either
    have hv := hf.value
    generalize first.value = o, first'.value = o' at hv
    cases hv with
    | none => exact hm.value
    | some hs => exact .cons hs hm.value

/-- Reads like blocks from like tokens. -/
abbrev AgreeBlock (A : Alignment) (block : Rule Block) : Prop := Agree A (Block.Like A) block block

theorem agree_braced {statement : Rule (Option Stmt)} (h : AgreeStmt A statement) :
    AgreeBlock A (braced statement) := by
  intro ts us hs
  refine .bind (agree_expect _ _ _ _ hs) fun start start' ha => ?_
  refine .bind (agree_statements h true _ _ ha.rest) fun body body' hb => ?_
  refine .bind (agree_expect _ _ _ _ hb.rest) fun stop stop' ho => ?_
  exact .ok ⟨.mk hb.value (A.merge ha.value.span ho.value.span), ho.rest⟩

theorem agree_globalAssignment (h : AgreeExpr A expr) {t u : Token} (ht : t.Like A u) :
    Agree A (Stmt.Like A) (globalAssignment expr t) (globalAssignment expr u) := by
  intro ts us hs
  refine .bind (agree_expect _ _ _ _ hs) fun name name' hn => ?_
  refine .bind (agree_expect _ _ _ _ hn.rest) fun sign sign' hg => ?_
  refine .bind (h _ _ hg.rest) fun value value' hv => ?_
  exact .ok ⟨.assign true hn.value.identifier hv.value (A.merge ht.span hv.value.span), hv.rest⟩

/-- A value stands behind the word only if the line does not end. -/
theorem agree_returned (h : AgreeExpr A expr) {t u : Token} (ht : t.Like A u) :
    Agree A (Stmt.Like A) (returned expr t) (returned expr u) := by
  intro ts us hs
  rw [returned, returned, hs.nextKind]
  split
  · exact .ok ⟨.give .none ht.span, hs⟩
  · refine .bind (h _ _ hs) fun value value' hv => ?_
    exact .ok ⟨.give (.some hv.value) (A.merge ht.span hv.value.span), hv.rest⟩

theorem elseWord?_of_nil {ts : List Token} (h : skipLineEnds ts = []) : elseWord? ts = none := by
  unfold elseWord?
  split
  next hts => rw [h] at hts; cases hts
  next => rfl

theorem elseWord?_of_cons {ts rest : List Token} {t : Token} (h : skipLineEnds ts = t :: rest) :
    elseWord? ts =
      if t.kind = .elseWord then some ⟨(), skipLineEnds rest, length_lt_of_skipLineEnds h⟩
      else none := by
  unfold elseWord?
  split
  next hts => rw [h] at hts; cases hts; rfl
  next hts => rw [h] at hts; cases hts

/-- The word `else` is there in both, with like tokens behind it. -/
theorem elseWord?_like {ts us : List Token} (h : TokensLike A ts us) :
    Option.Rel (fun p q => TokensLike A p.rest q.rest) (elseWord? ts) (elseWord? us) := by
  have hk := h.skipLineEnds
  match hts : skipLineEnds ts, hus : skipLineEnds us, hk with
  | [], [], .nil =>
    rw [elseWord?_of_nil hts, elseWord?_of_nil hus]
    exact .none
  | t :: ts, u :: us, .cons ht hs =>
    rw [elseWord?_of_cons hts, elseWord?_of_cons hus, ht.kind]
    split
    · exact .some (TokensLike.skipLineEnds hs)
    · exact .none

/-- An `if` with what is behind its `else`. The induction is along the chain of further
ones, and the block that is made for one has its span. -/
theorem agree_branch (h : AgreeExpr A expr) (hb : AgreeBlock A block) {t u : Token}
    (ht : t.Like A u) : Agree A (Stmt.Like A) (branch expr block t) (branch expr block u) := by
  intro ts us hs
  induction t, ts using branch.induct generalizing u us with
  | case1 t ts ih =>
    rw [branch.eq_def, branch.eq_def]
    refine .bind (agree_condition h _ _ hs) fun test test' hc => ?_
    refine .bind (hb _ _ hc.rest.skipLineEnds) fun yes yes' hy => ?_
    have hmerge := A.merge ht.span hy.value.span
    have he := elseWord?_like hy.rest
    generalize elseWord? yes.rest = o, elseWord? yes'.rest = o' at he
    cases he with
    | none => exact .ok ⟨.branch hc.value hy.value .none hmerge, hy.rest⟩
    | @some p q he =>
      obtain ⟨_, r, hlt⟩ := p
      obtain ⟨_, r', hlt'⟩ := q
      cases he with
      | nil =>
        -- nothing follows the word, and the block's own rule objects to that
        refine .bind (hb _ _ .nil) fun no no' hn => ?_
        exact .ok ⟨.branch hc.value hy.value (.some hn.value) (A.merge ht.span hn.value.span),
          hn.rest⟩
      | @cons a b as bs ha hs =>
        dsimp only
        rw [ha.kind]
        split
        next =>
          refine .bind (ih test yes a as hlt ha _ hs) fun more more' hm => ?_
          have hno := Block.Like.mk (.cons hm.value .nil) hm.value.span
          exact .ok ⟨.branch hc.value hy.value (.some hno) (A.merge ht.span hno.span), hm.rest⟩
        next =>
          refine .bind (hb _ _ (.cons ha hs)) fun no no' hn => ?_
          exact .ok ⟨.branch hc.value hy.value (.some hn.value) (A.merge ht.span hn.value.span),
            hn.rest⟩

theorem agree_bare (h : AgreeExpr A expr) : Agree A (Stmt.Like A) (bare expr) (bare expr) := by
  intro ts us hs
  refine .bind (h _ _ hs) fun target target' ht => ?_
  rw [ht.rest.nextKind]
  split
  · -- only an access may stand in front of `:=`, and like expressions have one form
    have hv := ht.value
    generalize target.value = e, target'.value = f at hv
    cases hv with
    | access he hk ha =>
      refine .bind (h _ _ ht.rest.tail) fun value value' hv => ?_
      exact .ok ⟨.store he hk hv.value (A.merge ha hv.value.span), hv.rest⟩
    | _ => exact ht.rest.here .notAssignable
  · exact .ok ⟨.expr ht.value ht.value.span, ht.rest⟩

/-- Behind a name the kind of the next token decides, and behind the parameters whether a
block begins. -/
theorem agree_named (h : AgreeExpr A expr) (hb : AgreeBlock A block) {t u : Token}
    (ht : t.Like A u) {ts us : List Token} (hs : TokensLike A ts us) :
    AnswerLike A (Parsed.Like A (Stmt.Like A)) (named expr block t ts) (named expr block u us) := by
  cases hs with
  | nil => exact agree_bare h _ _ (.cons ht .nil)
  | @cons a b as bs ha hs =>
    rw [named, named, ha.kind]
    split
    · refine .bind (h _ _ hs) fun value value' hv => ?_
      exact .ok ⟨.assign false ht.identifier hv.value (A.merge ht.span hv.value.span), hv.rest⟩
    split
    · refine .bind (agree_expect _ _ _ _ hs) fun text text' hx => ?_
      rw [hx.value.lexeme]
      exact .ok ⟨.assign false ht.identifier (.text _ true hx.value.span)
        (A.merge ht.span hx.value.span), hx.rest⟩
    split
    · refine .bind (agree_listed h _ _ _ _ hs) fun params params' hp => ?_
      rw [hp.rest.skipLineEnds.nextKind]
      split
      · refine .bind (hb _ _ hp.rest.skipLineEnds) fun body body' hbody => ?_
        exact .ok ⟨.declare ht.identifier hp.value.1 hbody.value
          (A.merge ht.span hbody.value.span), hbody.rest⟩
      · exact agree_bare h _ _ (.cons ht (.cons ha hs))
    · exact agree_bare h _ _ (.cons ht (.cons ha hs))

/-! ## All together -/

/-- The kind of the first token decides which rule reads a statement. -/
theorem agree_statement (h : AgreeExpr A expr) (hb : AgreeBlock A block) :
    AgreeStmt A (statement expr block) := by
  intro ts us hs
  cases hs with
  | nil =>
    refine .bind (agree_bare h _ _ .nil) fun s s' hv => ?_
    exact .ok ⟨.some hv.value, hv.rest⟩
  | cons ht hs =>
    rw [statement, statement, ht.kind]
    split
    case h_1 =>
      refine .bind (agree_expect _ _ _ _ hs) fun close close' hc => ?_
      exact .ok ⟨.none, hc.rest⟩
    case h_2 =>
      refine .bind (agree_globalAssignment h ht _ _ hs) fun s s' hv => ?_
      exact .ok ⟨.some hv.value, hv.rest⟩
    case h_3 =>
      refine .bind (agree_returned h ht _ _ hs) fun s s' hv => ?_
      exact .ok ⟨.some hv.value, hv.rest⟩
    case h_4 =>
      refine .bind (agree_branch h hb ht _ _ hs) fun s s' hv => ?_
      exact .ok ⟨.some hv.value, hv.rest⟩
    case h_5 =>
      refine .bind (agree_box h ht _ _ hs) fun s s' hv => ?_
      exact .ok ⟨.some hv.value, hv.rest⟩
    case h_6 =>
      refine .bind (agree_named h hb ht hs) fun s s' hv => ?_
      exact .ok ⟨.some hv.value, hv.rest⟩
    case h_7 =>
      refine .bind (agree_bare h _ _ (.cons ht hs)) fun s s' hv => ?_
      exact .ok ⟨.some hv.value, hv.rest⟩

/-- Blocks are nested as deep as there are levels left. -/
theorem agree_block (n : Nat) : AgreeBlock A (Rule.block n) := by
  induction n with
  | zero => rw [Rule.block]; exact agree_tooDeep
  | succ n ih =>
    rw [Rule.block]
    exact agree_braced (agree_statement (agree_expression n) ih)

theorem agree_script : Agree A (List.Forall₂ (Stmt.Like A)) script script :=
  agree_statements (agree_statement (agree_expression _) (agree_block _)) false

end Rule

/-! ## Programs -/

/-- Programs whose statements are alike one by one. -/
def Program.Like (A : Alignment) (p q : Program) : Prop :=
  List.Forall₂ (Stmt.Like A) p.statements q.statements

/-- The same mistake at places that stand for each other. -/
structure GrammarError.Like (A : Alignment) (e f : GrammarError) : Prop where
  mistake : f.mistake = e.mistake
  span : A.alike e.span f.span
  atLineEnd : f.atLineEnd = e.atLineEnd

theorem TokensLike.dropLast {ts us : List Token} (h : TokensLike A ts us) :
    TokensLike A ts.dropLast us.dropLast := by
  rw [List.dropLast_eq_take, List.dropLast_eq_take, h.length_eq]
  exact List.forall₂_take _ h

/-- **Like tokens make up like programs**, or hold like mistakes. -/
theorem Program.like_ofTokens {ts us : List Token} (h : TokensLike A ts us) (hts : ts ≠ []) :
    Alike (GrammarError.Like A) (Program.Like A) (Program.ofTokens ts) (Program.ofTokens us) := by
  have hs := Rule.agree_script _ _ (TokensLike.dropLast h.tail)
  rw [← List.drop_one, ← List.drop_one] at hs
  unfold Program.ofTokens
  generalize Rule.script (ts.drop 1).dropLast = x, Rule.script (us.drop 1).dropLast = y at hs
  cases hs with
  | ok hp => exact .ok hp.value
  | @error f g hf =>
    have hl : (f.token?.getD (ts.getLast?.getD default)).Like A
        (g.token?.getD (us.getLast?.getD default)) := by
      have hl := h.getLast?
      rw [List.getLast?_eq_some_getLast hts] at hl ⊢
      generalize us.getLast? = l at hl
      generalize f.token? = o, g.token? = o', hf.token? = ho
      cases hl with
      | some hl =>
        cases ho with
        | none => exact hl
        | some ho => exact ho
    exact .error ⟨hf.mistake, hl.span, congrArg TokenKind.isLineEnd hl.kind⟩

end HotkeyScript
