import HotkeyScript.Error
import HotkeyScript.Proofs.Program.Greedy
import HotkeyScript.Proofs.Token.Written
/-!
# Programs — what rules give

What a rule reads off tokens and what it leaves is stated as one fact (`Gives`). There
is a lemma for each rule that texts written token by token are read with: chains of
separators and items (`Rule.Chained.gives`), names, products and sums, statements, and
from them scripts (`Mark.program_of_script`, `Mark.program_of_expr`).
-/

namespace HotkeyScript

variable {α β : Type} {bound : Nat}

/-- A value is read, and a rest is left. -/
def Gives (r : Except Failure (Parsed α bound)) (value : α) (rest : List Token) : Prop :=
  ∃ h, r = .ok ⟨value, rest, h⟩

/-- A blank stands in front of the first of some tokens, if there is one. -/
def Detached (ts : List Token) : Prop := ∀ t ∈ ts.head?, t.spaced = true

/-- Nothing is skipped in front of a token that is no line end. -/
theorem skipLineEnds_cons {t : Token} (h : t.kind ≠ .lineEnd) (ts : List Token) :
    skipLineEnds (t :: ts) = t :: ts := by
  have hk : ¬ (t.kind == .lineEnd) = true := by
    rw [beq_iff_eq]
    exact h
  rw [skipLineEnds, List.dropWhile_cons, if_neg hk]

/-- The token of a number stands for what its lexeme is read as. -/
theorem Token.number?_of_read? {t : Token} {form : Form} {value : Number}
    (hform : t.kind.form? = some form) (h : Number.read? form t.lexeme.toList = some value) :
    t.number? = .ok ⟨value, t.span⟩ := by
  rw [number?, hform, Option.bind_some, h]

/-- And it is out of range where its lexeme cannot be read. -/
theorem Token.number?_of_unread {t : Token} {form : Form} (hform : t.kind.form? = some form)
    (h : Number.read? form t.lexeme.toList = none) :
    t.number? = .error ⟨.numberRange t.lexeme, some t⟩ := by
  rw [number?, hform, Option.bind_some, h]

/-- The token of a decimal integer stands for the integer. -/
theorem DecimalText.number?_eq (digits : DecimalText) {t : Token} (hkind : t.kind = .decimal)
    (hlexeme : t.lexeme = String.ofList digits.text) :
    t.number? = .ok ⟨.decimal digits.value, t.span⟩ := by
  have hform : t.kind.form? = some .decimal := by rw [hkind]; rfl
  have hcs : t.lexeme.toList = digits.text := by rw [hlexeme]; exact String.toList_ofList
  exact Token.number?_of_read? hform (hcs ▸ digits.read?_eq)

namespace Rule

/-! ## Chains -/

/-- Tokens are separators with an item behind each, in front of a rest at which no
separator comes next. -/
inductive Chained (sep? : TokenKind → Option β) (item : Rule α) (rest : List Token) :
    List (β × α) → List Token → Prop where
  | nil : sep? (nextKind rest) = none → Chained sep? item rest [] rest
  | cons {t : Token} {ts ts' : List Token} {s : β} {x : α} {links : List (β × α)} :
      sep? t.kind = some s → Gives (item ts) x ts' → Chained sep? item rest links ts' →
      Chained sep? item rest ((s, x) :: links) (t :: ts)

/-- A chain folds its items to the left. -/
theorem Chained.gives {sep? : TokenKind → Option β} {item : Rule α} {rest ts : List Token}
    {links : List (β × α)} (h : Chained sep? item rest links ts) (join : β → α → α → α)
    (left : α) : Gives (chain sep? join item left ts)
      (links.foldl (fun left link => join link.1 left link.2) left) rest := by
  induction h generalizing left with
  | nil hs => exact ⟨_, chain_of_none hs⟩
  | @cons t ts ts' s x links hs hx _ ih =>
    obtain ⟨hlt, hx⟩ := hx
    obtain ⟨hlt', hmore⟩ := ih (join s left x)
    have hrest : rest.length < (t :: ts).length + 1 := by
      rw [List.length_cons]
      omega
    refine ⟨hrest, ?_⟩
    rw [chain, hs]
    change (item ts >>= _) = _
    rw [hx]
    change (chain sep? join item (join s left x) ts' >>= _) = _
    rw [hmore]
    rfl

/-! ## Expressions -/

section

variable {nested deeper operand : Rule Expr} {first : Expr} {links : List (BinaryOp × Expr)}
  {ts behindFirst rest : List Token}

/-- What is no sign is read as an atom. -/
theorem signed_of_none {t : Token} (h : UnaryOp.ofKind? t.kind = none) :
    signed deeper nested (t :: ts) = atom nested (t :: ts) := by
  rw [signed, h]

/-- Behind a blank no key is attached. -/
theorem accesses_of_detached (hts : Detached ts) (object : Expr) :
    accesses nested object ts = .ok (.nothing object ts) := by
  cases ts with
  | nil => rw [accesses]
  | cons t ts =>
    have hspaced : t.spaced = true := hts t rfl
    have hbracket : ¬ (t.kind = .leftBracket ∧ (!t.spaced) = true) := by
      rintro ⟨-, hattached⟩
      rw [hspaced] at hattached
      cases hattached
    rw [accesses.eq_def]
    dsimp only
    rw [if_neg hbracket]
    cases ts with
    | nil => rfl
    | cons k ts =>
      have hmember : ¬ isMember t k = true := by simp [isMember, hspaced]
      dsimp only
      rw [if_neg hmember]

/-- A name that no parenthesis is attached to is read with its keys. -/
theorem gives_name {t : Token} {e : Expr} (hk : t.kind = .identifier)
    (hcall : ∀ p ∈ ts.head?, ¬ (p.kind = .leftParen ∧ (!p.spaced) = true))
    (h : Gives (accesses nested (.name t.identifier) ts) e rest) :
    Gives (atom nested (t :: ts)) e rest := by
  rw [atom.eq_def]
  dsimp only
  rw [hk]
  cases ts with
  | nil =>
    obtain ⟨hlt, h⟩ := h
    rw [accesses] at h
    cases h
    exact ⟨hlt, rfl⟩
  | cons p ts =>
    dsimp only
    rw [if_neg (hcall p rfl)]
    exact h

/-- A name in front of nothing, or of a blank, is read alone. -/
theorem gives_detached {t : Token} (hk : t.kind = .identifier) (hts : Detached ts) :
    Gives (signed deeper nested (t :: ts)) (.name t.identifier) ts := by
  have hcall : ∀ p ∈ ts.head?, ¬ (p.kind = .leftParen ∧ (!p.spaced) = true) := by
    rintro p hp ⟨-, hspaced⟩
    rw [hts p hp] at hspaced
    cases hspaced
  rw [signed_of_none (by rw [hk]; rfl)]
  exact gives_name hk hcall ⟨Nat.lt_succ_self _, accesses_of_detached hts _⟩

/-- A product is its operands folded to the left. -/
theorem gives_product (hfirst : Gives (operand ts) first behindFirst)
    (hlinks : Chained BinaryOp.multiplicative? operand rest links behindFirst) :
    Gives (product operand ts)
      (links.foldl (fun left link => Expr.join link.1 left link.2) first) rest := by
  obtain ⟨hlt, hfirst⟩ := hfirst
  obtain ⟨hlt', hall⟩ := hlinks.gives Expr.join first
  refine ⟨Nat.lt_of_lt_of_le hlt' hlt, ?_⟩
  rw [product, hfirst]
  change (chain BinaryOp.multiplicative? Expr.join operand first behindFirst >>= _) = _
  rw [hall]
  rfl

/-- A sum that is no choice is its products folded to the left. -/
theorem gives_sum (hfirst : Gives (product operand ts) first behindFirst)
    (hlinks : Chained BinaryOp.additive? (product operand) rest links behindFirst)
    (hrest : nextKind rest ≠ .question) :
    Gives (sum nested operand ts)
      (links.foldl (fun left link => Expr.join link.1 left link.2) first) rest := by
  obtain ⟨hlt, hfirst⟩ := hfirst
  obtain ⟨hlt', hall⟩ := hlinks.gives Expr.join first
  have harms (condition : Expr) :
      arms nested condition rest = .ok (.nothing condition rest) := by
    cases rest with
    | nil => rfl
    | cons t rest => exact if_neg hrest
  refine ⟨Nat.lt_of_lt_of_le hlt' hlt, ?_⟩
  rw [sum, hfirst]
  change (chain BinaryOp.additive? Expr.join (product operand) first behindFirst >>= _) = _
  rw [hall]
  change (arms nested _ rest >>= _) = _
  rw [harms]
  rfl

end

/-! ## Statements -/

/-- The first token begins no other statement than an expression. -/
def BeginsExpr : List Token → Prop
  | [] => False
  | t :: ts => t.kind = .decimal ∨ t.kind = .quoted ∨ t.kind = .boolean ∨
      (t.kind = .identifier ∧ nextKind ts ≠ .assign ∧ nextKind ts ≠ .equals ∧
        nextKind ts ≠ .leftParen)

variable {expr : Rule Expr} {block : Rule Block} {e : Expr} {ts : List Token}

/-- An expression that nothing is assigned to is a statement. -/
theorem gives_bare (h : Gives (expr ts) e []) :
    Gives (bare expr ts) (.expr e e.span) [] := by
  obtain ⟨hlt, h⟩ := h
  refine ⟨hlt, ?_⟩
  rw [bare, h]
  rfl

theorem gives_statement (hts : BeginsExpr ts) (h : Gives (expr ts) e []) :
    Gives (statement expr block ts) (some (.expr e e.span)) [] := by
  obtain ⟨hlt, hbare⟩ := gives_bare h
  cases ts with
  | nil => cases hts
  | cons t ts =>
    refine ⟨hlt, ?_⟩
    rw [statement.eq_def]
    dsimp only
    rcases hts with hk | hk | hk | ⟨hk, hassign, hequals, hparen⟩ <;> rw [hk] <;> dsimp only
    case inr.inr.inr =>
      have hnamed : named expr block t ts = bare expr (t :: ts) := by
        unfold named
        cases ts with
        | nil => rfl
        | cons u ts => exact (if_neg hassign).trans ((if_neg hequals).trans (if_neg hparen))
      rw [hnamed, hbare]
      rfl
    all_goals
      rw [hbare]
      rfl

/-- One statement up to the end of the tokens is a row of them. -/
theorem gives_statements {statement : Rule (Option Stmt)} {s : Stmt}
    (hts : nextKind ts ≠ .lineEnd) (h : Gives (statement ts) (some s) []) :
    Gives (statements statement false ts) [s] [] := by
  cases ts with
  | nil =>
    obtain ⟨hlt, -⟩ := h
    exact absurd hlt (Nat.not_lt_zero _)
  | cons t ts =>
    have hskip : skipLineEnds (t :: ts) = t :: ts := skipLineEnds_cons hts ts
    have hend : ¬ ((skipLineEnds (t :: ts)).isEmpty ||
        (false && nextKind (skipLineEnds (t :: ts)) == .rightBrace)) = true := by
      rw [hskip]
      exact Bool.false_ne_true
    rw [← hskip] at h
    obtain ⟨hlt, h⟩ := h
    have hnone : statements statement false [] = .ok ⟨[], [], Nat.zero_lt_one⟩ := by
      rw [statements]
      rfl
    refine ⟨Nat.zero_lt_succ _, ?_⟩
    rw [statements, if_neg hend]
    rw [h]
    change (statements statement false [] >>= _) = _
    rw [hnone]
    rfl

end Rule

/-- A program is what is read between the two ends of its tokens. -/
theorem Program.ofTokens_of_gives {sof eof : Token} {ts rest : List Token} {ss : List Stmt}
    (h : Gives (Rule.script ts) ss rest) :
    Program.ofTokens (sof :: ts ++ [eof]) = .ok ⟨ss⟩ := by
  have hmid : ((sof :: ts ++ [eof]).drop 1).dropLast = ts := List.dropLast_concat
  rw [← hmid] at h
  obtain ⟨hlt, h⟩ := h
  rw [ofTokens, h]

/-- **A text of marks whose tokens are statements** is the script of them. -/
theorem Mark.program_of_script {ms : List Mark} (hms : Scanned [] ms) {ss : List Stmt}
    (h : Gives (Rule.script (tokens .start ms)) ss []) (file : String) :
    (⟨file, String.ofList (textOf ms)⟩ : Source).program = .ok ⟨ss⟩ := by
  rw [Source.program, Source.tokens, tokenize_of_scanned hms]
  change Source.programOf _ _ = _
  rw [Source.programOf, Program.ofTokens_of_gives h]
  rfl

/-- **A text of marks whose tokens are one expression** is the script of it. -/
theorem Mark.program_of_expr {ms : List Mark} (hms : Scanned [] ms) {e : Expr}
    (hts : Rule.BeginsExpr (tokens .start ms))
    (h : Gives (Rule.expression maxNesting (tokens .start ms)) e []) (file : String) :
    (⟨file, String.ofList (textOf ms)⟩ : Source).program = .ok ⟨[.expr e e.span]⟩ := by
  refine program_of_script hms (Rule.gives_statements ?_ (Rule.gives_statement hts h)) file
  cases hms : tokens .start ms with
  | nil => decide
  | cons t ts =>
    rw [hms] at hts
    rcases hts with hk | hk | hk | ⟨hk, -⟩ <;> rw [nextKind, hk] <;> decide

end HotkeyScript
