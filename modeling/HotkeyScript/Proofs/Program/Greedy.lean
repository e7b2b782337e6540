import HotkeyScript.Proofs.Program.Reading
import HotkeyScript.Token.Tokenize
/-!
# Programs — expressions are read as far as they go

Behind an expression no token comes next that would go on with it: no operator
between operands, and no `?` (`Rule.stops_expression`). So `and` and `or` behind a
condition's first expression are never there to be joined, and a condition is read
as an expression is (`Rule.condition_reads_expression`).

What stops a rule is followed through the rules that it calls: a chain ends where no
separator comes next, and where its last item ended (`Rule.stops_chain`).
-/

namespace HotkeyScript

/-- Whether a token of this kind goes on with an expression in front of it: it is an
operator between operands, or the `?` of a choice. -/
def TokenKind.extendsExpr : TokenKind → Bool
  | plus | minus | dot | times | divide | andWord | orWord | question => true
  | _ => false

/-- A token that is neither an operator of one of the two levels nor a `?` goes on
with no expression. -/
theorem TokenKind.extendsExpr_eq_false {kind : TokenKind}
    (hadd : BinaryOp.additive? kind = none) (hmul : BinaryOp.multiplicative? kind = none)
    (hquestion : kind ≠ .question) : kind.extendsExpr = false := by
  cases kind with
  | plus | minus | dot => cases hadd
  | times | divide | andWord | orWord => cases hmul
  | question => exact (hquestion rfl).elim
  | _ => rfl

/-- What joins conditions goes on with an expression. -/
theorem BinaryOp.logical?_eq_none {kind : TokenKind} (h : kind.extendsExpr = false) :
    BinaryOp.logical? kind = none := by
  cases kind with
  | andWord | orWord => cases h
  | _ => rfl

namespace Rule

variable {α β : Type}

/-- What comes next behind whatever a rule reads has a property. -/
def Stops (rule : Rule α) (P : TokenKind → Prop) : Prop :=
  ∀ ts p, rule ts = .ok p → P (nextKind p.rest)

/-! ## Chains -/

section

variable {sep? : TokenKind → Option β} {join : β → α → α → α} {item : Rule α} {left : α}

/-- Where no separator comes next, a chain reads nothing. -/
theorem chain_of_none {ts : List Token} (h : sep? (nextKind ts) = none) :
    chain sep? join item left ts = .ok (.nothing left ts) := by
  cases ts with
  | nil => rw [chain]
  | cons t ts =>
    have ht : sep? t.kind = none := h
    rw [chain, ht]

/-- A chain ends where no separator comes next, and where an item ended or where it
began itself. -/
theorem stops_chain {P : TokenKind → Prop} (hitem : item.Stops P) (hend : sep? .fileEnd = none)
    {ts : List Token} (hts : P (nextKind ts)) {p : Parsed α (ts.length + 1)}
    (h : chain sep? join item left ts = .ok p) :
    sep? (nextKind p.rest) = none ∧ P (nextKind p.rest) := by
  induction left, ts using chain.induct sep? join with
  | case1 left =>
    rw [chain] at h
    cases h
    exact ⟨hend, hts⟩
  | case2 left t ts hs =>
    rw [chain, hs] at h
    cases h
    exact ⟨hs, hts⟩
  | case3 left t ts s hs ih =>
    rw [chain, hs] at h
    obtain ⟨right, hright, h⟩ := bind_eq_ok_iff.1 h
    obtain ⟨more, hmore, h⟩ := bind_eq_ok_iff.1 h
    cases h
    exact ih right (hitem _ _ hright) hmore

end

/-! ## Expressions -/

variable {nested operand : Rule Expr}

/-- A product ends where no multiplicative operator comes next. -/
theorem stops_product (operand : Rule Expr) :
    (product operand).Stops fun kind => BinaryOp.multiplicative? kind = none := by
  intro ts p h
  obtain ⟨first, -, h⟩ := bind_eq_ok_iff.1 h
  obtain ⟨all, hall, h⟩ := bind_eq_ok_iff.1 h
  cases h
  exact (stops_chain (P := fun _ => True) (fun _ _ _ => trivial) rfl trivial hall).1

/-- Behind a condition at which no operator comes next, the arms of a choice end as
the last of them does, and where there are none no `?` comes next either. -/
theorem stops_arms (hn : nested.Stops fun kind => kind.extendsExpr = false) {condition : Expr}
    {ts : List Token} (hadd : BinaryOp.additive? (nextKind ts) = none)
    (hmul : BinaryOp.multiplicative? (nextKind ts) = none) {p : Parsed Expr (ts.length + 1)}
    (h : arms nested condition ts = .ok p) : (nextKind p.rest).extendsExpr = false := by
  cases ts with
  | nil => cases h; rfl
  | cons t ts =>
    rw [arms] at h
    split at h
    next hquestion =>
      obtain ⟨yes, -, h⟩ := bind_eq_ok_iff.1 h
      obtain ⟨colon, -, h⟩ := bind_eq_ok_iff.1 h
      obtain ⟨no, hno, h⟩ := bind_eq_ok_iff.1 h
      cases h
      have hstop := hn _ _ hno
      exact hstop
    next hquestion =>
      cases h
      exact TokenKind.extendsExpr_eq_false hadd hmul hquestion

theorem stops_sum (hn : nested.Stops fun kind => kind.extendsExpr = false) (operand : Rule Expr) :
    (sum nested operand).Stops fun kind => kind.extendsExpr = false := by
  intro ts p h
  obtain ⟨first, hfirst, h⟩ := bind_eq_ok_iff.1 h
  obtain ⟨all, hall, h⟩ := bind_eq_ok_iff.1 h
  obtain ⟨whole, hwhole, h⟩ := bind_eq_ok_iff.1 h
  cases h
  have hproduct := stops_product operand
  obtain ⟨hadd, hmul⟩ := stops_chain hproduct rfl (hproduct _ _ hfirst) hall
  exact stops_arms hn hadd hmul hwhole

/-- On every level an expression ends where nothing goes on with it, for on the level
below it does, and only the arms of a choice are read there. -/
theorem stops_expression (n : Nat) :
    (expression n).Stops fun kind => kind.extendsExpr = false := by
  induction n with
  | zero =>
    rw [expression]
    intro ts p h
    cases h
  | succ n ih =>
    rw [expression]
    exact stops_sum ih _

/-- Where nothing goes on with what a rule reads, a condition of it is the rule. -/
theorem condition_eq (hn : nested.Stops fun kind => kind.extendsExpr = false) (ts : List Token) :
    condition nested ts = nested ts := by
  rw [condition]
  cases hfirst : nested ts with
  | error failure => rfl
  | ok first =>
    have hnone := BinaryOp.logical?_eq_none (hn _ _ hfirst)
    change (chain BinaryOp.logical? Expr.join nested first.value first.rest >>= _) = _
    rw [chain_of_none hnone]
    rfl

/-- **Expressions are read greedily, and conditions read no more.** On every level and
in front of any tokens, wherever a reader of expressions may have come to in a script:
behind an expression nothing comes next that would go on with it; and a condition is
read as an expression, to the same expression and the same rest, or to the same
failure. -/
theorem condition_reads_expression (n : Nat) (ts : List Token) :
    (∀ p, expression n ts = .ok p → (nextKind p.rest).extendsExpr = false) ∧
      condition (expression n) ts = expression n ts :=
  ⟨stops_expression n ts, condition_eq (stops_expression n) ts⟩

/-- A choice with operators in its condition and in its last arm, in front of a block. -/
theorem condition_reads_expression_choice :
    let ts := ((tokenize "a or b ? f(1) : x . 2 and y.z \x7b").toOption.getD []).drop 1
    ∃ p, expression 3 ts = .ok p ∧ nextKind p.rest = .leftBrace ∧
      (nextKind p.rest).extendsExpr = false ∧ condition (expression 3) ts = .ok p := by
  intro ts
  have hnext : (expression 3 ts).toOption.map (nextKind ·.rest) = some .leftBrace := by
    decide +kernel
  cases hp : expression 3 ts with
  | error failure => rw [hp] at hnext; cases hnext
  | ok p =>
    rw [hp] at hnext
    obtain ⟨hstop, hcondition⟩ := condition_reads_expression 3 ts
    exact ⟨p, rfl, Option.some.inj hnext, hstop p hp, hcondition.trans hp⟩

end Rule

end HotkeyScript
