import HotkeyScript.Proofs.Program.Gives
/-!
# Programs — how operators group their operands

Operands with operators between them make up a formula. It is cut into runs at its
additive operators (`Formula.cut`, the only way to do so by `Formula.cutInto_iff`).
A formula that is written with blanks around its operators is read as each run
folded to the left, and the runs folded to the left (`FormulaText.groups_to_the_left`).

Of the two loops that read it, the inner one takes a run and leaves the additive
operator behind it to the outer one. So one induction over the links in front of
the end follows both: what the inner loop takes of them, and what is left for the
outer (`LinkText.chained`).
-/

namespace HotkeyScript

open Text

/-! ## Formulas -/

/-- Operands with operators between them. -/
structure Formula (α : Type) where
  first : α
  links : List (BinaryOp × α)
deriving DecidableEq

/-- Whether an operator is one of `+`, `-` and `.`. -/
def BinaryOp.isAdditive : BinaryOp → Bool
  | .arith .add | .arith .sub | .concat => true
  | .arith .mul | .arith .div | .and | .or => false

namespace Formula

variable {α β : Type}

def map (f : α → β) (formula : Formula α) : Formula β :=
  ⟨f formula.first, formula.links.map fun link => (link.1, f link.2)⟩

/-- The operands joined from the left. -/
def fold (join : BinaryOp → α → α → α) (formula : Formula α) : α :=
  formula.links.foldl (fun left link => join link.1 left link.2) formula.first

/-- The links of formulas behind operators, one formula behind the other. -/
def linksOf (runs : List (BinaryOp × Formula α)) : List (BinaryOp × α) :=
  runs.flatMap fun run => (run.1, run.2.first) :: run.2.links

/-- Formulas with operators between them, as one formula. -/
def flatten (runs : Formula (Formula α)) : Formula α :=
  ⟨runs.first.first, runs.first.links ++ linksOf runs.links⟩

/-- A formula is cut into runs: additive operators stand between the runs, and none
stands in one. -/
structure CutInto (whole : Formula α) (runs : Formula (Formula α)) : Prop where
  flatten_eq : runs.flatten = whole
  first : ∀ link ∈ runs.first.links, link.1.isAdditive = false
  between : ∀ run ∈ runs.links, run.1.isAdditive = true
  others : ∀ run ∈ runs.links, ∀ link ∈ run.2.links, link.1.isAdditive = false

/-- Links up to the first additive operator, and the runs from there on. -/
def cutLinks : List (BinaryOp × α) → List (BinaryOp × α) × List (BinaryOp × Formula α)
  | [] => ([], [])
  | (op, x) :: links =>
    let (run, runs) := cutLinks links
    if op.isAdditive then ([], (op, ⟨x, run⟩) :: runs) else ((op, x) :: run, runs)

/-- The runs of a formula. -/
def cut (whole : Formula α) : Formula (Formula α) :=
  ⟨⟨whole.first, (cutLinks whole.links).1⟩, (cutLinks whole.links).2⟩

variable {op : BinaryOp} {x : α} {run links : List (BinaryOp × α)}

theorem cutLinks_additive (h : op.isAdditive = true) :
    cutLinks ((op, x) :: links) = ([], (op, ⟨x, (cutLinks links).1⟩) :: (cutLinks links).2) :=
  if_pos h

theorem cutLinks_multiplicative (h : op.isAdditive = false) :
    cutLinks ((op, x) :: links) = ((op, x) :: (cutLinks links).1, (cutLinks links).2) :=
  if_neg (Bool.eq_false_iff.1 h)

/-- Links without an additive operator are taken whole. -/
theorem cutLinks_append (h : ∀ link ∈ run, link.1.isAdditive = false) :
    cutLinks (run ++ links) = (run ++ (cutLinks links).1, (cutLinks links).2) := by
  induction run with
  | nil => rfl
  | cons link run ih =>
    obtain ⟨hlink, hrun⟩ := List.forall_mem_cons.1 h
    rw [List.cons_append, cutLinks_multiplicative hlink, ih hrun]
    rfl

/-- Runs behind additive operators are found again. -/
theorem cutLinks_linksOf {runs : List (BinaryOp × Formula α)}
    (hbetween : ∀ run ∈ runs, run.1.isAdditive = true)
    (hothers : ∀ run ∈ runs, ∀ link ∈ run.2.links, link.1.isAdditive = false) :
    cutLinks (linksOf runs) = ([], runs) := by
  induction runs with
  | nil => rfl
  | cons run runs ih =>
    obtain ⟨hop, hbetween⟩ := List.forall_mem_cons.1 hbetween
    obtain ⟨hrun, hothers⟩ := List.forall_mem_cons.1 hothers
    have hcons : linksOf (run :: runs) =
        (run.1, run.2.first) :: (run.2.links ++ linksOf runs) := rfl
    rw [hcons, cutLinks_additive hop, cutLinks_append hrun, ih hbetween hothers, List.append_nil]

theorem cutInto_cut (whole : Formula α) : whole.CutInto whole.cut := by
  have hlinks (links : List (BinaryOp × α)) :
      (cutLinks links).1 ++ linksOf (cutLinks links).2 = links ∧
        (∀ link ∈ (cutLinks links).1, link.1.isAdditive = false) ∧
        (∀ run ∈ (cutLinks links).2, run.1.isAdditive = true) ∧
        ∀ run ∈ (cutLinks links).2, ∀ link ∈ run.2.links, link.1.isAdditive = false := by
    induction links with
    | nil => exact ⟨rfl, nofun, nofun, nofun⟩
    | cons link links ih =>
      obtain ⟨happend, hfirst, hbetween, hothers⟩ := ih
      cases hop : link.1.isAdditive with
      | true =>
        rw [cutLinks_additive hop]
        refine ⟨congrArg (link :: ·) happend, nofun, ?_, ?_⟩
        · exact List.forall_mem_cons.2 ⟨hop, hbetween⟩
        · exact List.forall_mem_cons.2 ⟨hfirst, hothers⟩
      | false =>
        rw [cutLinks_multiplicative hop]
        refine ⟨congrArg (link :: ·) happend, ?_, hbetween, hothers⟩
        exact List.forall_mem_cons.2 ⟨hop, hfirst⟩
  obtain ⟨happend, hfirst, hbetween, hothers⟩ := hlinks whole.links
  exact ⟨congrArg (Formula.mk whole.first) happend, hfirst, hbetween, hothers⟩

/-- **A formula is cut into runs in one way only.** -/
theorem cutInto_iff {whole : Formula α} {runs : Formula (Formula α)} :
    whole.CutInto runs ↔ runs = whole.cut := by
  constructor
  · rintro ⟨rfl, hfirst, hbetween, hothers⟩
    have hlinks : cutLinks runs.flatten.links = (runs.first.links, runs.links) := by
      rw [flatten, cutLinks_append hfirst, cutLinks_linksOf hbetween hothers, List.append_nil]
    rw [cut, hlinks]
    rfl
  · rintro rfl
    exact cutInto_cut whole

example : (Formula.mk 1 [(.arith .add, 2), (.or, 3), (.arith .div, 4), (.concat, 5)]).cut =
    ⟨⟨1, []⟩, [(.arith .add, ⟨2, [(.or, 3), (.arith .div, 4)]⟩), (.concat, ⟨5, []⟩)]⟩ := rfl

end Formula

/-! ## Formulas as they are written -/

/-- One blank or more. -/
structure Blanks where
  text : List Char
  nonempty : text ≠ []
  areBlank : text.all isBlank = true

/-- The text of an operand that is one token. -/
inductive OperandText where
  | decimal (digits : DecimalText)
  | quoted (inside : List Char) (oneLine : '\n' ∉ inside)
  | boolean (value : Bool)
  | name (name : NameText)

/-- How an operator is written. -/
def BinaryOp.wording : BinaryOp → Wording
  | .arith .add => .plain .plus ['+']
  | .arith .sub => .plain .minus ['-']
  | .arith .mul => .plain .times ['*']
  | .arith .div => .plain .divide ['/']
  | .concat => .plain .dot ['.']
  | .and => .plain .andWord ['a', 'n', 'd']
  | .or => .plain .orWord ['o', 'r']

namespace OperandText

/-- How an operand is written. -/
def wording : OperandText → Wording
  | decimal digits => digits.wording
  | quoted inside _ => ⟨.quoted, unescape inside, '"' :: (Scan.doubled inside ++ ['"'])⟩
  | boolean true => .plain .boolean ['t', 'r', 'u', 'e']
  | boolean false => .plain .boolean ['f', 'a', 'l', 's', 'e']
  | .name n => n.wording

/-- What an operand stands for in its place. -/
def expr (span : Span) : OperandText → Expr
  | decimal digits => .number ⟨.decimal digits.value, span⟩
  | quoted inside _ => .text (String.ofList (unescape inside)) false span
  | boolean value => .boolean value span
  | .name n => .name ⟨String.ofList n.text, span⟩

end OperandText

/-- An operator and an operand behind it, each behind blanks. -/
structure LinkText where
  before : Blanks
  op : BinaryOp
  between : Blanks
  operand : OperandText

namespace LinkText

/-- The operator of a link with the blanks in front of it. -/
def opMark (link : LinkText) : Mark := ⟨link.op.wording, link.before.text⟩

/-- The operand of a link with the blanks in front of it. -/
def operandMark (link : LinkText) : Mark := ⟨link.operand.wording, link.between.text⟩

/-- The marks of links. -/
def marks : List LinkText → List Mark
  | [] => []
  | link :: links => link.opMark :: link.operandMark :: marks links

/-- The operators and operands of links that are written from a position on. -/
def placed (p : Position) : List LinkText → List (BinaryOp × Expr)
  | [] => []
  | link :: links =>
    let behindOp := p.past link.opMark.written
    (link.op, link.operand.expr (link.operandMark.token behindOp).span) ::
      placed (behindOp.past link.operandMark.written) links

end LinkText

/-- A formula with blanks around its operators. -/
structure FormulaText where
  first : OperandText
  links : List LinkText

namespace FormulaText

/-- The first operand. -/
def firstMark (formula : FormulaText) : Mark := ⟨formula.first.wording, []⟩

/-- The marks of a formula. -/
def marks (formula : FormulaText) : List Mark :=
  formula.firstMark :: LinkText.marks formula.links

/-- A formula as it is written. -/
def text (formula : FormulaText) : String := String.ofList (Mark.textOf formula.marks)

/-- The operands in their places, with the operators between them. -/
def placed (formula : FormulaText) : Formula Expr where
  first := formula.first.expr (formula.firstMark.token .start).span
  links := LinkText.placed (Position.start.past formula.firstMark.written) formula.links

/-- An operator with what stands on either side of it, and the span of both. -/
def node (op : BinaryOp) (left right : Expr) : Expr :=
  .binary op left right (left.span.merge right.span)

/-- Each run folded to the left, and the runs folded to the left. -/
def tree (formula : FormulaText) : Expr :=
  (formula.placed.cut.map (Formula.fold node)).fold node

end FormulaText

/-! ## Their marks are scanned -/

/-- Behind a blank, nothing comes next that a class without blanks has. -/
theorem Text.NotNext.blanks {p : Char → Bool} (hp : p ' ' = false ∧ p '\t' = false ∧ p '\r' = false)
    (blanks : Blanks) (rest : List Char) : NotNext p (blanks.text ++ rest) := by
  obtain ⟨text, hne, hblank⟩ := blanks
  cases text with
  | nil => exact (hne rfl).elim
  | cons c text =>
    refine .cons ?_ _
    have hc : isBlank c = true := (Bool.and_eq_true_iff.1 hblank).1
    simp only [isBlank, Bool.or_eq_true, beq_iff_eq] at hc
    rcases hc with (rfl | rfl) | rfl
    · exact hp.1
    · exact hp.2.1
    · exact hp.2.2

theorem BinaryOp.readBefore (op : BinaryOp) (blanks : Blanks) (rest : List Char) :
    op.wording.ReadBefore (blanks.text ++ rest) := by
  cases op with
  | arith op =>
    cases op with
    | add =>
      have hplus : Scan.punctuation? '+' = some .plus := rfl
      exact Wording.readBefore_punctuation hplus nofun _
    | sub =>
      have hminus : Scan.punctuation? '-' = some .minus := rfl
      exact Wording.readBefore_punctuation hminus nofun _
    | mul => exact Wording.readBefore_times (.blanks (by decide) _ _)
    | div => exact Wording.readBefore_divide (.blanks (by decide) _ _)
  | concat =>
    have hdot : Scan.punctuation? '.' = some .dot := rfl
    exact Wording.readBefore_punctuation hdot nofun _
  | and =>
    change (Wording.plain .andWord ('a' :: ['n', 'd'])).ReadBefore _
    exact Wording.readBefore_word rfl rfl rfl nofun (.blanks (by decide) _ _)
  | or =>
    change (Wording.plain .orWord ('o' :: ['r'])).ReadBefore _
    exact Wording.readBefore_word rfl rfl rfl nofun (.blanks (by decide) _ _)

theorem OperandText.readBefore (operand : OperandText) {rest : List Char}
    (h : ∀ p : Char → Bool, p ' ' = false ∧ p '\t' = false ∧ p '\r' = false → NotNext p rest) :
    operand.wording.ReadBefore rest := by
  cases operand with
  | decimal digits => exact digits.readBefore (h _ (by decide))
  | quoted inside oneLine => exact Wording.readBefore_quoted oneLine (h _ (by decide))
  | boolean value =>
    cases value with
    | true =>
      change (Wording.plain .boolean ('t' :: ['r', 'u', 'e'])).ReadBefore _
      exact Wording.readBefore_word rfl rfl rfl nofun (h _ (by decide))
    | false =>
      change (Wording.plain .boolean ('f' :: ['a', 'l', 's', 'e'])).ReadBefore _
      exact Wording.readBefore_word rfl rfl rfl nofun (h _ (by decide))
  | name n => exact n.readBefore (h _ (by decide))

namespace LinkText

/-- Behind an operand stands a blank, or nothing. -/
theorem notNext (links : List LinkText) (p : Char → Bool)
    (hp : p ' ' = false ∧ p '\t' = false ∧ p '\r' = false) :
    NotNext p (Mark.textOf (marks links) ++ []) := by
  cases links with
  | nil => exact .nil p
  | cons link links =>
    rw [marks, Mark.textOf_cons, Mark.written, opMark, List.append_assoc, List.append_assoc]
    exact .blanks hp _ _

theorem scanned (links : List LinkText) : Mark.Scanned [] (marks links) := by
  induction links with
  | nil => trivial
  | cons link links ih =>
    refine ⟨link.before.areBlank, ?_, link.between.areBlank, ?_, ih⟩
    · rw [Mark.textOf_cons, Mark.written, List.append_assoc, List.append_assoc]
      exact link.op.readBefore link.between _
    · exact link.operand.readBefore (notNext links)

end LinkText

theorem FormulaText.scanned (formula : FormulaText) : Mark.Scanned [] formula.marks :=
  ⟨rfl, formula.first.readBefore (LinkText.notNext formula.links), LinkText.scanned formula.links⟩

/-! ## Their tokens are read -/

namespace Rule

variable {ts : List Token}

/-- An operand is read in front of nothing, or of a blank. -/
theorem gives_operand (deeper nested : Rule Expr) {operand : OperandText} {t : Token}
    (hkind : t.kind = operand.wording.kind)
    (hlexeme : t.lexeme = String.ofList operand.wording.lexeme) (hts : Detached ts) :
    Gives (signed deeper nested (t :: ts)) (operand.expr t.span) ts := by
  cases operand with
  | decimal digits =>
    have hk : t.kind = .decimal := hkind
    refine ⟨Nat.lt_succ_self _, ?_⟩
    rw [signed_of_none (by rw [hk]; rfl), atom.eq_def]
    dsimp only
    rw [hk]
    dsimp only
    rw [digits.number?_eq hk hlexeme]
    rfl
  | quoted inside oneLine =>
    have hk : t.kind = .quoted := hkind
    refine ⟨Nat.lt_succ_self _, ?_⟩
    rw [signed_of_none (by rw [hk]; rfl), atom.eq_def]
    dsimp only
    rw [hk, hlexeme]
    rfl
  | boolean value =>
    have hk : t.kind = .boolean := by cases value <;> exact hkind
    have hvalue : (t.lexeme == "true") = value := by rw [hlexeme]; cases value <;> rfl
    refine ⟨Nat.lt_succ_self _, ?_⟩
    rw [signed_of_none (by rw [hk]; rfl), atom.eq_def]
    dsimp only
    rw [hk, hvalue]
    rfl
  | name n =>
    have hk : t.kind = .identifier := hkind
    have hname : (OperandText.name n).expr t.span = .name t.identifier := by
      rw [Token.identifier, hlexeme]
      rfl
    rw [hname]
    exact gives_detached hk hts

end Rule

/-- An additive operator is one to the outer loop, and none to the inner. -/
theorem BinaryOp.additive_of_isAdditive {op : BinaryOp} (h : op.isAdditive = true) :
    additive? op.wording.kind = some op ∧ multiplicative? op.wording.kind = none := by
  cases op with
  | arith op => cases op <;> first | exact ⟨rfl, rfl⟩ | cases h
  | concat => exact ⟨rfl, rfl⟩
  | and => cases h
  | or => cases h

/-- Every other operator is one to the inner loop. -/
theorem BinaryOp.multiplicative_of_isAdditive {op : BinaryOp} (h : op.isAdditive = false) :
    multiplicative? op.wording.kind = some op := by
  cases op with
  | arith op => cases op <;> first | rfl | cases h
  | concat => cases h
  | and => rfl
  | or => rfl

namespace LinkText

variable (deeper nested : Rule Expr)

/-- A blank stands in front of the tokens of links. -/
theorem detached (p : Position) (links : List LinkText) :
    Detached (Mark.tokens p (marks links)) := by
  cases links with
  | nil => exact fun t ht => nomatch ht
  | cons link links =>
    rintro t ⟨⟩
    change (!link.before.text.isEmpty) = true
    cases htext : link.before.text with
    | nil => exact (link.before.nonempty htext).elim
    | cons c cs => rfl

/-- **What each loop takes of the links in front of the end.** The inner loop takes
those up to the first additive operator, and the outer one the runs that are left. -/
theorem chained (p : Position) (links : List LinkText) : ∃ rest,
    Rule.Chained BinaryOp.multiplicative? (Rule.signed deeper nested) rest
        (Formula.cutLinks (placed p links)).1 (Mark.tokens p (marks links)) ∧
      Rule.Chained BinaryOp.additive? (Rule.product (Rule.signed deeper nested)) []
        ((Formula.cutLinks (placed p links)).2.map fun run => (run.1, run.2.fold Expr.join))
        rest := by
  induction links generalizing p with
  | nil => exact ⟨[], .nil rfl, .nil rfl⟩
  | cons link links ih =>
    obtain ⟨rest, hrun, hruns⟩ := ih ((p.past link.opMark.written).past link.operandMark.written)
    have hoperand := Rule.gives_operand deeper nested
      (t := link.operandMark.token (p.past link.opMark.written)) rfl rfl
      (detached ((p.past link.opMark.written).past link.operandMark.written) links)
    rw [placed, marks, Mark.tokens, Mark.tokens]
    cases hop : link.op.isAdditive with
    | true =>
      obtain ⟨hadd, hmul⟩ := BinaryOp.additive_of_isAdditive hop
      rw [Formula.cutLinks_additive hop]
      exact ⟨_, .nil hmul, .cons hadd (Rule.gives_product hoperand hrun) hruns⟩
    | false =>
      rw [Formula.cutLinks_multiplicative hop]
      exact ⟨rest, .cons (BinaryOp.multiplicative_of_isAdditive hop) hoperand hrun, hruns⟩

end LinkText

namespace FormulaText

/-- On every level a formula up to the end is read as its tree. -/
theorem gives_expression (formula : FormulaText) (n : Nat) :
    Gives (Rule.expression (n + 1) (Mark.tokens .start formula.marks)) formula.tree [] := by
  obtain ⟨rest, hrun, hruns⟩ := LinkText.chained (Rule.operand n) (Rule.expression n)
    (Position.start.past formula.firstMark.written) formula.links
  have hfirst : Gives (Rule.signed (Rule.operand n) (Rule.expression n)
        (Mark.tokens .start formula.marks)) formula.placed.first
      (Mark.tokens (Position.start.past formula.firstMark.written)
        (LinkText.marks formula.links)) :=
    Rule.gives_operand _ _ rfl rfl (LinkText.detached _ formula.links)
  rw [Rule.expression]
  exact Rule.gives_sum (Rule.gives_product hfirst hrun) hruns (by decide)

/-- A formula begins no other statement than an expression. -/
theorem beginsExpr (formula : FormulaText) :
    Rule.BeginsExpr (Mark.tokens .start formula.marks) := by
  obtain ⟨first, links⟩ := formula
  cases first with
  | decimal digits => exact .inl rfl
  | quoted inside oneLine => exact .inr (.inl rfl)
  | boolean value =>
    cases value with
    | true => exact .inr (.inr (.inl rfl))
    | false => exact .inr (.inr (.inl rfl))
  | name n =>
    refine .inr (.inr (.inr ⟨rfl, ?_⟩))
    cases links with
    | nil => exact ⟨nofun, nofun, nofun⟩
    | cons link links =>
      obtain ⟨before, op, between, operand⟩ := link
      cases op with
      | arith op => cases op <;> exact ⟨nofun, nofun, nofun⟩
      | concat => exact ⟨nofun, nofun, nofun⟩
      | and => exact ⟨nofun, nofun, nofun⟩
      | or => exact ⟨nofun, nofun, nofun⟩

/-- **Operators group to the left on two levels.** A row of operands that are one token
each, with any operators between them and blanks around each operator, is cut at its
additive operators in one way only; each run between two of them is folded to the
left, and then the runs are. So it is read on every level, to its end, and as a
script by itself. -/
theorem groups_to_the_left (formula : FormulaText) (file : String) :
    (∀ runs, formula.placed.CutInto runs ↔ runs = formula.placed.cut) ∧
      ∃ ts, (⟨file, formula.text⟩ : Source).tokens = .ok
          (Mark.fileStart :: ts ++
            [Mark.fileEnd (Position.start.past (Mark.textOf formula.marks))]) ∧
        (∀ n, Gives (Rule.expression (n + 1) ts) formula.tree []) ∧
        (⟨file, formula.text⟩ : Source).program =
          .ok ⟨[.expr formula.tree formula.tree.span]⟩ := by
  refine ⟨fun runs => Formula.cutInto_iff, Mark.tokens .start formula.marks, ?_, ?_, ?_⟩
  · rw [Source.tokens, text, Mark.tokenize_of_scanned formula.scanned]
    rfl
  · exact formula.gives_expression
  · exact Mark.program_of_expr formula.scanned formula.beginsExpr
      (formula.gives_expression _) file

end FormulaText

end HotkeyScript
