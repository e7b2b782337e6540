import HotkeyScript.Proofs.Program.ElseIf
/-!
# Programs — how deep nodes nest

In a program that was read no way down leads through more than `maxNesting` levels
(`Source.levels_le`). It may go along any number of edges to the `if` of an `else if`,
which lead no level deeper (`ElseIfs.exists_program`); a block in braces is not one of these.

The bound is followed through the rules: what a rule reads nests no deeper than there
are levels left (`Rule.nests_levels`, `Rule.nests_block`), and what it reads a level
deeper nests in one less.
-/

namespace HotkeyScript

/-! ## What rules read -/

/-- Whatever a rule reads has a property. -/
def Rule.Yields {α : Type} (rule : Rule α) (P : α → Prop) : Prop :=
  ∀ ts p, rule ts = .ok p → P p.value

def OptionalRule.Yields {α : Type} (rule : OptionalRule α) (P : α → Prop) : Prop :=
  ∀ ts p, rule ts = .ok p → P p.value

namespace Rule

open Node

variable {α β : Type} {P : α → Prop} {n : Nat} {nested operand : Rule Expr}

/-- Where no level is left nothing is read. -/
theorem yields_tooDeep : (tooDeep : Rule α).Yields P := by
  intro ts p h
  cases h

/-- What a chain joins has the property if joining keeps it. -/
theorem yields_chain {sep? : TokenKind → Option β} {join : β → α → α → α} {item : Rule α}
    (hitem : item.Yields P) (hjoin : ∀ {s x y}, P x → P y → P (join s x y)) {left : α}
    (hleft : P left) : (chain sep? join item left).Yields P := by
  intro ts
  induction left, ts using chain.induct sep? join with
  | case1 left =>
    intro p h
    rw [chain] at h
    cases h
    exact hleft
  | case2 left t ts hs =>
    intro p h
    rw [chain, hs] at h
    cases h
    exact hleft
  | case3 left t ts s hs ih =>
    intro p h
    rw [chain, hs] at h
    obtain ⟨right, hright, h⟩ := bind_eq_ok_iff.1 h
    obtain ⟨more, hmore, h⟩ := bind_eq_ok_iff.1 h
    cases h
    exact ih right (hjoin hleft (hitem _ _ hright)) more hmore

theorem yields_items {item : Rule α} (hitem : item.Yields P) (close : TokenKind)
    (mistake : Mistake) : (items item close mistake).Yields fun r => ∀ x ∈ r.1, P x := by
  intro ts
  induction ts using items.induct with
  | case1 ts ih =>
    intro p h
    rw [items] at h
    obtain ⟨first, hfirst, h⟩ := bind_eq_ok_iff.1 h
    have hone := hitem _ _ hfirst
    split at h
    next =>
      obtain ⟨more, hmore, h⟩ := bind_eq_ok_iff.1 h
      cases h
      exact List.forall_mem_cons.2 ⟨hone, ih first more hmore⟩
    next =>
      obtain ⟨last, hlast, h⟩ := bind_eq_ok_iff.1 h
      cases h
      exact List.forall_mem_singleton.2 hone

/-- What is listed has the property, item by item. -/
theorem yields_listed {item : Rule α} (hitem : item.Yields P) (close : TokenKind)
    (mistake : Mistake) : (listed item close mistake).Yields fun r => ∀ x ∈ r.1, P x := by
  intro ts p h
  cases ts with
  | nil => exact yields_items hitem close mistake _ _ h
  | cons t ts =>
    rw [listed] at h
    split at h
    next => cases h; exact fun x hx => absurd hx List.not_mem_nil
    next => exact yields_items hitem close mistake _ _ h

/-! ## Expressions -/

/-- Reads expressions that nest no deeper. -/
abbrev NestsExpr (rule : Rule Expr) (levels : Nat) : Prop :=
  rule.Yields fun e => (Node.expr e).NestsIn levels

/-- Operands stand on the level of their operator, however many of them there are. -/
theorem nests_join {op : BinaryOp} {left right : Expr} (hl : (Node.expr left).NestsIn n)
    (hr : (Node.expr right).NestsIn n) : (Node.expr (Expr.join op left right)).NestsIn n :=
  .of_children rfl (List.forall_mem_cons.2 ⟨hl, List.forall_mem_singleton.2 hr⟩)

theorem nests_product (h : NestsExpr operand n) : NestsExpr (product operand) n := by
  intro ts p hp
  obtain ⟨first, hfirst, hp⟩ := bind_eq_ok_iff.1 hp
  obtain ⟨all, hall, hp⟩ := bind_eq_ok_iff.1 hp
  cases hp
  exact yields_chain h nests_join (h _ _ hfirst) _ _ hall

theorem nests_condition (h : NestsExpr nested n) : NestsExpr (condition nested) n := by
  intro ts p hp
  obtain ⟨first, hfirst, hp⟩ := bind_eq_ok_iff.1 hp
  obtain ⟨all, hall, hp⟩ := bind_eq_ok_iff.1 hp
  cases hp
  exact yields_chain h nests_join (h _ _ hfirst) _ _ hall

/-- Both arms stand one level deeper than the choice. -/
theorem nests_arms (h : NestsExpr nested n) {cond : Expr}
    (hcond : (Node.expr cond).NestsIn (n + 1)) :
    (arms nested cond).Yields fun e => (Node.expr e).NestsIn (n + 1) := by
  intro ts p hp
  cases ts with
  | nil => cases hp; exact hcond
  | cons t ts =>
    rw [arms] at hp
    split at hp
    next =>
      obtain ⟨yes, hyes, hp⟩ := bind_eq_ok_iff.1 hp
      obtain ⟨colon, hcolon, hp⟩ := bind_eq_ok_iff.1 hp
      obtain ⟨no, hno, hp⟩ := bind_eq_ok_iff.1 hp
      cases hp
      refine .of_edges (List.forall_mem_cons.2 ⟨hcond, List.forall_mem_cons.2 ⟨?_, ?_⟩⟩)
      · exact ⟨n, rfl, h _ _ hyes⟩
      · exact List.forall_mem_singleton.2 ⟨n, rfl, h _ _ hno⟩
    next => cases hp; exact hcond

/-- Terms stand on the level of their sum; the arms that may follow it stand a level
deeper. -/
theorem nests_sum (hn : NestsExpr nested n) (h : NestsExpr operand (n + 1)) :
    NestsExpr (sum nested operand) (n + 1) := by
  intro ts p hp
  obtain ⟨first, hfirst, hp⟩ := bind_eq_ok_iff.1 hp
  obtain ⟨all, hall, hp⟩ := bind_eq_ok_iff.1 hp
  obtain ⟨whole, hwhole, hp⟩ := bind_eq_ok_iff.1 hp
  cases hp
  have hproduct := nests_product h
  have hall := yields_chain hproduct nests_join (hproduct _ _ hfirst) _ _ hall
  have hwhole := nests_arms hn hall _ _ hwhole
  exact hwhole

/-- A key stands on the level of its object; what is in it stands a level deeper. -/
theorem nests_at {object : Expr} {key : Key} {last : Token}
    (hobject : (Node.expr object).NestsIn n) (hkey : (Node.key key).NestsIn n) :
    (Node.expr (Expr.at object key last)).NestsIn n :=
  .of_children rfl (List.forall_mem_cons.2 ⟨hobject, List.forall_mem_singleton.2 hkey⟩)

theorem nests_index {key : Expr} (h : (Node.expr key).NestsIn n) :
    (Node.key (.index key)).NestsIn (n + 1) :=
  .of_edges (List.forall_mem_singleton.2 ⟨n, rfl, h⟩)

/-- A name behind a point takes no level, and a number there the one that an index takes. -/
theorem nests_memberKey {t : Token} {key : Key} (h : memberKey t = .ok key) :
    (Node.key key).NestsIn (n + 1) := by
  rw [memberKey] at h
  split at h
  next =>
    cases h
    exact .of_children rfl (List.forall_mem_singleton.2 (.leaf rfl))
  next =>
    obtain ⟨literal, -, h⟩ := bind_eq_ok_iff.1 h
    cases h
    exact nests_index (.of_children rfl (List.forall_mem_singleton.2 (.leaf rfl)))

/-- Keys behind one another nest no deeper: each object stands on the level of its access. -/
theorem nests_accesses (h : NestsExpr nested n) {object : Expr}
    (hobject : (Node.expr object).NestsIn (n + 1)) :
    (accesses nested object).Yields fun e => (Node.expr e).NestsIn (n + 1) := by
  intro ts
  induction object, ts using accesses.induct with
  | case1 object =>
    intro p hp
    rw [accesses] at hp
    cases hp
    exact hobject
  | case2 object t ts hopen hempty =>
    intro p hp
    rw [accesses.eq_def] at hp
    dsimp only at hp
    rw [if_pos hopen, if_pos hempty] at hp
    cases hp
  | case3 object t ts hopen hempty ih =>
    intro p hp
    rw [accesses.eq_def] at hp
    dsimp only at hp
    rw [if_pos hopen, if_neg hempty] at hp
    obtain ⟨key, hkey, hp⟩ := bind_eq_ok_iff.1 hp
    obtain ⟨close, hclose, hp⟩ := bind_eq_ok_iff.1 hp
    obtain ⟨more, hmore, hp⟩ := bind_eq_ok_iff.1 hp
    cases hp
    exact ih key close (nests_at hobject (nests_index (h _ _ hkey))) more hmore
  | case4 object t hopen =>
    intro p hp
    rw [accesses, if_neg hopen] at hp
    cases hp
    exact hobject
  | case5 object t hopen k ts hk ih =>
    intro p hp
    rw [accesses, if_neg hopen, if_pos hk] at hp
    obtain ⟨key, hkey, hp⟩ := bind_eq_ok_iff.1 hp
    obtain ⟨more, hmore, hp⟩ := bind_eq_ok_iff.1 hp
    cases hp
    exact ih key (nests_at hobject (nests_memberKey hkey)) more hmore
  | case6 object t hopen k ts hk =>
    intro p hp
    rw [accesses, if_neg hopen, if_neg hk] at hp
    cases hp
    exact hobject

/-- Keys and values of a table alike. -/
theorem nests_entry (h : NestsExpr nested n) : (entry nested).Yields fun entry =>
    (Node.expr entry.1).NestsIn n ∧ (Node.expr entry.2).NestsIn n := by
  intro ts p hp
  obtain ⟨key, hkey, hp⟩ := bind_eq_ok_iff.1 hp
  obtain ⟨colon, hcolon, hp⟩ := bind_eq_ok_iff.1 hp
  obtain ⟨value, hvalue, hp⟩ := bind_eq_ok_iff.1 hp
  cases hp
  refine ⟨?_, h _ _ hvalue⟩
  unfold entryKey at hkey
  split at hkey
  next =>
    split at hkey
    next => cases hkey; exact .leaf rfl
    next => exact h _ _ hkey
  next => exact h _ _ hkey

/-- What an atom holds in brackets was read a level deeper. Parentheses leave no node
behind, so what they hold has a level to spare. -/
theorem nests_atom (h : NestsExpr nested n) : NestsExpr (atom nested) (n + 1) := by
  intro ts p hp
  cases ts with
  | nil => cases hp
  | cons t ts =>
    rw [atom.eq_def] at hp
    dsimp only at hp
    have hnumber {literal : NumberLiteral} : (Node.expr (.number literal)).NestsIn (n + 1) :=
      .of_children rfl (List.forall_mem_singleton.2 (.leaf rfl))
    have hname {identifier : Identifier} : (Node.expr (.name identifier)).NestsIn (n + 1) :=
      .of_children rfl (List.forall_mem_singleton.2 (.leaf rfl))
    split at hp
    case h_4 => cases hp; exact .leaf rfl
    case h_5 => cases hp; exact .leaf rfl
    case h_6 =>
      cases ts with
      | nil => cases hp; exact hname
      | cons opener rest =>
        dsimp only at hp
        split at hp
        next =>
          obtain ⟨args, hargs, hp⟩ := bind_eq_ok_iff.1 hp
          obtain ⟨whole, hwhole, hp⟩ := bind_eq_ok_iff.1 hp
          cases hp
          have hargs := yields_listed h _ _ _ _ hargs
          have hcall : (Node.expr (.call t.identifier args.value.1
              (t.span.merge args.value.2.span))).NestsIn (n + 1) := by
            refine .of_edges (List.forall_mem_cons.2 ⟨NestsIn.leaf rfl, ?_⟩)
            exact List.forall_mem_map.2 fun e he => ⟨n, rfl, hargs e he⟩
          have hwhole := nests_accesses h hcall _ _ hwhole
          exact hwhole
        next => exact nests_accesses h hname _ _ hp
    case h_7 =>
      obtain ⟨inner, hinner, hp⟩ := bind_eq_ok_iff.1 hp
      obtain ⟨close, hclose, hp⟩ := bind_eq_ok_iff.1 hp
      cases hp
      exact (h _ _ hinner).mono (Nat.le_succ n)
    case h_8 =>
      obtain ⟨all, hall, hp⟩ := bind_eq_ok_iff.1 hp
      obtain ⟨whole, hwhole, hp⟩ := bind_eq_ok_iff.1 hp
      cases hp
      have hall := yields_listed h _ _ _ _ hall
      have harray : (Node.expr (.array all.value.1
          (t.span.merge all.value.2.span))).NestsIn (n + 1) :=
        .of_edges (List.forall_mem_map.2 fun e he => ⟨n, rfl, hall e he⟩)
      have hwhole := nests_accesses h harray _ _ hwhole
      exact hwhole
    case h_9 =>
      obtain ⟨all, hall, hp⟩ := bind_eq_ok_iff.1 hp
      obtain ⟨whole, hwhole, hp⟩ := bind_eq_ok_iff.1 hp
      cases hp
      have hall := yields_listed (nests_entry h) _ _ _ _ hall
      have htable : (Node.expr (.table all.value.1
          (t.span.merge all.value.2.span))).NestsIn (n + 1) := by
        refine .of_edges (List.forall_mem_flatMap.2 fun entry hentry => ?_)
        obtain ⟨hkey, hvalue⟩ := hall entry hentry
        refine List.forall_mem_cons.2 ⟨⟨n, rfl, hkey⟩, ?_⟩
        exact List.forall_mem_singleton.2 ⟨n, rfl, hvalue⟩
      have hwhole := nests_accesses h htable _ _ hwhole
      exact hwhole
    case h_10 => cases hp
    all_goals
      obtain ⟨literal, hliteral, hp⟩ := bind_eq_ok_iff.1 hp
      cases hp
      exact hnumber

/-- The operand of a sign stands one level deeper. -/
theorem nests_signed (hd : NestsExpr operand n) (h : NestsExpr nested n) :
    NestsExpr (signed operand nested) (n + 1) := by
  intro ts p hp
  cases ts with
  | nil => exact nests_atom h _ _ hp
  | cons t ts =>
    rw [signed] at hp
    split at hp
    next => exact nests_atom h _ _ hp
    next op hop =>
      obtain ⟨inner, hinner, hp⟩ := bind_eq_ok_iff.1 hp
      cases hp
      exact .of_edges (List.forall_mem_singleton.2 ⟨n, rfl, hd _ _ hinner⟩)

/-- **On every level expressions nest no deeper than there are levels left**, since on
the level below they do. -/
theorem nests_levels (n : Nat) : NestsExpr (expression n) n ∧ NestsExpr (Rule.operand n) n := by
  induction n with
  | zero =>
    rw [expression, Rule.operand]
    exact ⟨yields_tooDeep, yields_tooDeep⟩
  | succ n ih =>
    rw [expression, Rule.operand]
    have hsigned := nests_signed ih.2 ih.1
    exact ⟨nests_sum ih.1 hsigned, hsigned⟩

/-! ## Statements -/

/-- Reads statements that nest no deeper. -/
abbrev NestsStmt (rule : Rule Stmt) (levels : Nat) : Prop :=
  rule.Yields fun s => (Node.stmt s).NestsIn levels

/-- Reads blocks that have a place one level deeper. -/
abbrev NestsBlock (rule : Rule Block) (levels : Nat) : Prop :=
  rule.Yields fun b => (Node.block b).NestsBelow levels

variable {expr : Rule Expr} {block : Rule Block}

/-- A box takes no level of its own. -/
theorem nests_box (h : NestsExpr nested n) (word : Token) :
    (box nested word).Yields fun s => (Node.stmt s).NestsIn n := by
  intro ts p hp
  rw [box] at hp
  split at hp
  next =>
    obtain ⟨text, htext, hp⟩ := bind_eq_ok_iff.1 hp
    cases hp
    exact .of_children rfl (List.forall_mem_singleton.2 (h _ _ htext))
  next =>
    obtain ⟨args, hargs, hp⟩ := bind_eq_ok_iff.1 hp
    cases hp
    refine .of_children rfl fun c hc => ?_
    exact .leaf (BoxArguments.joins_ofSegments hargs c hc).children

theorem nests_globalAssignment (h : NestsExpr expr n) (word : Token) :
    NestsStmt (globalAssignment expr word) n := by
  intro ts p hp
  obtain ⟨name, hname, hp⟩ := bind_eq_ok_iff.1 hp
  obtain ⟨sign, hsign, hp⟩ := bind_eq_ok_iff.1 hp
  obtain ⟨value, hvalue, hp⟩ := bind_eq_ok_iff.1 hp
  cases hp
  refine .of_children rfl (List.forall_mem_cons.2 ⟨.leaf rfl, ?_⟩)
  exact List.forall_mem_singleton.2 (h _ _ hvalue)

theorem nests_returned (h : NestsExpr expr n) (word : Token) :
    (returned expr word).Yields fun s => (Node.stmt s).NestsIn n := by
  intro ts p hp
  rw [returned] at hp
  split at hp
  next => cases hp; exact .leaf rfl
  next =>
    obtain ⟨value, hvalue, hp⟩ := bind_eq_ok_iff.1 hp
    cases hp
    exact .of_children rfl (List.forall_mem_singleton.2 (h _ _ hvalue))

/-- An `if` nests no deeper than its parts, for a further `if` is read on the same
level. -/
theorem nests_branch (h : NestsExpr expr n) (hb : NestsBlock block n) (word : Token) :
    (branch expr block word).Yields fun s =>
      (Node.stmt s).NestsIn n ∧ (Block.mk [s] s.span).isElseIf = true := by
  intro ts
  induction word, ts using branch.induct with
  | case1 word ts ih =>
    intro p hp
    rw [branch.eq_def] at hp
    obtain ⟨test, htest, hp⟩ := bind_eq_ok_iff.1 hp
    obtain ⟨yes, hyes, hp⟩ := bind_eq_ok_iff.1 hp
    have htest := nests_condition h _ _ htest
    have hyes := hb _ _ hyes
    have hspan {no : Option Block} {span : Span} :
        (Block.mk [.branch test.value yes.value no span] span).isElseIf = true :=
      beq_self_eq_true span
    have helse {no : Block} {span : Span} (hno : (Node.block no).Fits n (.ofElse no)) :
        (Node.stmt (.branch test.value yes.value (some no) span)).NestsIn n := by
      refine .of_edges (List.forall_mem_cons.2 ⟨htest, List.forall_mem_cons.2 ⟨hyes, ?_⟩⟩)
      exact List.forall_mem_singleton.2 hno
    split at hp
    next =>
      cases hp
      refine ⟨.of_edges (List.forall_mem_cons.2 ⟨htest, ?_⟩), hspan⟩
      exact List.forall_mem_singleton.2 hyes
    next t ts' hlt hword =>
      dsimp only at hp
      split at hp
      next hif =>
        obtain ⟨more, hmore, hp⟩ := bind_eq_ok_iff.1 hp
        cases hp
        obtain ⟨hnests, helseIf⟩ := ih test yes t ts' hlt more hmore
        have hblock : (Node.block (.mk [more.value] more.value.span)).NestsIn n :=
          .of_children rfl (List.forall_mem_singleton.2 hnests)
        exact ⟨helse (hblock.fits_ofElse helseIf), hspan⟩
      next =>
        obtain ⟨no, hno, hp⟩ := bind_eq_ok_iff.1 hp
        cases hp
        exact ⟨helse (hb _ _ hno).fits_ofElse, hspan⟩
    next =>
      obtain ⟨no, hno, hp⟩ := bind_eq_ok_iff.1 hp
      cases hp
      exact ⟨helse (hb _ _ hno).fits_ofElse, hspan⟩

theorem nests_bare (h : NestsExpr expr n) : NestsStmt (bare expr) n := by
  intro ts p hp
  obtain ⟨target, htarget, hp⟩ := bind_eq_ok_iff.1 hp
  have htarget := h _ _ htarget
  split at hp
  next =>
    split at hp
    next object key span haccess =>
      obtain ⟨value, hvalue, hp⟩ := bind_eq_ok_iff.1 hp
      cases hp
      rw [haccess] at htarget
      have hobject := htarget.part (c := .expr object) List.mem_cons_self
      have hkey := htarget.part (c := .key key) (List.mem_cons_of_mem _ List.mem_cons_self)
      refine .of_children rfl (List.forall_mem_cons.2 ⟨hobject, List.forall_mem_cons.2 ⟨hkey, ?_⟩⟩)
      exact List.forall_mem_singleton.2 (h _ _ hvalue)
    next => cases hp
  next =>
    cases hp
    exact .of_children rfl (List.forall_mem_singleton.2 htarget)

/-- The body of a function that is declared is a block, a level deeper; all else stands on
the level of the statement. -/
theorem nests_named (h : NestsExpr expr n) (hb : NestsBlock block n) (name : Token)
    (ts : List Token) (p : Parsed Stmt (name :: ts).length)
    (hp : named expr block name ts = .ok p) : (Node.stmt p.value).NestsIn n := by
  unfold named at hp
  split at hp
  next => exact nests_bare h _ _ hp
  next t rest =>
    split at hp
    next =>
      obtain ⟨value, hvalue, hp⟩ := bind_eq_ok_iff.1 hp
      cases hp
      refine .of_children rfl (List.forall_mem_cons.2 ⟨.leaf rfl, ?_⟩)
      exact List.forall_mem_singleton.2 (h _ _ hvalue)
    split at hp
    next =>
      obtain ⟨text, htext, hp⟩ := bind_eq_ok_iff.1 hp
      cases hp
      refine .of_children rfl (List.forall_mem_cons.2 ⟨.leaf rfl, ?_⟩)
      exact List.forall_mem_singleton.2 (.leaf rfl)
    split at hp
    next =>
      obtain ⟨params, hparams, hp⟩ := bind_eq_ok_iff.1 hp
      split at hp
      next =>
        obtain ⟨body, hbody, hp⟩ := bind_eq_ok_iff.1 hp
        cases hp
        have hparams := yields_listed h _ _ _ _ hparams
        refine .of_edges (List.forall_mem_cons.2 ⟨NestsIn.leaf rfl, ?_⟩)
        refine List.forall_mem_append.2 ⟨List.forall_mem_map.2 fun e he => hparams e he, ?_⟩
        exact List.forall_mem_singleton.2 (hb _ _ hbody)
      next => exact nests_bare h _ _ hp
    next => exact nests_bare h _ _ hp

/-- Whatever a statement begins with, what it holds nests no deeper than there are levels. -/
theorem nests_statement (h : NestsExpr expr n) (hb : NestsBlock block n) :
    (statement expr block).Yields fun s => ∀ s' ∈ s, (Node.stmt s').NestsIn n := by
  intro ts p hp
  cases ts with
  | nil =>
    obtain ⟨s, hs, hp⟩ := bind_eq_ok_iff.1 hp
    cases hp
    rintro s' ⟨⟩
    exact nests_bare h _ _ hs
  | cons t ts =>
    rw [statement.eq_def] at hp
    dsimp only at hp
    split at hp <;> obtain ⟨s, hs, hp⟩ := bind_eq_ok_iff.1 hp <;> cases hp
    next => exact fun s' hs' => absurd hs' (Option.not_mem_none s')
    all_goals rintro s' ⟨⟩
    next =>
      have hs := nests_globalAssignment h t _ _ hs
      exact hs
    next =>
      have hs := nests_returned h t _ _ hs
      exact hs
    next =>
      have hs := nests_branch h hb t _ _ hs
      exact hs.1
    next =>
      have hs := nests_box h t _ _ hs
      exact hs
    next =>
      have hs := nests_named h hb t _ _ hs
      exact hs
    next =>
      have hs := nests_bare h _ _ hs
      exact hs

/-! ## Rows of statements and blocks -/

theorem nests_statements {statement : Rule (Option Stmt)}
    (h : statement.Yields fun s => ∀ s' ∈ s, (Node.stmt s').NestsIn n) (inBlock : Bool) :
    (statements statement inBlock).Yields fun ss => ∀ s ∈ ss, (Node.stmt s).NestsIn n := by
  intro ts
  induction ts using statements.induct inBlock with
  | case1 ts hend =>
    intro p hp
    rw [statements, if_pos hend] at hp
    cases hp
    exact fun s hs => absurd hs List.not_mem_nil
  | case2 ts hend ih =>
    intro p hp
    rw [statements, if_neg hend] at hp
    obtain ⟨first, hfirst, hp⟩ := bind_eq_ok_iff.1 hp
    obtain ⟨stop, hstop, hp⟩ := bind_eq_ok_iff.1 hp
    obtain ⟨more, hmore, hp⟩ := bind_eq_ok_iff.1 hp
    cases hp
    refine List.forall_mem_append.2 ⟨fun s hs => ?_, ih first stop more hmore⟩
    exact h _ _ hfirst s (Option.mem_toList.1 hs)

/-- Braces hold statements of the same level: the level was taken where the block was
entered. -/
theorem nests_braced {statement : Rule (Option Stmt)}
    (h : statement.Yields fun s => ∀ s' ∈ s, (Node.stmt s').NestsIn n) :
    (braced statement).Yields fun b => (Node.block b).NestsIn n := by
  intro ts p hp
  obtain ⟨opener, hopen, hp⟩ := bind_eq_ok_iff.1 hp
  obtain ⟨body, hbody, hp⟩ := bind_eq_ok_iff.1 hp
  obtain ⟨closer, hclose, hp⟩ := bind_eq_ok_iff.1 hp
  cases hp
  refine .of_children rfl (List.forall_mem_map.2 ?_)
  exact nests_statements h true _ _ hbody

/-- A block is read one level deeper. -/
theorem nests_block (n : Nat) : NestsBlock (Rule.block n) n := by
  induction n with
  | zero =>
    rw [Rule.block]
    exact yields_tooDeep
  | succ n ih =>
    rw [Rule.block]
    intro ts p hp
    exact ⟨n, rfl, nests_braced (nests_statement (nests_levels n).1 ih) _ _ hp⟩

/-- **The statements of a script nest no deeper than there are levels at all.** -/
theorem nests_script : script.Yields fun ss => ∀ s ∈ ss, (Node.stmt s).NestsIn maxNesting :=
  nests_statements (nests_statement (nests_levels _).1 (nests_block _)) false

end Rule

/-! ## Whole programs -/

namespace Source

open Node

/-- **No way down goes through more levels than there are.** In a program that was read,
every way down from a statement leads at most `maxNesting` times a level deeper. And to a
block that is written in braces every edge leads a level deeper, also from an `else`. -/
theorem levels_le {source : Source} {program : Program} (h : source.program = .ok program)
    {s : Stmt} (hs : s ∈ program.statements) {way : List Edge} {m : Node}
    (hway : (stmt s).Path way m) :
    way.count .inward ≤ maxNesting ∧
      ∀ tokens ts b, tokenize source.text = .ok tokens → ts.Sublist tokens →
        Phrase.Spelled (.block b) ts → Edge.ofElse b = .inward := by
  constructor
  · obtain ⟨tokens, -, hprogram⟩ := Source.exists_tokens_of_program h
    rw [Program.ofTokens] at hprogram
    split at hprogram
    next parsed hparsed =>
      cases hprogram
      exact Rule.nests_script _ _ hparsed s hs way m hway
    next => cases hprogram
  · intro tokens ts b ht hsub hspelled
    rw [Edge.ofElse, hspelled.isElseIf_eq_false ht hsub]
    rfl

/-- A way into a function, past an `else if` to its block, and through a call, a table, an
arm of a choice and an array to what a sign stands in front of. -/
theorem levels_le_functionToSign :
    let source : Source :=
      ⟨"", "f(n) \x7b\nif n \x7b\x7d else if n \x7b g(\x7ba: n ? 0 : [-n]\x7d) \x7d\n\x7d"⟩
    let way : List Edge :=
      [.inward, .along, .onward, .along, .inward, .along, .along, .inward, .inward, .inward,
        .inward, .inward]
    ∃ program s m, source.program = .ok program ∧ s ∈ program.statements ∧
      (stmt s).Path way m ∧ way.count .inward = 7 ∧ way.count .inward ≤ maxNesting := by
  intro source way
  have hall : source.program.toOption.map (fun p => p.statements.any fun s => leads way (stmt s)) =
      some true := by decide +kernel
  cases hp : source.program with
  | error e => rw [hp] at hall; cases hall
  | ok program =>
    rw [hp] at hall
    obtain ⟨s, hs, hleads⟩ := List.any_eq_true.1 (Option.some.inj hall)
    obtain ⟨m, hway⟩ := leads_iff.1 hleads
    exact ⟨program, s, m, rfl, hs, hway, rfl, (levels_le hp hs hway).1⟩

/-- With the blocks that are made for `else if`, a way down may lead through more levels
than there are: a hundred `else if` and the block of the last, which alone was counted. -/
theorem elseIfs_exceed_maxNesting : ∃ program s way m,
    (⟨"", elseIfs 100⟩ : Source).program = .ok program ∧ s ∈ program.statements ∧
      (stmt s).Path way m ∧ maxNesting < way.countP (· != .along) ∧ way.count .inward = 1 := by
  obtain ⟨s, m, hprogram, hway⟩ := ElseIfs.exists_program 100 ""
  obtain ⟨hall, hinward⟩ := ElseIfs.count_way 100
  refine ⟨_, s, _, m, hprogram, List.mem_singleton_self s, hway, ?_, hinward⟩
  rw [hall]
  exact Nat.lt_succ_self 100

end Source

end HotkeyScript
