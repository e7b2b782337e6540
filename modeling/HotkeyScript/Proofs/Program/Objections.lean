import HotkeyScript.Program.Statement
/-!
# Programs — what is objected to is there

A rule that fails points at a token that it was given, or at their end, and where it
objects to a number that number is the token (`Rule.Objects`). There is one lemma for each
rule, each citing those of the rules that it calls, so a mistake in the grammar of a script
is noticed at one of the script's tokens (`Program.objects_ofTokens`).
-/

namespace HotkeyScript

variable {T : Token → Prop}

/-! ## Failures and answers -/

/-- **A failure is noticed at a token**, one with the property, or at the end of what was
read. A number that is objected to is that token. -/
structure Failure.NoticedAt (T : Token → Prop) (f : Failure) : Prop where
  token : ∀ t ∈ f.token?, T t
  number : ∀ lexeme, f.mistake = .numberRange lexeme →
    ∃ t ∈ f.token?, t.kind.isNumber = true ∧ t.lexeme = lexeme

/-- Whether a mistake is about the range of a number. -/
def Mistake.isRange : Mistake → Bool
  | numberRange _ => true
  | _ => false

theorem Failure.noticedAt_of_not_isRange {f : Failure} (h : f.mistake.isRange = false)
    (ht : ∀ t ∈ f.token?, T t) : f.NoticedAt T :=
  ⟨ht, fun lexeme he => by rw [he] at h; cases h⟩

/-- A good value, or a failure that is noticed at a token. -/
inductive Answered (T : Token → Prop) {α : Type} (V : α → Prop) : Except Failure α → Prop where
  | ok {a : α} : V a → Answered T V (.ok a)
  | error {f : Failure} : f.NoticedAt T → Answered T V (.error f)

/-- Tokens with a property are left behind what was read. -/
def Parsed.Leaves (T : Token → Prop) {α : Type} {bound : Nat} (p : Parsed α bound) : Prop :=
  ∀ t ∈ p.rest, T t

/-- A rule that reads tokens with a property leaves such tokens or fails at one. -/
def Rule.Objects (T : Token → Prop) {α : Type} {bound : List Token → Nat}
    (rule : (ts : List Token) → Except Failure (Parsed α (bound ts))) : Prop :=
  ∀ ts, (∀ t ∈ ts, T t) → Answered T (Parsed.Leaves T) (rule ts)

namespace Answered

variable {α β : Type} {V : α → Prop} {W : β → Prop}

theorem bind {x : Except Failure α} {k : α → Except Failure β} (hx : Answered T V x)
    (hk : ∀ a, V a → Answered T W (k a)) : Answered T W (x >>= k) := by
  cases hx with
  | ok ha => exact hk _ ha
  | error hf => exact .error hf

/-- A mistake noticed at what comes next. -/
theorem here {ts : List Token} (h : ∀ t ∈ ts, T t) {mistake : Mistake}
    (hm : mistake.isRange = false) : Answered T V (.error (mistake.here ts)) :=
  .error (Failure.noticedAt_of_not_isRange hm fun t ht => h t (List.mem_of_head? ht))

/-- What may be missing is answered for if it is there. -/
theorem mapM {o : Option α} {f : α → Except Failure β} (h : ∀ a ∈ o, Answered T W (f a)) :
    Answered T (fun _ => True) (o.mapM f) := by
  cases o with
  | none => exact .ok trivial
  | some a => exact .bind (h a rfl) fun _ _ => .ok trivial

end Answered

/-- A number token that stands for no number is objected to itself. -/
theorem Token.answered_number? {t : Token} (h : T t) (hk : t.kind.isNumber = true) :
    Answered T (fun _ => True) t.number? := by
  unfold Token.number?
  split
  · exact .ok trivial
  · refine .error ⟨fun u hu => by cases hu; exact h, fun lexeme he => ⟨t, rfl, hk, ?_⟩⟩
    exact Mistake.numberRange.inj he

namespace Rule

variable {α β : Type} {nested deeper operand : Rule Expr}

/-! ## Tokens and rows -/

theorem forall_mem_skipLineEnds {ts : List Token} (h : ∀ t ∈ ts, T t) :
    ∀ t ∈ skipLineEnds ts, T t :=
  fun t ht => h t ((List.dropWhile_sublist _).subset ht)

theorem forall_mem_tail {ts : List Token} (h : ∀ t ∈ ts, T t) : ∀ t ∈ ts.tail, T t :=
  fun t ht => h t (List.mem_of_mem_tail ht)

/-- A token of another kind is the one that is noticed. -/
theorem objects_expect (kind : TokenKind) {mistake : Mistake} (hm : mistake.isRange = false) :
    Objects T (expect kind mistake) := by
  intro ts h
  cases ts with
  | nil => exact .here h hm
  | cons t ts =>
    rw [expect]
    split
    · exact .ok (List.forall_mem_cons.1 h).2
    · exact .here h hm

theorem objects_tooDeep : Objects T (tooDeep (α := α)) := fun _ h => .here h rfl

/-- A separator and an item behind it, as long as there is one. -/
theorem objects_chain {sep? : TokenKind → Option β} {join : β → α → α → α} {item : Rule α}
    (hitem : Objects T item) (left : α) : Objects T (chain sep? join item left) := by
  intro ts h
  induction left, ts using chain.induct sep? join with
  | case1 left =>
    rw [chain]
    exact .ok h
  | case2 left t ts hs =>
    rw [chain, hs]
    exact .ok h
  | case3 left t ts s hs ih =>
    rw [chain, hs]
    refine .bind (hitem _ (List.forall_mem_cons.1 h).2) fun right hright => ?_
    exact .bind (ih right hright) fun more hmore => .ok hmore

/-- Items with commas between them, up to the token that closes them. -/
theorem objects_items {item : Rule α} (hitem : Objects T item) (close : TokenKind)
    {mistake : Mistake} (hm : mistake.isRange = false) : Objects T (items item close mistake) := by
  intro ts h
  induction ts using items.induct with
  | case1 ts ih =>
    rw [items]
    refine .bind (hitem _ h) fun first hfirst => ?_
    split
    · exact .bind (ih first (forall_mem_tail hfirst)) fun more hmore => .ok hmore
    · exact .bind (objects_expect close hm _ hfirst) fun last hlast => .ok hlast

/-- Items, or nothing but the token that closes them. -/
theorem objects_listed {item : Rule α} (hitem : Objects T item) (close : TokenKind)
    {mistake : Mistake} (hm : mistake.isRange = false) : Objects T (listed item close mistake) := by
  intro ts h
  cases ts with
  | nil => exact objects_items hitem close hm _ h
  | cons t ts =>
    rw [listed]
    split
    · exact .ok (List.forall_mem_cons.1 h).2
    · exact objects_items hitem close hm _ h

/-! ## Expressions -/

/-- Operands of the tighter operators. -/
theorem objects_product (h : Objects T operand) : Objects T (product operand) := by
  intro ts hts
  refine .bind (h _ hts) fun first hfirst => ?_
  exact .bind (objects_chain h _ _ hfirst) fun all hall => .ok hall

theorem objects_condition (h : Objects T nested) : Objects T (condition nested) := by
  intro ts hts
  refine .bind (h _ hts) fun first hfirst => ?_
  exact .bind (objects_chain h _ _ hfirst) fun all hall => .ok hall

/-- The arms of a choice, if a question mark comes next. -/
theorem objects_arms (h : Objects T nested) (e : Expr) : Objects T (arms nested e) := by
  intro ts hts
  cases ts with
  | nil => exact .ok hts
  | cons t ts =>
    rw [arms]
    split
    · refine .bind (h _ (List.forall_mem_cons.1 hts).2) fun yes hyes => ?_
      refine .bind (objects_expect _ rfl _ hyes) fun colon hcolon => ?_
      exact .bind (h _ hcolon) fun no hno => .ok hno
    · exact .ok hts

theorem objects_sum (hn : Objects T nested) (h : Objects T operand) :
    Objects T (sum nested operand) := by
  intro ts hts
  have hp := objects_product h
  refine .bind (hp _ hts) fun first hfirst => ?_
  refine .bind (objects_chain hp _ _ hfirst) fun all hall => ?_
  exact .bind (objects_arms hn _ _ hall) fun whole hwhole => .ok hwhole

/-! ## Keys and atoms -/

/-- What stands behind an attached point is a name or a number. -/
theorem answered_memberKey {d t : Token} (h : T t) (hk : isMember d t = true) :
    Answered T (fun _ => True) (memberKey t) := by
  unfold memberKey
  split
  · exact .ok trivial
  next hname =>
    have hnumber : t.kind.isNumber = true := by
      simp only [isMember, Bool.and_eq_true, Bool.or_eq_true, beq_iff_eq] at hk
      obtain ⟨-, (hk | hk) | hk⟩ := hk
      · exact (hname hk).elim
      · rw [hk]; rfl
      · rw [hk]; rfl
    exact .bind (Token.answered_number? h hnumber) fun _ _ => .ok trivial

/-- Brackets and members that are attached to what was read. In empty brackets the closing
one is noticed. -/
theorem objects_accesses (h : Objects T nested) (e : Expr) : Objects T (accesses nested e) := by
  intro ts hts
  induction e, ts using accesses.induct with
  | case1 e =>
    rw [accesses]
    exact .ok hts
  | case2 e t ts hopen hempty =>
    rw [accesses.eq_def]
    dsimp only
    rw [if_pos hopen, if_pos hempty]
    exact .here (List.forall_mem_cons.1 hts).2 rfl
  | case3 e t ts hopen hempty ih =>
    rw [accesses.eq_def]
    dsimp only
    rw [if_pos hopen, if_neg hempty]
    refine .bind (h _ (List.forall_mem_cons.1 hts).2) fun key hkey => ?_
    refine .bind (objects_expect _ rfl _ hkey) fun close hclose => ?_
    exact .bind (ih key close hclose) fun more hmore => .ok hmore
  | case4 e t hopen =>
    rw [accesses, if_neg hopen]
    exact .ok hts
  | case5 e t hopen k ts hk ih =>
    rw [accesses, if_neg hopen, if_pos hk]
    obtain ⟨hkey, hrest⟩ := List.forall_mem_cons.1 (List.forall_mem_cons.1 hts).2
    refine .bind (answered_memberKey hkey hk) fun key _ => ?_
    exact .bind (ih key hrest) fun more hmore => .ok hmore
  | case6 e t hopen k ts hk =>
    rw [accesses, if_neg hopen, if_neg hk]
    exact .ok hts

/-- A name in front of a colon is a key by itself, and what else comes is an expression. -/
theorem objects_entryKey (h : Objects T nested) : Objects T (entryKey nested) := by
  intro ts hts
  unfold entryKey
  split
  · split
    · exact .ok (List.forall_mem_cons.1 hts).2
    · exact h _ hts
  · exact h _ hts

theorem objects_entry (h : Objects T nested) : Objects T (entry nested) := by
  intro ts hts
  refine .bind (objects_entryKey h _ hts) fun key hkey => ?_
  refine .bind (objects_expect _ rfl _ hkey) fun colon hcolon => ?_
  exact .bind (h _ hcolon) fun value hvalue => .ok hvalue

/-- Among the atoms only a number can be objected to for its range. -/
theorem objects_atom (h : Objects T nested) : Objects T (atom nested) := by
  intro ts hts
  cases ts with
  | nil => exact .here hts rfl
  | cons t ts =>
    obtain ⟨ht, hrest⟩ := List.forall_mem_cons.1 hts
    have hnumber (hk : t.kind.isNumber = true) : Answered T (Parsed.Leaves T) (do
        let literal ← t.number?
        return Parsed.one (Expr.number literal) t ts) :=
      .bind (Token.answered_number? ht hk) fun _ _ => .ok hrest
    rw [atom.eq_def]
    dsimp only
    split
    case h_1 hk => exact hnumber (by rw [hk]; rfl)
    case h_2 hk => exact hnumber (by rw [hk]; rfl)
    case h_3 hk => exact hnumber (by rw [hk]; rfl)
    case h_4 => exact .ok hrest
    case h_5 => exact .ok hrest
    case h_6 =>
      cases ts with
      | nil => exact .ok hrest
      | cons p ts =>
        dsimp only
        split
        · refine .bind (objects_listed h _ rfl _ (List.forall_mem_cons.1 hrest).2)
            fun args hargs => ?_
          exact .bind (objects_accesses h _ _ hargs) fun whole hwhole => .ok hwhole
        · exact objects_accesses h _ _ hrest
    case h_7 =>
      refine .bind (h _ hrest) fun inner hinner => ?_
      exact .bind (objects_expect _ rfl _ hinner) fun close hclose => .ok hclose
    case h_8 =>
      refine .bind (objects_listed h _ rfl _ hrest) fun all hall => ?_
      exact .bind (objects_accesses h _ _ hall) fun whole hwhole => .ok hwhole
    case h_9 =>
      refine .bind (objects_listed (objects_entry h) _ rfl _ hrest) fun all hall => ?_
      exact .bind (objects_accesses h _ _ hall) fun whole hwhole => .ok hwhole
    case h_10 => exact .here hts rfl

/-! ## Levels -/

/-- Behind a sign the operand is a level deeper. -/
theorem objects_signed (hd : Objects T deeper) (h : Objects T nested) :
    Objects T (signed deeper nested) := by
  intro ts hts
  cases ts with
  | nil => exact objects_atom h _ hts
  | cons t ts =>
    rw [signed]
    split
    · exact objects_atom h _ hts
    · exact .bind (hd _ (List.forall_mem_cons.1 hts).2) fun e he => .ok he

/-- Each level is made of the one below, and the lowest objects to whatever comes. -/
theorem objects_levels (n : Nat) : Objects T (expression n) ∧ Objects T (Rule.operand n) := by
  induction n with
  | zero =>
    rw [expression, Rule.operand]
    exact ⟨objects_tooDeep, objects_tooDeep⟩
  | succ n ih =>
    rw [expression, Rule.operand]
    have hsigned := objects_signed ih.2 ih.1
    exact ⟨objects_sum ih.1 hsigned, hsigned⟩

theorem objects_expression (n : Nat) : Objects T (expression n) := (objects_levels n).1

end Rule

/-! ## Message boxes -/

namespace BoxArguments

variable {ts args : List Token}

theorem forall_mem_line (h : ∀ t ∈ ts, T t) : ∀ t ∈ line ts, T t := by
  unfold line
  split
  · exact Rule.forall_mem_tail h
  · exact h

/-- The tokens of a line are parted into arguments and the rest, and none is added. -/
theorem forall_mem_segments (h : ∀ t ∈ ts, T t) :
    (∀ t ∈ (segments ts).1, T t) ∧ ∀ t ∈ (segments ts).2, T t := by
  have hnone : ∀ t ∈ ([] : List Token), T t := List.forall_mem_nil T
  fun_induction segments ts with
  | case1 => exact ⟨h, h⟩
  | case2 => exact ⟨h, hnone⟩
  | case3 => exact ⟨hnone, h⟩
  | case4 t c ts _ _ ih =>
    obtain ⟨ht, hrest⟩ := List.forall_mem_cons.1 h
    obtain ⟨hargs, hrest⟩ := ih (List.forall_mem_cons.1 hrest).2
    exact ⟨List.forall_mem_cons.2 ⟨ht, hargs⟩, hrest⟩
  | case5 t c ts =>
    obtain ⟨ht, hrest⟩ := List.forall_mem_cons.1 h
    exact ⟨List.forall_mem_singleton.2 ht, hrest⟩
  | case6 => exact ⟨hnone, h⟩

/-- What is noticed at an argument, which is no number token. -/
theorem answered_at {α : Type} {V : α → Prop} {t : Token} (h : T t) {mistake : Mistake}
    (hm : mistake.isRange = false) : Answered T V (.error ⟨mistake, some t⟩) := by
  refine .error (Failure.noticedAt_of_not_isRange hm fun u hu => ?_)
  cases hu
  exact h

/-- A raw argument that is no number is a mistake about the box and not about a range. -/
theorem answered_asNumber (which : BoxNumber) {t : Token} (h : T t) :
    Answered T (fun _ => True) (asNumber which t) := by
  unfold asNumber
  split
  case h_4 => exact answered_at h rfl
  all_goals exact .ok trivial

/-- One argument too many is noticed, and so is one that is no number in the place of one. -/
theorem answered_ofSegments (h : ∀ t ∈ args, T t) :
    Answered T (fun _ => True) (ofSegments args) := by
  have hgiven (which : BoxNumber) (i : Nat) :
      Answered T (fun _ => True) ((given? args i).mapM (asNumber which)) := by
    refine .mapM fun t ht => answered_asNumber which (h t ?_)
    exact List.mem_of_getElem? (Option.filter_eq_some_iff.1 ht).1
  unfold ofSegments
  split
  next => exact .ok trivial
  next first rest =>
    split
    next =>
      unfold positional
      split
      next extra hextra => exact answered_at (h extra (List.mem_of_getElem? hextra)) rfl
      next =>
        refine .bind (hgiven .options 0) fun _ _ => ?_
        exact .bind (hgiven .timeout 3) fun _ _ => .ok trivial
    next => exact .ok trivial

end BoxArguments

namespace Rule

variable {α : Type} {expr nested : Rule Expr} {block : Rule Block}

/-- A box has an expression behind a percent sign, or raw arguments. -/
theorem objects_box (h : Objects T nested) (start : Token) : Objects T (box nested start) := by
  intro ts hts
  rw [box]
  split
  · exact .bind (h _ (forall_mem_tail hts)) fun text htext => .ok htext
  · obtain ⟨hargs, hrest⟩ :=
      BoxArguments.forall_mem_segments (BoxArguments.forall_mem_line hts)
    exact .bind (BoxArguments.answered_ofSegments hargs) fun _ _ => .ok hrest

/-! ## Statements -/

/-- What stands behind a statement on its line is noticed. -/
theorem objects_endOfStatement (inBlock : Bool) : Objects T (endOfStatement inBlock) := by
  intro ts hts
  cases ts with
  | nil => exact .ok hts
  | cons t ts =>
    rw [endOfStatement]
    split
    · exact .ok (List.forall_mem_cons.1 hts).2
    · split
      · exact .ok hts
      · exact .here hts rfl

/-- Statements with the ends of their lines, up to the end of the block or of the script. -/
theorem objects_statements {statement : Rule (Option Stmt)} (h : Objects T statement)
    (inBlock : Bool) : Objects T (statements statement inBlock) := by
  intro ts hts
  induction ts using statements.induct inBlock with
  | case1 ts hend =>
    rw [statements, if_pos hend]
    exact .ok (forall_mem_skipLineEnds hts)
  | case2 ts hend ih =>
    rw [statements, if_neg hend]
    refine .bind (h _ (forall_mem_skipLineEnds hts)) fun first hfirst => ?_
    refine .bind (objects_endOfStatement inBlock _ hfirst) fun stop hstop => ?_
    exact .bind (ih first stop hstop) fun more hmore => .ok hmore

theorem objects_braced {statement : Rule (Option Stmt)} (h : Objects T statement) :
    Objects T (braced statement) := by
  intro ts hts
  refine .bind (objects_expect _ rfl _ hts) fun start hstart => ?_
  refine .bind (objects_statements h true _ hstart) fun body hbody => ?_
  exact .bind (objects_expect _ rfl _ hbody) fun stop hstop => .ok hstop

theorem objects_globalAssignment (h : Objects T expr) (start : Token) :
    Objects T (globalAssignment expr start) := by
  intro ts hts
  refine .bind (objects_expect _ rfl _ hts) fun name hname => ?_
  refine .bind (objects_expect _ rfl _ hname) fun sign hsign => ?_
  exact .bind (h _ hsign) fun value hvalue => .ok hvalue

/-- A value stands behind the word only if the line does not end. -/
theorem objects_returned (h : Objects T expr) (start : Token) :
    Objects T (returned expr start) := by
  intro ts hts
  rw [returned]
  split
  · exact .ok hts
  · exact .bind (h _ hts) fun value hvalue => .ok hvalue

/-- Behind the word `else` stands what stood there before. -/
theorem forall_mem_elseWord? {ts : List Token} (h : ∀ t ∈ ts, T t) :
    ∀ word ∈ elseWord? ts, ∀ t ∈ word.rest, T t := by
  intro word hword
  unfold elseWord? at hword
  split at hword
  next t rest hts =>
    have hrest := forall_mem_skipLineEnds h
    rw [hts] at hrest
    split at hword <;> cases hword
    exact forall_mem_skipLineEnds (List.forall_mem_cons.1 hrest).2
  next => cases hword

/-- An `if` with what is behind its `else`, which may be a further `if`: the induction is
along the chain of them. -/
theorem objects_branch (h : Objects T expr) (hb : Objects T block) (start : Token) :
    Objects T (branch expr block start) := by
  intro ts hts
  induction start, ts using branch.induct with
  | case1 start ts ih =>
    rw [branch.eq_def]
    refine .bind (objects_condition h _ hts) fun test htest => ?_
    refine .bind (hb _ (forall_mem_skipLineEnds htest)) fun yes hyes => ?_
    have helse := forall_mem_elseWord? hyes
    generalize elseWord? yes.rest = word at helse
    cases word with
    | none => exact .ok hyes
    | some word =>
      have hword := helse word rfl
      obtain ⟨_, rest, hlt⟩ := word
      cases rest with
      | nil => exact .bind (hb _ hword) fun no hno => .ok hno
      | cons t ts' =>
        dsimp only
        split
        · exact .bind (ih test yes t ts' hlt (List.forall_mem_cons.1 hword).2)
            fun more hmore => .ok hmore
        · exact .bind (hb _ hword) fun no hno => .ok hno

/-- A sign of assignment behind what is no access is noticed itself. -/
theorem objects_bare (h : Objects T expr) : Objects T (bare expr) := by
  intro ts hts
  refine .bind (h _ hts) fun target htarget => ?_
  split
  · split
    · exact .bind (h _ (forall_mem_tail htarget)) fun value hvalue => .ok hvalue
    · exact .here htarget rfl
  · exact .ok htarget

/-- Behind a name comes an assignment, a function that is declared, or an expression that
the name begins; in the last case the tokens are read once more. -/
theorem answered_named (h : Objects T expr) (hb : Objects T block) {name : Token}
    {ts : List Token} (hts : ∀ t ∈ name :: ts, T t) :
    Answered T (Parsed.Leaves T) (named expr block name ts) := by
  unfold named
  split
  next => exact objects_bare h _ hts
  next t rest =>
    have hrest := (List.forall_mem_cons.1 (List.forall_mem_cons.1 hts).2).2
    split
    · exact .bind (h _ hrest) fun value hvalue => .ok hvalue
    split
    · exact .bind (objects_expect _ rfl _ hrest) fun text htext => .ok htext
    split
    · refine .bind (objects_listed h _ rfl _ hrest) fun params hparams => ?_
      split
      · exact .bind (hb _ (forall_mem_skipLineEnds hparams)) fun body hbody => .ok hbody
      · exact objects_bare h _ hts
    · exact objects_bare h _ hts

/-! ## All together -/

/-- The kind of the first token decides which rule reads a statement. -/
theorem objects_statement (h : Objects T expr) (hb : Objects T block) :
    Objects T (statement expr block) := by
  intro ts hts
  cases ts with
  | nil => exact .bind (objects_bare h _ hts) fun s hs => .ok hs
  | cons t ts =>
    have hrest := (List.forall_mem_cons.1 hts).2
    rw [statement]
    split
    case h_1 => exact .bind (objects_expect _ rfl _ hrest) fun close hclose => .ok hclose
    case h_2 => exact .bind (objects_globalAssignment h t _ hrest) fun s hs => .ok hs
    case h_3 => exact .bind (objects_returned h t _ hrest) fun s hs => .ok hs
    case h_4 => exact .bind (objects_branch h hb t _ hrest) fun s hs => .ok hs
    case h_5 => exact .bind (objects_box h t _ hrest) fun s hs => .ok hs
    case h_6 => exact .bind (answered_named h hb hts) fun s hs => .ok hs
    case h_7 => exact .bind (objects_bare h _ hts) fun s hs => .ok hs

/-- Blocks are nested as deep as there are levels left. -/
theorem objects_block (n : Nat) : Objects T (Rule.block n) := by
  induction n with
  | zero => rw [Rule.block]; exact objects_tooDeep
  | succ n ih =>
    rw [Rule.block]
    exact objects_braced (objects_statement (objects_expression n) ih)

theorem objects_script : Objects T script :=
  objects_statements (objects_statement (objects_expression _) (objects_block _)) false

end Rule

/-! ## Programs -/

/-- **A mistake in a script's grammar is noticed at one of its tokens**, and a number that
is out of range is one of them. -/
theorem Program.objects_ofTokens {tokens : List Token} {e : GrammarError} (hne : tokens ≠ [])
    (h : Program.ofTokens tokens = .error e) :
    ∃ t ∈ tokens, e.span = t.span ∧ e.atLineEnd = t.kind.isLineEnd ∧
      ∀ lexeme, e.mistake = .numberRange lexeme → t.kind.isNumber = true ∧ t.lexeme = lexeme := by
  have hsub : (tokens.drop 1).dropLast ⊆ tokens :=
    ((List.dropLast_sublist _).trans (List.drop_sublist 1 tokens)).subset
  have hscript := Rule.objects_script (T := (· ∈ tokens)) _ hsub
  unfold Program.ofTokens at h
  split at h
  next => cases h
  next failure hfailure =>
    rw [hfailure] at hscript
    cases hscript with
    | error hf =>
      cases h
      cases ht : failure.token? with
      | some t =>
        refine ⟨t, hf.token t ht, rfl, rfl, fun lexeme he => ?_⟩
        obtain ⟨u, hu, hnumber⟩ := hf.number lexeme he
        rw [ht] at hu
        cases hu
        exact hnumber
      | none =>
        refine ⟨tokens.getLast hne, List.getLast_mem hne, ?_, ?_, fun lexeme he => ?_⟩
        · rw [List.getLast?_eq_some_getLast hne]
          rfl
        · rw [List.getLast?_eq_some_getLast hne]
          rfl
        · obtain ⟨u, hu, -⟩ := hf.number lexeme he
          rw [ht] at hu
          cases hu

end HotkeyScript
