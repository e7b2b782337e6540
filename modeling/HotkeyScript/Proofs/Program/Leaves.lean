import HotkeyScript.Proofs.Program.Reading
import HotkeyScript.Proofs.Token.Cover
import Mathlib.Data.List.Forall2
/-!
# Programs — no content is lost

The leaves of a program are its names, numbers, texts and booleans, in the order
in which they stand in its nodes. The content of a token list is its identifiers,
numbers, booleans and texts. Where no message box has raw arguments, which are put
together to other texts, the leaves of a script's program stand for its content one
by one, and so in its order and at its places (`Program.leaves_stand`).
-/

namespace HotkeyScript

/-! ## Leaves -/

/-- What a program holds of its script besides its shape. -/
inductive Leaf where
  | name (identifier : Identifier)
  | number (literal : NumberLiteral)
  | text (value : String) (interpolated : Bool) (span : Span)
  | boolean (value : Bool) (span : Span)

/-- Where a leaf stands. -/
def Leaf.span : Leaf → Span
  | name identifier => identifier.span
  | number literal => literal.span
  | text _ _ span | boolean _ span => span

mutual

/-- The leaves of an expression in order. -/
def Expr.leaves : Expr → List Leaf
  | .number literal => [.number literal]
  | .text value interpolated span => [.text value interpolated span]
  | .boolean value span => [.boolean value span]
  | .array elements _ => Expr.leavesOf elements
  | .table entries _ => Expr.leavesOfEntries entries
  | .name identifier => [.name identifier]
  | .access object key _ => object.leaves ++ key.leaves
  | .binary _ left right _ => left.leaves ++ right.leaves
  | .unary _ operand _ => operand.leaves
  | .choice condition yes no _ => condition.leaves ++ yes.leaves ++ no.leaves
  | .call callee args _ => .name callee :: Expr.leavesOf args

def Key.leaves : Key → List Leaf
  | .member identifier => [.name identifier]
  | .index key => key.leaves

def Expr.leavesOf : List Expr → List Leaf
  | [] => []
  | e :: es => e.leaves ++ Expr.leavesOf es

def Expr.leavesOfEntries : List (Expr × Expr) → List Leaf
  | [] => []
  | (key, value) :: es => key.leaves ++ value.leaves ++ Expr.leavesOfEntries es

end

/-- The leaves of a message box in the order of its arguments. -/
def BoxArguments.leaves (box : BoxArguments) : List Leaf :=
  box.options.toList.map .number ++ box.title.toList.flatMap Expr.leaves ++
    box.text.toList.flatMap Expr.leaves ++ box.timeout.toList.map .number

mutual

/-- The leaves of a statement in order. -/
def Stmt.leaves : Stmt → List Leaf
  | .assign name value _ _ => .name name :: value.leaves
  | .store object key value _ => object.leaves ++ key.leaves ++ value.leaves
  | .branch condition yes none _ => condition.leaves ++ yes.leaves
  | .branch condition yes (some no) _ => condition.leaves ++ yes.leaves ++ no.leaves
  | .declare name params body _ => .name name :: Expr.leavesOf params ++ body.leaves
  | .give none _ => []
  | .give (some value) _ => value.leaves
  | .box args _ => args.leaves
  | .expr e _ => e.leaves

def Block.leaves : Block → List Leaf
  | .mk statements _ => Stmt.leavesOf statements

def Stmt.leavesOf : List Stmt → List Leaf
  | [] => []
  | s :: ss => s.leaves ++ Stmt.leavesOf ss

end

/-- The leaves of a program in order. -/
def Program.leaves (program : Program) : List Leaf := Stmt.leavesOf program.statements

/-! ## What leaves stand for -/

/-- Whether a token of this kind holds content. -/
def TokenKind.isContent : TokenKind → Bool
  | identifier | decimal | hexadecimal | float | boolean | quoted | raw => true
  | _ => false

/-- **A leaf stands for a token.** It has the token's span. A name has its lexeme,
a number is what its lexeme reads as, and a text is the lexeme of a raw text if it is
interpolated, and else that of a quoted text or of a name, as the key of a table's entry
may be one. -/
def Leaf.Stands : Leaf → Token → Prop
  | name identifier, t => t.kind = .identifier ∧ identifier = t.identifier
  | number literal, t => t.number? = .ok literal
  | text value interpolated span, t =>
    (if interpolated then t.kind = .raw else t.kind = .quoted ∨ t.kind = .identifier) ∧
      value = t.lexeme ∧ span = t.span
  | boolean value span, t => t.kind = .boolean ∧ value = (t.lexeme == "true") ∧ span = t.span

theorem Leaf.Stands.span_eq {leaf : Leaf} {t : Token} (h : leaf.Stands t) : leaf.span = t.span := by
  cases leaf with
  | name identifier => rw [h.2]; rfl
  | number literal => exact Token.span_of_number? h
  | text => exact h.2.2
  | boolean => exact h.2.2

/-- Leaves that stand for tokens stand at their places. -/
theorem Leaf.map_span {leaves : List Leaf} {ts : List Token}
    (h : List.Forall₂ Leaf.Stands leaves ts) : leaves.map Leaf.span = ts.map Token.span := by
  induction h with
  | nil => rfl
  | cons hl _ ih => rw [List.map_cons, List.map_cons, hl.span_eq, ih]

/-- The tokens that hold content. -/
def contentOf (ts : List Token) : List Token := ts.filter (·.kind.isContent)

/-- No message box has raw arguments: behind a command stands neither a raw text nor
a comma. -/
def NoRawBox (ts : List Token) : Prop :=
  ts.IsChain fun t u => t.kind = .command → u.kind ≠ .comma ∧ u.kind ≠ .raw

instance : DecidablePred NoRawBox := fun ts =>
  inferInstanceAs (Decidable (ts.IsChain fun t u =>
    t.kind = .command → u.kind ≠ .comma ∧ u.kind ≠ .raw))

/-- The leaves of a part of a program. -/
def Phrase.leaves : Phrase → List Leaf
  | expr e => e.leaves
  | exprs es => Expr.leavesOf es
  | entry e => e.1.leaves ++ e.2.leaves
  | entries es => Expr.leavesOfEntries es
  | stmt s => s.leaves
  | stmts ss => Stmt.leavesOf ss
  | block b => b.leaves
  | arm b => b.leaves

namespace NoRawBox

variable {t : Token} {front back : List Token}

/-- What stands in front of other tokens has no raw text behind a box word either. -/
theorem left (h : NoRawBox (front ++ back)) : NoRawBox front := List.IsChain.left_of_append h

theorem right (h : NoRawBox (front ++ back)) : NoRawBox back := List.IsChain.right_of_append h

theorem tail (h : NoRawBox (t :: back)) : NoRawBox back := List.IsChain.tail h

end NoRawBox

/-! ## Leaves and content side by side -/

/-- Leaves stand for the content of tokens one by one. -/
def Stand (leaves : List Leaf) (ts : List Token) : Prop :=
  List.Forall₂ Leaf.Stands leaves (contentOf ts)

namespace Stand

variable {leaf : Leaf} {leaves leaves' : List Leaf} {t : Token} {ts ts' : List Token}
  {kind : TokenKind}

theorem nil : Stand [] [] := List.Forall₂.nil

/-- Leaves stand for tokens in order, so rows of them are put together. -/
theorem append (h : Stand leaves ts) (h' : Stand leaves' ts') :
    Stand (leaves ++ leaves') (ts ++ ts') := by
  rw [Stand, contentOf, List.filter_append]
  exact List.rel_append h h'

theorem alone (h : Stand leaves ts) : Stand (leaves ++ []) ts := by rwa [List.append_nil]

/-- A token without content has no leaf. -/
theorem skip (hk : t.kind = kind) (hc : kind.isContent = false) (h : Stand leaves ts) :
    Stand leaves (t :: ts) := by
  rw [Stand, contentOf, List.filter_cons_of_neg]
  · exact h
  · rw [hk, hc]
    exact Bool.false_ne_true

/-- The same for a token that closes the others. -/
theorem closed (h : Stand leaves ts) (hk : t.kind = kind) (hc : kind.isContent = false) :
    Stand leaves (ts ++ [t]) := by
  have happend := h.append (nil.skip hk hc)
  rwa [List.append_nil] at happend

/-- Marks, words and line ends between are skipped. -/
theorem skipAll (hts : ∀ t ∈ ts, t.kind = kind) (hc : kind.isContent = false)
    (h : Stand leaves ts') : Stand leaves (ts ++ ts') := by
  induction ts with
  | nil => exact h
  | cons t ts ih =>
    obtain ⟨ht, hts⟩ := List.forall_mem_cons.1 hts
    exact (ih hts).skip ht hc

/-- A token with a value is one of the number tokens. -/
theorem isContent_of_number? {literal : NumberLiteral} (h : t.number? = .ok literal) :
    t.kind.isContent = true := by
  rw [Token.number?] at h
  cases hk : t.kind <;> rw [hk] at h <;> first | rfl | cases h

/-- Only content stands for a leaf. -/
theorem isContent_of_stands (h : leaf.Stands t) : t.kind.isContent = true := by
  cases leaf with
  | name => rw [h.1]; rfl
  | number => exact isContent_of_number? h
  | text value interpolated span =>
    cases interpolated with
    | true => rw [show t.kind = .raw from h.1]; rfl
    | false =>
      obtain hk | hk : t.kind = .quoted ∨ t.kind = .identifier := h.1
      · rw [hk]; rfl
      · rw [hk]; rfl
  | boolean => rw [h.1]; rfl

theorem cons (hl : leaf.Stands t) (h : Stand leaves ts) : Stand (leaf :: leaves) (t :: ts) := by
  have hc : contentOf (t :: ts) = t :: contentOf ts :=
    List.filter_cons_of_pos (isContent_of_stands hl)
  rw [Stand, hc]
  exact .cons hl h

theorem name (hk : t.kind = .identifier) (h : Stand leaves ts) :
    Stand (.name t.identifier :: leaves) (t :: ts) := h.cons ⟨hk, rfl⟩

theorem text (hk : t.kind = .quoted ∨ t.kind = .identifier) (h : Stand leaves ts) :
    Stand (.text t.lexeme false t.span :: leaves) (t :: ts) := h.cons ⟨hk, rfl, rfl⟩

theorem raw (hk : t.kind = .raw) (h : Stand leaves ts) :
    Stand (.text t.lexeme true t.span :: leaves) (t :: ts) := h.cons ⟨hk, rfl, rfl⟩

theorem number {literal : NumberLiteral} (hn : t.number? = .ok literal) :
    Stand [.number literal] [t] := nil.cons hn

/-- Operators are no content. -/
theorem isContent_of_binary {op : BinaryOp} (h : BinaryOp.ofKind? kind = some op) :
    kind.isContent = false := by
  cases kind <;> first | rfl | cases h

theorem isContent_of_unary {op : UnaryOp} (h : UnaryOp.ofKind? kind = some op) :
    kind.isContent = false := by
  cases kind <;> first | rfl | cases h

end Stand

/-- A box of one expression has the leaves of that expression. -/
theorem BoxArguments.leaves_text (e : Expr) :
    BoxArguments.leaves { none with text := some e } = e.leaves := by
  simp [leaves, none]

/-- A box without raw arguments has no line. -/
theorem BoxArguments.Line.eq_nil {word : Token} {args line : List Token} (h : Line args line)
    (hword : word.kind = .command) (hraw : NoRawBox (word :: line)) : line = [] := by
  cases line with
  | nil => rfl
  | cons t line =>
    obtain ⟨hcomma, hr⟩ := (List.isChain_cons_cons.1 hraw).1 hword
    obtain hk | hk := h.kinds t List.mem_cons_self
    · exact (hr hk).elim
    · exact (hcomma hk).elim

/-- **The leaves of what is spelled stand for the content it is spelled with**, if no
message box has raw arguments. -/
theorem Phrase.Spelled.stand {phrase : Phrase} {ts : List Token} (h : Spelled phrase ts)
    (hraw : NoRawBox ts) : Stand phrase.leaves ts := by
  induction h with
  | number hn => exact .number hn
  | quoted hk => exact Stand.nil.text (.inl hk)
  | boolean hk => exact Stand.nil.cons ⟨hk, rfl, rfl⟩
  | name hk => exact Stand.nil.name hk
  | call hk ho _ hc ih => exact (((ih hraw.left.tail.tail).skip ho rfl).closed hc rfl).name hk
  | paren ho _ hc ih => exact ((ih hraw.left.tail).skip ho rfl).closed hc rfl
  | array ho _ hc ih => exact ((ih hraw.left.tail).skip ho rfl).closed hc rfl
  | table ho _ hc ih => exact ((ih hraw.left.tail).skip ho rfl).closed hc rfl
  | member _ hd hk ih => exact (ih hraw.left).append ((Stand.nil.name hk).skip hd rfl)
  | place _ hd hn ih => exact (ih hraw.left).append ((Stand.number hn).skip hd rfl)
  | index _ ho _ hc ih ih' =>
    exact ((ih hraw.left.left).append ((ih' hraw.left.right.tail).skip ho rfl)).closed hc rfl
  | unary hop _ ih => exact (ih hraw.tail).skip rfl (Stand.isContent_of_unary hop)
  | binary _ hop _ ih ih' =>
    exact (ih hraw.left).append ((ih' hraw.right.tail).skip rfl (Stand.isContent_of_binary hop))
  | choice _ hq _ hc _ ih ih' ih'' =>
    have hcond := ih hraw.left.left
    have hyes := ih' hraw.left.right.tail
    have hno := ih'' hraw.right.tail
    exact (hcond.append (hyes.skip hq rfl)).append (hno.skip hc rfl)
  | noExprs => exact .nil
  | oneExpr _ ih => exact (ih hraw).alone
  | moreExprs _ hc _ ih ih' => exact (ih hraw.left).append ((ih' hraw.right.tail).skip hc rfl)
  | entry _ hc _ ih ih' => exact (ih hraw.left).append ((ih' hraw.right.tail).skip hc rfl)
  | namedEntry hk hc _ ih => exact ((ih hraw.tail.tail).skip hc rfl).text (.inr hk)
  | noEntries => exact .nil
  | oneEntry _ ih => exact (ih hraw).alone
  | moreEntries _ hc _ ih ih' => exact (ih hraw.left).append ((ih' hraw.right.tail).skip hc rfl)
  | assign hk hs _ ih => exact ((ih hraw.tail.tail).skip hs rfl).name hk
  | assignRaw hk hs ht => exact ((Stand.nil.raw ht).skip hs rfl).name hk
  | assignGlobal hw hk hs _ ih =>
    exact (((ih hraw.tail.tail.tail).skip hs rfl).name hk).skip hw rfl
  | store _ hs _ ih ih' => exact (ih hraw.left).append ((ih' hraw.right.tail).skip hs rfl)
  | bare _ ih => exact ih hraw
  | giveNothing hw => exact Stand.nil.skip hw rfl
  | give hw _ ih => exact (ih hraw.tail).skip hw rfl
  | boxExpr hw hp _ ih =>
    have htext := ((ih hraw.tail.tail).skip hp rfl).skip hw rfl
    rwa [Phrase.leaves, ← BoxArguments.leaves_text] at htext
  | @boxLine word args line box hw hline hbox =>
    obtain rfl : line = [] := hline.eq_nil hw hraw
    obtain rfl : [] = args := hline.args_eq
    cases hbox
    exact Stand.nil.skip hw rfl
  | branch hw _ he _ ih ih' =>
    have hcond := (ih hraw.left.left.tail).skip hw rfl
    have hyes := (ih' hraw.right).skipAll he rfl
    rw [List.append_assoc]
    exact hcond.append hyes
  | @branchElse word other _ _ _ front ends mid ends' ends'' back hw _ he _ he' ho he'' _ ih ih'
      ih'' =>
    have hcond := (ih hraw.left.left.left.left.left.tail).skip hw rfl
    have hyes := (ih' hraw.left.left.left.right).skipAll he rfl
    have hno := (((ih'' hraw.right).skipAll he'' rfl).skip ho rfl).skipAll he' rfl
    have hts : word :: front ++ ends ++ mid ++ ends' ++ other :: ends'' ++ back =
        word :: front ++ (ends ++ mid) ++ (ends' ++ other :: (ends'' ++ back)) := by simp
    rw [hts]
    exact (hcond.append hyes).append hno
  | arm _ ih => exact ih hraw
  | furtherIf _ ih => exact (ih hraw).alone
  | declare hk ho _ hc he _ ih ih' =>
    have hparams := ((ih hraw.left.left.tail.tail).skip ho rfl).name hk
    have hbody := ((ih' hraw.right).skipAll he rfl).skip hc rfl
    have hall := hparams.append hbody
    simp only [List.append_assoc, List.cons_append] at hall ⊢
    exact hall
  | noStmts => exact .nil
  | moreStmts _ _ ih ih' => exact (ih hraw.left).append (ih' hraw.right)
  | lineEnd hk _ ih => exact (ih hraw.tail).skip hk rfl
  | comment ho hc _ ih => exact ((ih hraw.tail.tail).skip hc rfl).skip ho rfl
  | block ho _ hc ih => exact ((ih hraw.left.tail).skip ho rfl).closed hc rfl

/-- **No content is lost, doubled or moved.** Let a text have tokens, let these make
up a program, and let no message box have raw arguments. The leaves of the program
stand for the names, numbers, texts and booleans among the tokens one by one, so
they stand at the same places. -/
theorem Program.leaves_stand {text : String} {tokens : List Token} {program : Program}
    (ht : tokenize text = .ok tokens) (hp : Program.ofTokens tokens = .ok program)
    (hraw : NoRawBox tokens) :
    List.Forall₂ Leaf.Stands program.leaves (contentOf tokens) ∧
      program.leaves.map Leaf.span = (contentOf tokens).map Token.span := by
  obtain ⟨sof, mid, eof, rfl, hsof, -, -, heof, -⟩ := exists_ends_of_tokenize ht
  have hspelled := Program.spelled_ofTokens hp
  rw [List.drop_one, List.tail_cons, List.dropLast_concat] at hspelled
  have hmid : Stand program.leaves mid := hspelled.stand hraw.tail.left
  have hall : Stand program.leaves (sof :: (mid ++ [eof])) :=
    (hmid.closed heof rfl).skip hsof rfl
  exact ⟨hall, Leaf.map_span hall⟩

/-- A function with a table, keys and a further `if`, called in a message box. -/
theorem Program.leaves_stand_functionThenBox :
    let text := "f(n)\n\x7b\nif n and not false \x7b return \x7ba: n.b, 1: [0x2, \"t\"]\x7d \x7d" ++
      "\nelse if n \x7b x = raw\nMsgBox\n\x7d\n\x7d\nMsgBox % f(1.5)[k] . y ? -z : 0"
    ∃ tokens program, tokenize text = .ok tokens ∧ Program.ofTokens tokens = .ok program ∧
      NoRawBox tokens ∧ (contentOf tokens).length = 19 ∧
      program.leaves.map Leaf.span = (contentOf tokens).map Token.span := by
  intro text
  have hall : (tokenize text).toOption.map (fun ts => (Program.ofTokens ts).toBool &&
      decide (NoRawBox ts) && (contentOf ts).length == 19) = some true := by decide +kernel
  cases ht : tokenize text with
  | error e => rw [ht] at hall; cases hall
  | ok tokens =>
    rw [ht] at hall
    have hall := Option.some.inj hall
    simp only [Bool.and_eq_true, decide_eq_true_eq, beq_iff_eq] at hall
    cases hp : Program.ofTokens tokens with
    | error e => rw [hp] at hall; exact absurd hall.1.1 Bool.false_ne_true
    | ok program =>
      exact ⟨tokens, program, rfl, hp, hall.1.2, hall.2, (leaves_stand ht hp hall.1.2).2⟩

end HotkeyScript
