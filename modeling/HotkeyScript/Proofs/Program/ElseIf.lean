import HotkeyScript.Proofs.Program.Agreement
import HotkeyScript.Proofs.Program.Gives
import HotkeyScript.Proofs.Program.Ways
import HotkeyScript.Proofs.Token.Given
/-!
# Programs — blocks for `else if`

The block that stands for an `else if` is made of its `if` alone and has its span. No
block in braces has the span of what stands in it, so none is taken for an `else if`
(`Phrase.Spelled.isElseIf_eq_false`).

A chain of any number of `else if` is a program (`ElseIfs.exists_program`), and a way
down it goes to the end: the rule for an `if` reads the next one on the same level.
-/

namespace HotkeyScript

/-! ## Blocks in braces -/

/-- **A block in braces is wider than what stands in it**, for no brace is empty. So it
is taken for no `else if`. -/
theorem Phrase.Spelled.isElseIf_eq_false {text : String} {tokens ts : List Token} {b : Block}
    (h : Spelled (.block b) ts) (ht : tokenize text = .ok tokens) (hsub : ts.Sublist tokens) :
    b.isElseIf = false := by
  have hts : InOrder ts := (inOrder_of_tokenize ht).sublist hsub
  cases h with
  | @block opener closer ss mid hopen hss hclose =>
    unfold Block.isElseIf
    split
    next cond yes no inner span heq =>
      cases heq
      have hrow := hss.inRow hts.left.tail
      obtain ⟨t, hmid, hstart⟩ := (hrow.from' inner (List.mem_singleton_self inner)).start
      have hopener : opener ∈ tokens := hsub.subset (List.mem_append_left _ List.mem_cons_self)
      have hwide : opener.span.start.offset < opener.span.stop.offset := by
        refine wide_of_tokenize ht opener hopener ?_ ?_ ?_ <;> rw [hopen] <;> exact nofun
      have hbehind := (List.pairwise_cons.1 hts.left.pairwise).1 t hmid
      have hmerge := Span.offset_start_merge opener.span closer.span
      refine beq_eq_false_iff_ne.2 fun hspan => ?_
      rw [← hspan, hstart] at hmerge
      omega
    next => rfl

/-! ## Chains of `else if` -/

namespace Rule

variable {expr : Rule Expr} {block : Rule Block} {ts ts' ts'' rest : List Token}
  {cond : Expr} {yes : Block}

/-- An `if` with nothing behind its block. -/
theorem gives_branch (start : Token) (ts : List Token)
    (hcond : Gives (condition expr ts) cond ts')
    (hyes : Gives (block (skipLineEnds ts')) yes []) :
    Gives (branch expr block start ts) (.branch cond yes none (start.span.merge yes.span)) [] := by
  obtain ⟨hlt, hcond⟩ := hcond
  obtain ⟨hlt', hyes⟩ := hyes
  have hrest : ([] : List Token).length < ts.length := Nat.zero_lt_of_lt hlt
  refine ⟨hrest, ?_⟩
  rw [branch.eq_def, hcond]
  change (block (skipLineEnds ts') >>= _) = _
  rw [hyes]
  rfl

/-- An `if` with a further `if` behind its `else`. -/
theorem gives_elseIf (start : Token) (ts : List Token) {other further : Token} {more : Stmt}
    (hcond : Gives (condition expr ts) cond ts')
    (hyes : Gives (block (skipLineEnds ts')) yes (other :: further :: ts''))
    (hother : other.kind = .elseWord) (hfurther : further.kind = .ifWord)
    (hmore : Gives (branch expr block further ts'') more rest) :
    Gives (branch expr block start ts)
      (.branch cond yes (some (.mk [more] more.span)) (start.span.merge more.span)) rest := by
  obtain ⟨hlt, hcond⟩ := hcond
  obtain ⟨hlt', hyes⟩ := hyes
  obtain ⟨hlt'', hmore⟩ := hmore
  have hrest : rest.length < ts.length := by
    have hskip := length_skipLineEnds ts'
    rw [List.length_cons, List.length_cons] at hlt'
    omega
  have helse : elseWord? (other :: further :: ts'') =
      some ⟨(), further :: ts'', Nat.lt_succ_self _⟩ := by
    have hskip := skipLineEnds_cons (t := other) (by rw [hother]; exact nofun) (further :: ts'')
    have hskip' := skipLineEnds_cons (t := further) (by rw [hfurther]; exact nofun) ts''
    rw [elseWord?_of_cons hskip, if_pos hother]
    simp only [hskip']
  refine ⟨hrest, ?_⟩
  rw [branch.eq_def, hcond]
  change (block (skipLineEnds ts') >>= _) = _
  rw [hyes]
  simp only [bind, Except.bind, helse]
  rw [if_pos hfurther, hmore]
  rfl

/-- A name in front of a block with nothing in it. -/
theorem gives_condition (n : Nat) {name opener : Token} (hname : name.kind = .identifier)
    (hopener : opener.kind = .leftBrace) (hspaced : opener.spaced = true) :
    Gives (condition (expression (n + 1)) (name :: opener :: ts)) (.name name.identifier)
      (opener :: ts) := by
  have hdetached : Detached (opener :: ts) := by
    rintro t ⟨⟩
    exact hspaced
  have hkind : nextKind (opener :: ts) = .leftBrace := hopener
  rw [condition_eq (stops_expression (n + 1)), expression]
  refine gives_sum (gives_product (gives_detached hname hdetached) (.nil ?_)) (.nil ?_) ?_
  · rw [hkind]; rfl
  · rw [hkind]; rfl
  · rw [hkind]; decide

theorem gives_emptyBlock (n : Nat) {opener closer : Token} (hopener : opener.kind = .leftBrace)
    (hcloser : closer.kind = .rightBrace) (rest : List Token) :
    Gives (Rule.block (n + 1) (opener :: closer :: rest))
      (.mk [] (opener.span.merge closer.span)) rest := by
  have hskip := skipLineEnds_cons (t := closer) (by rw [hcloser]; exact nofun) rest
  have hend : ((skipLineEnds (closer :: rest)).isEmpty ||
      (true && nextKind (skipLineEnds (closer :: rest)) == .rightBrace)) = true := by
    rw [hskip, nextKind, hcloser]
    rfl
  have hbody : statements (statement (expression n) (Rule.block n)) true (closer :: rest) =
      .ok (.nothing [] (closer :: rest)) := by
    rw [statements, if_pos hend]
    simp only [hskip]
    rfl
  refine ⟨Nat.lt_succ_of_lt (Nat.lt_succ_self _), ?_⟩
  rw [Rule.block, braced, expect, if_pos hopener]
  change (statements _ true (closer :: rest) >>= _) = _
  rw [hbody]
  change (expect .rightBrace .closeBrace (closer :: rest) >>= _) = _
  rw [expect, if_pos hcloser]
  rfl

end Rule

/-- An `if` with so many `else if` behind it, each with a name for a condition and with
nothing in its block. -/
def elseIfs (n : Nat) : String :=
  String.ofList ("if a \x7b\x7d".toList ++ (List.replicate n " else if a \x7b\x7d".toList).flatten)

namespace ElseIfs

open Node

/-- The word that the chain begins with. -/
def ifMark : Mark := ⟨.plain .ifWord ['i', 'f'], []⟩

/-- A condition. -/
def name : Mark := ⟨.plain .identifier ['a'], [' ']⟩

/-- The brace that a block begins with. -/
def opener : Mark := ⟨.plain .leftBrace ['{'], [' ']⟩

/-- The brace that it ends with, with nothing between. -/
def closer : Mark := ⟨.plain .rightBrace ['}'], []⟩

/-- The word behind the block. -/
def other : Mark := ⟨.plain .elseWord ['e', 'l', 's', 'e'], [' ']⟩

/-- The further `if`. -/
def further : Mark := ⟨.plain .ifWord ['i', 'f'], [' ']⟩

/-- The marks behind the first word. -/
def marks : Nat → List Mark
  | 0 => [name, opener, closer]
  | n + 1 => name :: opener :: closer :: other :: further :: marks n

/-- The way down to the block of the last `if`. -/
def way : Nat → List Edge
  | 0 => [.inward]
  | n + 1 => .onward :: .along :: way n

/-- It has an edge that is not along the same level for each `if`, and only one of these
edges leads a level deeper. -/
theorem count_way (n : Nat) :
    (way n).countP (· != .along) = n + 1 ∧ (way n).count .inward = 1 := by
  induction n with
  | zero => exact ⟨rfl, rfl⟩
  | succ n ih =>
    constructor
    · simp [way, ih.1]
    · simp [way, ih.2]

theorem elseIfs_eq (n : Nat) : elseIfs n = String.ofList (Mark.textOf (ifMark :: marks n)) := by
  have hmarks : Mark.textOf (marks n) =
      " a \x7b\x7d".toList ++ (List.replicate n " else if a \x7b\x7d".toList).flatten := by
    induction n with
    | zero => rfl
    | succ n ih =>
      rw [marks]
      simp only [Mark.textOf_cons, ih]
      rfl
  rw [Mark.textOf_cons, hmarks]
  rfl

theorem scanned (n : Nat) : Mark.Scanned [] (ifMark :: marks n) := by
  have hname (rest : List Char) : (Wording.plain .identifier ['a']).ReadBefore (' ' :: rest) :=
    Wording.readBefore_word rfl rfl rfl nofun (.cons rfl _)
  have hif (rest : List Char) : (Wording.plain .ifWord ['i', 'f']).ReadBefore (' ' :: rest) :=
    Wording.readBefore_word rfl rfl rfl nofun (.cons rfl _)
  have helse (rest : List Char) :
      (Wording.plain .elseWord ['e', 'l', 's', 'e']).ReadBefore (' ' :: rest) :=
    Wording.readBefore_word rfl rfl rfl nofun (.cons rfl _)
  have hopener (rest : List Char) : (Wording.plain .leftBrace ['{']).ReadBefore rest := by
    have hkind : Scan.punctuation? '{' = some .leftBrace := rfl
    exact Wording.readBefore_punctuation hkind nofun rest
  have hcloser (rest : List Char) : (Wording.plain .rightBrace ['}']).ReadBefore rest := by
    have hkind : Scan.punctuation? '}' = some .rightBrace := rfl
    exact Wording.readBefore_punctuation hkind nofun rest
  have hmarks : Mark.Scanned [] (marks n) := by
    induction n with
    | zero => exact ⟨rfl, hname _, rfl, hopener _, rfl, hcloser _, trivial⟩
    | succ n ih =>
      refine ⟨rfl, hname _, rfl, hopener _, rfl, hcloser _, rfl, helse _, rfl, ?_, ih⟩
      cases n with
      | zero => exact hif _
      | succ n => exact hif _
  refine ⟨rfl, ?_, hmarks⟩
  cases n with
  | zero => exact hif _
  | succ n => exact hif _

/-- **A chain is read on every level but the last**, and leads down as far as it is long. -/
theorem gives_branch (levels n : Nat) (p : Position) (start : Token) : ∃ s m,
    Gives (Rule.branch (Rule.expression (levels + 1)) (Rule.block (levels + 1)) start
        (Mark.tokens p (marks n))) s [] ∧
      (stmt s).Path (way n) m ∧ (Block.mk [s] s.span).isElseIf = true := by
  induction n generalizing p start with
  | zero =>
    have hgives := Rule.gives_branch start (Mark.tokens p (marks 0))
      (Rule.gives_condition levels rfl rfl rfl) (Rule.gives_emptyBlock levels rfl rfl [])
    have hmem {cond : Expr} {yes : Block} {span : Span} :
        (.inward, block yes) ∈ (stmt (.branch cond yes none span)).edges :=
      List.mem_cons_of_mem _ List.mem_cons_self
    exact ⟨_, _, hgives, .step hmem (.here _), beq_self_eq_true _⟩
  | succ n ih =>
    let behind : Position := (((p.past name.written).past opener.written).past closer.written).past
      other.written
    obtain ⟨more, m, hmore, hway, helseIf⟩ := ih (behind.past further.written)
      (further.token behind)
    have hgives := Rule.gives_elseIf start (Mark.tokens p (marks (n + 1)))
      (Rule.gives_condition levels rfl rfl rfl) (Rule.gives_emptyBlock levels rfl rfl _) rfl rfl
      hmore
    have hmem {cond : Expr} {yes : Block} {span : Span} :
        (.onward, block (.mk [more] more.span)) ∈
          (stmt (.branch cond yes (some (.mk [more] more.span)) span)).edges := by
      have hedge : Edge.ofElse (.mk [more] more.span) = .onward := if_pos helseIf
      refine List.mem_cons_of_mem _ (List.mem_cons_of_mem _ (List.mem_singleton.2 ?_))
      exact congrArg (fun edge => (edge, block (.mk [more] more.span))) hedge.symm
    have halong : (.along, stmt more) ∈ (block (.mk [more] more.span)).edges :=
      List.mem_singleton_self _
    exact ⟨_, m, hgives, .step hmem (.step halong hway), beq_self_eq_true _⟩

/-- A chain of any length is a program. -/
theorem exists_program (n : Nat) (file : String) : ∃ s m,
    (⟨file, elseIfs n⟩ : Source).program = .ok ⟨[s]⟩ ∧ (stmt s).Path (way n) m := by
  obtain ⟨s, m, hbranch, hway, -⟩ :=
    gives_branch 99 n (Position.start.past ifMark.written) (ifMark.token .start)
  have hstatement : Gives (Rule.statement (Rule.expression maxNesting) (Rule.block maxNesting)
      (Mark.tokens .start (ifMark :: marks n))) (some s) [] := by
    obtain ⟨hlt, hbranch⟩ := hbranch
    refine ⟨Nat.lt_succ_of_lt hlt, ?_⟩
    change Rule.statement _ _ (ifMark.token .start :: Mark.tokens _ (marks n)) = _
    rw [Rule.statement.eq_def]
    change (Rule.branch _ _ _ _ >>= _) = _
    rw [maxNesting, hbranch]
    rfl
  refine ⟨s, m, ?_, hway⟩
  rw [elseIfs_eq]
  have hstart : nextKind (Mark.tokens .start (ifMark :: marks n)) ≠ .lineEnd := by
    intro hkind
    cases hkind
  exact Mark.program_of_script (scanned n) (Rule.gives_statements hstart hstatement) file

end ElseIfs

end HotkeyScript
