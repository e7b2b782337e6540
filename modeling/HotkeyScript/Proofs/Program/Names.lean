import HotkeyScript.Proofs.Plan.Clause
import HotkeyScript.Proofs.Program.Leaves
import HotkeyScript.Proofs.Program.Spans
import HotkeyScript.Proofs.Token.Given
/-!
# Programs — names are words

The names of a program are identifiers of its script, so they are made of the characters
that names may contain (`Program.worded`): those that are read, those that are called and
those that are given a value, in the bodies of functions too
(`Stmt.worded_of_mem_declarationsOf`).
-/

namespace HotkeyScript

open Text

/-! ## Leaves and tokens -/

/-- The names among some leaves are words. -/
def Worded (leaves : List Leaf) : Prop :=
  ∀ identifier, Leaf.name identifier ∈ leaves → IsWord identifier.name.toList

/-- The identifiers among some tokens are words. -/
def WordTokens (ts : List Token) : Prop :=
  ∀ t ∈ ts, t.kind = .identifier → IsWord t.lexeme.toList

namespace WordTokens

variable {t : Token} {front back : List Token}

theorem left (h : WordTokens (front ++ back)) : WordTokens front :=
  fun t ht => h t (List.mem_append_left _ ht)

theorem right (h : WordTokens (front ++ back)) : WordTokens back :=
  fun t ht => h t (List.mem_append_right _ ht)

theorem tail (h : WordTokens (t :: back)) : WordTokens back :=
  fun u hu => h u (List.mem_cons_of_mem _ hu)

theorem head (h : WordTokens (t :: back)) (hk : t.kind = .identifier) :
    IsWord t.identifier.name.toList := h t List.mem_cons_self hk

end WordTokens

namespace Worded

variable {leaf : Leaf} {leaves leaves' : List Leaf}

theorem nil : Worded [] := fun _ h => (List.not_mem_nil h).elim

/-- Names of one part or of the other. -/
theorem append_iff : Worded (leaves ++ leaves') ↔ Worded leaves ∧ Worded leaves' := by
  simp only [Worded, List.mem_append, or_imp, forall_and]

theorem append (h : Worded leaves) (h' : Worded leaves') : Worded (leaves ++ leaves') :=
  append_iff.2 ⟨h, h'⟩

theorem mono (h : Worded leaves) (hsub : leaves' ⊆ leaves) : Worded leaves' :=
  fun identifier hmem => h identifier (hsub hmem)

theorem name {identifier : Identifier} (hword : IsWord identifier.name.toList)
    (h : Worded leaves) : Worded (.name identifier :: leaves) := by
  intro other hmem
  obtain heq | hmem := List.mem_cons.1 hmem
  · cases heq
    exact hword
  · exact h other hmem

/-- Leaves that are no names are no matter. -/
theorem plain (h : ∀ leaf ∈ leaves, ∀ identifier, leaf ≠ .name identifier) : Worded leaves :=
  fun identifier hmem => (h _ hmem identifier rfl).elim

/-- A leaf alone that is no name. -/
theorem one (h : ∀ identifier, leaf ≠ .name identifier) : Worded [leaf] :=
  plain (List.forall_mem_singleton.2 h)

theorem text {value : String} {interpolated : Bool} {span : Span} (h : Worded leaves) :
    Worded (.text value interpolated span :: leaves) := by
  have hone : Worded [.text value interpolated span] := one nofun
  exact hone.append h

end Worded

/-! ## What is spelled -/

namespace BoxArguments

/-- A box whose title and text are texts has no names. -/
theorem worded_leaves {box : BoxArguments}
    (htitle : ∀ e ∈ box.title, ∃ value interpolated span, e = .text value interpolated span)
    (htext : ∀ e ∈ box.text, ∃ value interpolated span, e = .text value interpolated span) :
    Worded box.leaves := by
  have hnumbers (literals : List NumberLiteral) : Worded (literals.map .number) :=
    .plain (List.forall_mem_map.2 fun _ _ => nofun)
  have htexts {e? : Option Expr}
      (h : ∀ e ∈ e?, ∃ value interpolated span, e = .text value interpolated span) :
      Worded (e?.toList.flatMap Expr.leaves) := by
    cases e? with
    | none => exact .nil
    | some e =>
      obtain ⟨value, interpolated, span, rfl⟩ := h e rfl
      exact .one nofun
  exact (((hnumbers _).append (htexts htitle)).append (htexts htext)).append (hnumbers _)

/-- Raw arguments have no names. -/
theorem worded_of_ofSegments {args : List Token} {box : BoxArguments}
    (h : ofSegments args = .ok box) : Worded box.leaves := by
  have hgiven (i : Nat) : ∀ e ∈ (given? args i).map asText,
      ∃ value interpolated span, e = .text value interpolated span := by
    intro e he
    obtain ⟨t, -, rfl⟩ := Option.map_eq_some_iff.1 he
    exact ⟨_, _, _, rfl⟩
  unfold ofSegments at h
  split at h
  next => cases h; exact .nil
  next first rest =>
    split at h
    next =>
      unfold positional at h
      split at h
      next => cases h
      next =>
        obtain ⟨options, -, h⟩ := bind_eq_ok_iff.1 h
        obtain ⟨timeout, -, h⟩ := bind_eq_ok_iff.1 h
        cases h
        exact worded_leaves (hgiven 1) (hgiven 2)
    next =>
      cases h
      refine worded_leaves (fun _ he => (Option.not_mem_none _ he).elim) fun e he => ?_
      cases he
      exact ⟨_, _, _, rfl⟩

end BoxArguments

/-- **What is spelled with words has words for names.** -/
theorem Phrase.Spelled.worded {phrase : Phrase} {ts : List Token} (h : Spelled phrase ts)
    (hts : WordTokens ts) : Worded phrase.leaves := by
  induction h with
  | number | quoted | boolean => exact .one nofun
  | name hk => exact .name (hts.head hk) .nil
  | call hk _ _ _ ih => exact .name (hts.left.head hk) (ih hts.left.tail.tail)
  | paren _ _ _ ih | array _ _ _ ih | table _ _ _ ih => exact ih hts.left.tail
  | member _ _ hk ih => exact (ih hts.left).append (.name (hts.right.tail.head hk) .nil)
  | place _ _ _ ih => exact (ih hts.left).append (.one nofun)
  | index _ _ _ _ ih ih' => exact (ih hts.left.left).append (ih' hts.left.right.tail)
  | unary _ _ ih => exact ih hts.tail
  | binary _ _ _ ih ih' => exact (ih hts.left).append (ih' hts.right.tail)
  | choice _ _ _ _ _ ih ih' ih'' =>
    exact ((ih hts.left.left).append (ih' hts.left.right.tail)).append (ih'' hts.right.tail)
  | noExprs | noEntries | giveNothing | noStmts => exact .nil
  | oneExpr _ ih | oneEntry _ ih | furtherIf _ ih => exact (ih hts).append .nil
  | moreExprs _ _ _ ih ih' | entry _ _ _ ih ih' | moreEntries _ _ _ ih ih' | store _ _ _ ih ih' =>
    exact (ih hts.left).append (ih' hts.right.tail)
  | namedEntry _ _ _ ih => exact .text (ih hts.tail.tail)
  | assign hk _ _ ih => exact .name (hts.head hk) (ih hts.tail.tail)
  | assignRaw hk _ _ => exact .name (hts.head hk) (.one nofun)
  | assignGlobal _ hk _ _ ih => exact .name (hts.tail.head hk) (ih hts.tail.tail.tail)
  | bare _ ih | arm _ ih => exact ih hts
  | give _ _ ih => exact ih hts.tail
  | boxExpr _ _ _ ih =>
    rw [Phrase.leaves, Stmt.leaves, BoxArguments.leaves_text]
    exact ih hts.tail.tail
  | boxLine _ _ hbox => exact BoxArguments.worded_of_ofSegments hbox
  | branch _ _ _ _ ih ih' => exact (ih hts.left.left.tail).append (ih' hts.right)
  | branchElse _ _ _ _ _ _ _ _ ih ih' ih'' =>
    have hcond := ih hts.left.left.left.left.left.tail
    have hyes := ih' hts.left.left.left.right
    exact (hcond.append hyes).append (ih'' hts.right)
  | declare hk _ _ _ _ _ ih ih' =>
    exact .name (hts.left.left.head hk)
      ((ih hts.left.left.tail.tail).append (ih' hts.right))
  | moreStmts _ _ ih ih' => exact (ih hts.left).append (ih' hts.right)
  | lineEnd _ _ ih => exact ih hts.tail
  | comment _ _ _ ih => exact ih hts.tail.tail
  | block _ _ _ ih => exact ih hts.left.tail

/-- **The names of a program are words.** -/
theorem Program.worded {source : Source} {program : Program} (h : source.program = .ok program) :
    Worded program.leaves := by
  obtain ⟨tokens, ht, hp⟩ := Source.exists_tokens_of_program h
  have hsub : (tokens.drop 1).dropLast ⊆ tokens :=
    ((List.dropLast_sublist _).trans (List.drop_sublist 1 tokens)).subset
  exact (spelled_ofTokens hp).worded fun t htm => isWord_of_tokenize ht t (hsub htm)

/-- So are those of each of its statements. -/
theorem Stmt.leaves_subset {s : Stmt} {ss : List Stmt} (h : s ∈ ss) :
    s.leaves ⊆ Stmt.leavesOf ss := by
  induction ss with
  | nil => cases h
  | cons t ss ih =>
    obtain rfl | h := List.mem_cons.1 h
    · exact List.subset_append_left _ _
    · exact List.Subset.trans (ih h) (List.subset_append_right _ _)

/-! ## What is declared -/

mutual

/-- Where names are words, a function that is declared has a word for a name, and words
for the names in its body. -/
theorem Stmt.worded_of_mem_declarations :
    ∀ (s : Stmt) (d : Declaration), d ∈ s.declarations → Worded s.leaves →
      IsWord d.name.name.toList ∧ Worded d.body.leaves
  | .declare name params body _, d, hd, h => by
    have hbody : Worded body.leaves := h.mono (List.subset_append_right _ _)
    obtain rfl | hd := List.mem_cons.1 hd
    · exact ⟨h name (List.mem_append_left _ List.mem_cons_self), hbody⟩
    · exact body.worded_of_mem_declarations d hd hbody
  | .branch _ yes none _, d, hd, h =>
    yes.worded_of_mem_declarations d hd (Worded.append_iff.1 h).2
  | .branch _ yes (some no) _, d, hd, h => by
    obtain ⟨hfront, hno⟩ := Worded.append_iff.1 h
    obtain hd | hd := List.mem_append.1 hd
    · exact yes.worded_of_mem_declarations d hd (Worded.append_iff.1 hfront).2
    · exact no.worded_of_mem_declarations d hd hno
  | .assign _ _ _ _, _, hd, _ | .store _ _ _ _, _, hd, _ | .give _ _, _, hd, _
  | .box _ _, _, hd, _ | .expr _ _, _, hd, _ => nomatch hd

/-- In the blocks of a statement. -/
theorem Block.worded_of_mem_declarations :
    ∀ (b : Block) (d : Declaration), d ∈ b.declarations → Worded b.leaves →
      IsWord d.name.name.toList ∧ Worded d.body.leaves
  | .mk statements _, d, hd, h => Stmt.worded_of_mem_declarationsOf statements d hd h

/-- In whichever of the statements the function is declared. -/
theorem Stmt.worded_of_mem_declarationsOf :
    ∀ (ss : List Stmt) (d : Declaration), d ∈ Stmt.declarationsOf ss →
      Worded (Stmt.leavesOf ss) → IsWord d.name.name.toList ∧ Worded d.body.leaves
  | [], _, hd, _ => nomatch hd
  | s :: ss, d, hd, h => by
    obtain ⟨hs, hss⟩ := Worded.append_iff.1 h
    obtain hd | hd := List.mem_append.1 hd
    · exact s.worded_of_mem_declarations d hd hs
    · exact Stmt.worded_of_mem_declarationsOf ss d hd hss

end

end HotkeyScript
