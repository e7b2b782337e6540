import HotkeyScript.Error
import HotkeyScript.Proofs.Program.Reading
import HotkeyScript.Proofs.Token.Cover
/-!
# Programs — spans cover what they should

Every node of a program has a span in the text, which covers those of the nodes in
it; statements next to each other stand one behind the other; and a name is what
stands at its span (`Program.spans_of_program`).

A node's span goes from the start of one of the tokens that the node is spelled
with to the end of another (`Span.From`). The tokens stand in order, so of two
parts that are spelled with tokens one behind the other the first ends before the
second starts (`Span.From.le`), and a node whose span joins its first part and its
last covers those between (`Node.Row.join`).
-/

namespace HotkeyScript

/-! ## Spans and tokens in order -/

/-- A span reaches as far as another, on both sides. -/
structure Span.Covers (outer inner : Span) : Prop where
  start_le : outer.start.offset ≤ inner.start.offset
  le_stop : inner.stop.offset ≤ outer.stop.offset

/-- Tokens stand one behind the other, and none ends before it starts. -/
structure InOrder (ts : List Token) : Prop where
  pairwise : ts.Pairwise fun t u => t.span.stop.offset ≤ u.span.start.offset
  le : ∀ t ∈ ts, t.span.start.offset ≤ t.span.stop.offset

/-- A span from the start of one of some tokens to the end of one of them. -/
structure Span.From (s : Span) (ts : List Token) : Prop where
  start : ∃ t ∈ ts, s.start = t.span.start
  stop : ∃ t ∈ ts, s.stop = t.span.stop
  le : s.start.offset ≤ s.stop.offset

namespace InOrder

variable {t : Token} {front back : List Token}

theorem sublist (h : InOrder back) (hsub : front.Sublist back) : InOrder front :=
  ⟨h.pairwise.sublist hsub, fun t ht => h.le t (hsub.subset ht)⟩

theorem left (h : InOrder (front ++ back)) : InOrder front :=
  h.sublist (List.sublist_append_left front back)

theorem right (h : InOrder (front ++ back)) : InOrder back :=
  h.sublist (List.sublist_append_right front back)

theorem tail (h : InOrder (t :: back)) : InOrder back := h.sublist (List.sublist_cons_self t back)

theorem head (h : InOrder (t :: back)) : t.span.From [t] where
  start := ⟨t, List.mem_singleton_self t, rfl⟩
  stop := ⟨t, List.mem_singleton_self t, rfl⟩
  le := h.le t List.mem_cons_self

end InOrder

namespace Span

variable {a b c : Span} {ts front back : List Token}

theorem offset_start_merge (a b : Span) :
    (a.merge b).start.offset = min a.start.offset b.start.offset := by
  unfold merge
  dsimp only
  split <;> omega

theorem offset_stop_merge (a b : Span) :
    (a.merge b).stop.offset = max a.stop.offset b.stop.offset := by
  unfold merge
  dsimp only
  split <;> omega

@[simp] theorem merge_self (a : Span) : a.merge a = a := by
  unfold merge
  rw [if_neg (Nat.lt_irrefl _), if_neg (Nat.lt_irrefl _)]

namespace From

theorem mono (h : a.From front) (hsub : front ⊆ back) : a.From back where
  start := h.start.imp fun _ ht => ⟨hsub ht.1, ht.2⟩
  stop := h.stop.imp fun _ ht => ⟨hsub ht.1, ht.2⟩
  le := h.le

/-- What is spelled in front ends before what is spelled behind starts. -/
theorem before (h : InOrder (front ++ back)) (ha : a.From front) (hb : b.From back) :
    a.stop.offset ≤ b.start.offset := by
  obtain ⟨t, ht, hstop⟩ := ha.stop
  obtain ⟨u, hu, hstart⟩ := hb.start
  rw [hstop, hstart]
  exact (List.pairwise_append.1 h.pairwise).2.2 t ht u hu

/-- Joining two spans keeps to the tokens that they come from. -/
theorem merge (ha : a.From ts) (hb : b.From ts) : (a.merge b).From ts where
  start := by
    unfold Span.merge
    dsimp only
    split
    · exact hb.start
    · exact ha.start
  stop := by
    unfold Span.merge
    dsimp only
    split
    · exact hb.stop
    · exact ha.stop
  le := by
    have hle := ha.le
    rw [offset_start_merge, offset_stop_merge]
    omega

end From

namespace Covers

theorem trans (h : a.Covers b) (h' : b.Covers c) : a.Covers c :=
  ⟨Nat.le_trans h.start_le h'.start_le, Nat.le_trans h'.le_stop h.le_stop⟩

/-- What covers two spans covers them joined. -/
theorem join (hb : a.Covers b) (hc : a.Covers c) : a.Covers (b.merge c) := by
  have hstart := Nat.le_min.2 ⟨hb.start_le, hc.start_le⟩
  have hstop := Nat.max_le.2 ⟨hb.le_stop, hc.le_stop⟩
  exact ⟨offset_start_merge b c ▸ hstart, offset_stop_merge b c ▸ hstop⟩

/-- Two spans joined cover what starts no earlier than the one and ends no later than
the other. -/
theorem of_merge (hstart : a.start.offset ≤ c.start.offset)
    (hstop : c.stop.offset ≤ b.stop.offset) : (a.merge b).Covers c := by
  constructor
  · rw [offset_start_merge]
    omega
  · rw [offset_stop_merge]
    omega

end Covers

end Span

/-! ## Nodes -/

/-- A node of a program. -/
inductive Node where
  | expr (e : Expr)
  | key (k : Key)
  | stmt (s : Stmt)
  | block (b : Block)
  | name (identifier : Identifier)
  | number (literal : NumberLiteral)

namespace Node

/-- Where a node stands. -/
def span : Node → Span
  | expr e => e.span
  | key k => k.span
  | stmt s => s.span
  | block b => b.span
  | name identifier => identifier.span
  | number literal => literal.span

/-- The arguments of a message box. -/
def ofBox (box : BoxArguments) : List Node :=
  box.options.toList.map number ++ box.title.toList.map expr ++ box.text.toList.map expr ++
    box.timeout.toList.map number

/-- The nodes right below a node. -/
def children : Node → List Node
  | expr (.number literal) => [number literal]
  | expr (.text _ _ _) => []
  | expr (.boolean _ _) => []
  | expr (.array elements _) => elements.map expr
  | expr (.table entries _) => entries.flatMap fun entry => [expr entry.1, expr entry.2]
  | expr (.name identifier) => [name identifier]
  | expr (.access object k _) => [expr object, key k]
  | expr (.binary _ left right _) => [expr left, expr right]
  | expr (.unary _ operand _) => [expr operand]
  | expr (.choice condition yes no _) => [expr condition, expr yes, expr no]
  | expr (.call callee args _) => name callee :: args.map expr
  | key (.member identifier) => [name identifier]
  | key (.index e) => [expr e]
  | stmt (.assign identifier value _ _) => [name identifier, expr value]
  | stmt (.store object k value _) => [expr object, key k, expr value]
  | stmt (.branch condition yes no _) => expr condition :: block yes :: no.toList.map block
  | stmt (.declare identifier params body _) => name identifier :: params.map expr ++ [block body]
  | stmt (.give value _) => value.toList.map expr
  | stmt (.box args _) => ofBox args
  | stmt (.expr e _) => [expr e]
  | block b => b.statements.map stmt
  | name _ => []
  | number _ => []

/-- Whether a node is neither a name nor a block. -/
def isPlain : Node → Bool
  | name _ | block _ => false
  | _ => true

/-- A node stands somewhere in another, or is the other. -/
inductive Within : Node → Node → Prop where
  | self (n : Node) : Within n n
  | child {m c n : Node} : c ∈ n.children → Within m c → Within m n

end Node

/-- A program has a node. -/
def Program.Has (program : Program) (n : Node) : Prop :=
  ∃ s ∈ program.statements, n.Within (.stmt s)

/-! ## Nodes in their places -/

namespace Node

/-- A node is in its place among the tokens that it is spelled with. -/
structure Placed (ts : List Token) (n : Node) : Prop where
  from' : n.span.From ts
  covers : ∀ c ∈ n.children, n.span.Covers c.span
  name : ∀ identifier, n = .name identifier →
    ∃ t ∈ ts, t.kind = .identifier ∧ identifier = t.identifier
  order : ∀ b, n = .block b →
    b.statements.Pairwise fun s u => s.span.stop.offset ≤ u.span.start.offset

/-- So are all nodes in it. -/
inductive Sound (ts : List Token) : Node → Prop where
  | mk {n : Node} : n.Placed ts → (∀ c ∈ n.children, Sound ts c) → Sound ts n

variable {ts ts' : List Token} {n m : Node}

theorem Sound.placed (h : Sound ts n) : n.Placed ts := by
  cases h with
  | mk h => exact h

theorem Sound.child {c : Node} (h : Sound ts n) (hc : c ∈ n.children) : Sound ts c := by
  cases h with
  | mk _ hchildren => exact hchildren c hc

theorem Sound.mono (h : Sound ts n) (hsub : ts ⊆ ts') : Sound ts' n := by
  induction h with
  | mk h _ ih =>
    refine .mk ⟨h.from'.mono hsub, h.covers, fun identifier he => ?_, h.order⟩ ih
    obtain ⟨t, ht, hname⟩ := h.name identifier he
    exact ⟨t, hsub ht, hname⟩

theorem Sound.within (h : Sound ts n) (hm : m.Within n) : Sound ts m := by
  induction hm with
  | self => exact h
  | child hc _ ih => exact ih (h.child hc)

end Node

/-! ## Rows -/

/-- Spans that come from tokens one behind the other, and nodes that are in their
places among these tokens. -/
structure Node.Row (ts : List Token) (ss : List Span) (ns : List Node) : Prop where
  from' : ∀ s ∈ ss, s.From ts
  order : ss.Pairwise fun a b => a.stop.offset ≤ b.start.offset
  sound : ∀ n ∈ ns, n.Sound ts

namespace Node.Row

variable {t : Token} {ts ts' : List Token} {ss ss' : List Span} {ns ns' : List Node} {n : Node}
  {a b : Span}

theorem nil : Row ts [] [] := ⟨nofun, .nil, nofun⟩

theorem mono (h : Row ts ss ns) (hsub : ts ⊆ ts') : Row ts' ss ns :=
  ⟨fun s hs => (h.from' s hs).mono hsub, h.order, fun n hn => (h.sound n hn).mono hsub⟩

/-- What is spelled with tokens one behind the other stands one behind the other. -/
theorem append (hts : InOrder (ts ++ ts')) (h : Row ts ss ns) (h' : Row ts' ss' ns') :
    Row (ts ++ ts') (ss ++ ss') (ns ++ ns') := by
  have hl := h.mono (List.subset_append_left ts ts')
  have hr := h'.mono (List.subset_append_right ts ts')
  refine ⟨fun s hs => ?_, ?_, fun n hn => ?_⟩
  · exact (List.mem_append.1 hs).elim (hl.from' s) (hr.from' s)
  · refine List.pairwise_append.2 ⟨h.order, h'.order, fun s hs u hu => ?_⟩
    exact Span.From.before hts (h.from' s hs) (h'.from' u hu)
  · exact (List.mem_append.1 hn).elim (hl.sound n) (hr.sound n)

/-- A token that no span comes from. -/
theorem skip (h : Row ts ss ns) : Row (t :: ts) ss ns := h.mono (List.subset_cons_self t ts)

/-- Tokens behind that no span comes from. -/
theorem closed (h : Row ts ss ns) : Row (ts ++ ts') ss ns :=
  h.mono (List.subset_append_left ts ts')

/-- A token in front. -/
theorem mark (hts : InOrder (t :: ts)) (h : Row ts ss ns) : Row (t :: ts) (t.span :: ss) ns := by
  have hfirst : Row [t] [t.span] [] := by
    refine ⟨fun s hs => ?_, List.pairwise_singleton _ _, nofun⟩
    rw [List.mem_singleton.1 hs]
    exact hts.head
  exact append hts hfirst h

/-- Tokens by themselves. -/
theorem marks (hts : InOrder ts) : Row ts (ts.map Token.span) [] := by
  induction ts with
  | nil => exact nil
  | cons t ts ih => exact (ih hts.tail).mark hts

/-- Spans may be left out. -/
theorem sublist (h : Row ts ss ns) (hsub : ss'.Sublist ss) : Row ts ss' ns :=
  ⟨fun s hs => h.from' s (hsub.subset hs), h.order.sublist hsub, h.sound⟩

/-- A token behind. -/
theorem close (hts : InOrder (ts ++ [t])) (h : Row ts ss ns) :
    Row (ts ++ [t]) (ss ++ [t.span]) ns := by
  have hlast : Row [t] [t.span] [] := mark hts.right nil
  have happend := append hts h hlast
  rwa [List.append_nil] at happend

/-- A name in front. -/
theorem name (hts : InOrder (t :: ts)) (hk : t.kind = .identifier) (h : Row ts ss ns) :
    Row (t :: ts) (t.span :: ss) (.name t.identifier :: ns) := by
  have hmark := h.mark hts
  refine ⟨hmark.from', hmark.order, List.forall_mem_cons.2 ⟨?_, hmark.sound⟩⟩
  refine .mk ⟨hmark.from' _ List.mem_cons_self, nofun, fun i he => ?_, nofun⟩ nofun
  cases he
  exact ⟨t, List.mem_cons_self, hk, rfl⟩

/-- The first span of a row and the last, joined, cover the whole row. -/
theorem join (h : Row ts ss ns) (ha : ss.head? = some a) (hb : ss.getLast? = some b) :
    (a.merge b).From ts ∧ ∀ c ∈ ss, (a.merge b).Covers c := by
  have hfa := h.from' a (List.mem_of_mem_head? ha)
  have hfb := h.from' b (List.mem_of_mem_getLast? hb)
  refine ⟨hfa.merge hfb, fun c hc => ?_⟩
  have hstart : a.start.offset ≤ c.start.offset := by
    cases ss with
    | nil => cases ha
    | cons d ss =>
      cases ha
      obtain rfl | hm := List.mem_cons.1 hc
      · exact Nat.le_refl _
      · exact Nat.le_trans hfa.le ((List.pairwise_cons.1 h.order).1 c hm)
  have hstop : c.stop.offset ≤ b.stop.offset := by
    obtain ⟨front, rfl⟩ := List.getLast?_eq_some_iff.1 hb
    obtain hm | hm := List.mem_append.1 hc
    · have hle := (List.pairwise_append.1 h.order).2.2 c hm b (List.mem_singleton_self b)
      exact Nat.le_trans hle hfb.le
    · rw [List.mem_singleton.1 hm]
  exact .of_merge hstart hstop

/-- A node in its place, by itself. -/
theorem alone (h : n.Sound ts) : Row ts [n.span] [n] := by
  refine ⟨fun s hs => ?_, List.pairwise_singleton _ _, fun m hm => ?_⟩
  · rw [List.mem_singleton.1 hs]
    exact h.placed.from'
  · rwa [List.mem_singleton.1 hm]

/-- A node that comes from tokens is in its place if it covers its children. -/
theorem cover (hfrom : n.span.From ts) (hplain : n.isPlain = true)
    (hc : ∀ c ∈ n.children, c.Sound ts ∧ n.span.Covers c.span) : Row ts [n.span] [n] := by
  have hname : ∀ identifier, n = .name identifier →
      ∃ t ∈ ts, t.kind = .identifier ∧ identifier = t.identifier := by
    rintro i rfl
    cases hplain
  have horder : ∀ b, n = .block b →
      b.statements.Pairwise fun s u => s.span.stop.offset ≤ u.span.start.offset := by
    rintro b rfl
    cases hplain
  exact alone (.mk ⟨hfrom, fun c hm => (hc c hm).2, hname, horder⟩ fun c hm => (hc c hm).1)

/-- **A node whose span joins a row** in which its children stand is in its place. -/
theorem node (h : Row ts ss n.children) (ha : ss.head? = some a) (hb : ss.getLast? = some b)
    (hspan : n.span = a.merge b) (hplain : n.isPlain = true)
    (hc : n.children.map Node.span ⊆ ss) : Row ts [n.span] [n] := by
  obtain ⟨hfrom, hcovers⟩ := h.join ha hb
  rw [← hspan] at hfrom hcovers
  exact cover hfrom hplain fun c hm => ⟨h.sound c hm, hcovers _ (hc (List.mem_map_of_mem hm))⟩

/-- The same for one child at the node's own place. -/
theorem only (h : Row ts [a] n.children) (hspan : n.span = a) (hplain : n.isPlain = true)
    (hc : n.children.map Node.span ⊆ [a]) : Row ts [a] [n] := by
  have hrow := h.node rfl rfl (hspan.trans (Span.merge_self a).symm) hplain hc
  rwa [hspan] at hrow

/-- A literal that is a token by itself. -/
theorem single (hts : InOrder [t]) (hspan : n.span = t.span) (hplain : n.isPlain = true)
    (hc : n.children = []) : Row [t] [t.span] [n] := by
  have hrow : Row [t] [t.span] n.children := hc ▸ nil.mark hts
  exact hrow.only hspan hplain (by rw [hc]; exact List.nil_subset _)

/-- A block whose span joins a row in which its statements stand. -/
theorem block {statements : List Stmt} {span : Span} (h : Row ts ss (statements.map .stmt))
    (ha : ss.head? = some a) (hb : ss.getLast? = some b) (hspan : span = a.merge b)
    (hc : ((statements.map Node.stmt).map Node.span).Sublist ss) :
    Row ts [span] [.block (.mk statements span)] := by
  obtain ⟨hfrom, hcovers⟩ := h.join ha hb
  rw [← hspan] at hfrom hcovers
  refine alone (n := .block (.mk statements span)) (.mk ⟨hfrom, fun c hm => ?_, ?_, ?_⟩ h.sound)
  · exact hcovers _ (hc.subset (List.mem_map_of_mem hm))
  · rintro i ⟨⟩
  · rintro b ⟨⟩
    exact List.pairwise_map.1 (List.pairwise_map.1 (h.order.sublist hc))

/-- A value and a place to put it. The object and the key stand in what was read as
an access to begin with. -/
theorem store {object value : Expr} {key : Key} {span : Span}
    (h : Row ts [span, value.span] [.expr (.access object key span), .expr value]) :
    Row ts [span.merge value.span] [.stmt (.store object key value (span.merge value.span))] := by
  have haccess := h.sound _ List.mem_cons_self
  have hvalue := h.sound _ (List.mem_cons_of_mem _ List.mem_cons_self)
  obtain ⟨hfrom, hcovers⟩ := h.join rfl rfl
  have hwhole := hcovers span List.mem_cons_self
  have hchild {c : Node} (hc : c ∈ (Node.expr (.access object key span)).children) :
      c.Sound ts ∧ (span.merge value.span).Covers c.span :=
    ⟨haccess.child hc, hwhole.trans (haccess.placed.covers _ hc)⟩
  let whole : Node := .stmt (.store object key value (span.merge value.span))
  refine cover (n := whole) hfrom rfl fun c hc => ?_
  obtain rfl | rfl | rfl : c = .expr object ∨ c = .key key ∨ c = .expr value := by
    simpa [whole, children] using hc
  · exact hchild List.mem_cons_self
  · exact hchild (List.mem_cons_of_mem _ List.mem_cons_self)
  · exact ⟨hvalue, hcovers _ (List.mem_cons_of_mem _ List.mem_cons_self)⟩

/-- A number by itself. -/
theorem number (hts : InOrder [t]) {literal : NumberLiteral} (hn : t.number? = .ok literal) :
    Row [t] [literal.span] [.expr (.number literal)] := by
  have hmark : Row [t] [literal.span] [] := by
    rw [Token.span_of_number? hn]
    exact nil.mark hts
  have hnumber : Row [t] [literal.span] [.number literal] :=
    hmark.only rfl rfl (List.nil_subset _)
  exact hnumber.only rfl rfl (List.Subset.refl _)

end Node.Row

/-! ## Message boxes -/

namespace BoxArguments

variable {args : List Token} {box : BoxArguments} {t : Token}

/-- An argument of a box that joins the spans of raw arguments. -/
structure Joins (args : List Token) (c : Node) : Prop where
  children : c.children = []
  isPlain : c.isPlain = true
  span : ∃ t ∈ args, ∃ u ∈ args, c.span = t.span.merge u.span

theorem joins_number {literal : NumberLiteral} (ht : t ∈ args) (h : literal.span = t.span) :
    Joins args (.number literal) :=
  ⟨rfl, rfl, t, ht, t, ht, h.trans (Span.merge_self _).symm⟩

theorem joins_text (ht : t ∈ args) : Joins args (.expr (asText t)) :=
  ⟨rfl, rfl, t, ht, t, ht, (Span.merge_self _).symm⟩

theorem mem_of_given? {i : Nat} (h : given? args i = some t) : t ∈ args := by
  rw [given?, Option.filter_eq_some_iff] at h
  exact List.mem_of_getElem? h.1

theorem span_of_asNumber {which : BoxNumber} {literal : NumberLiteral}
    (h : asNumber which t = .ok literal) : literal.span = t.span := by
  unfold asNumber at h
  split at h <;> cases h <;> rfl

theorem joins_positional (h : positional args = .ok box) : ∀ c ∈ Node.ofBox box, Joins args c := by
  unfold positional at h
  split at h
  next => cases h
  next =>
    obtain ⟨options, hoptions, h⟩ := bind_eq_ok_iff.1 h
    obtain ⟨timeout, htimeout, h⟩ := bind_eq_ok_iff.1 h
    cases h
    have hnumber {which : BoxNumber} {i : Nat} {o : Option NumberLiteral}
        (h : (given? args i).mapM (asNumber which) = .ok o) :
        ∀ c ∈ o.toList.map Node.number, Joins args c := by
      intro c hc
      obtain ⟨literal, hl, rfl⟩ := List.mem_map.1 hc
      obtain ⟨t, ht, hf⟩ := exists_of_mapM_ok h (Option.mem_toList.1 hl)
      exact joins_number (mem_of_given? ht) (span_of_asNumber hf)
    have htext (i : Nat) : ∀ c ∈ ((given? args i).map asText).toList.map Node.expr,
        Joins args c := by
      intro c hc
      obtain ⟨e, he, rfl⟩ := List.mem_map.1 hc
      obtain ⟨t, ht, rfl⟩ := Option.map_eq_some_iff.1 (Option.mem_toList.1 he)
      exact joins_text (mem_of_given? ht)
    intro c hc
    simp only [Node.ofBox, List.mem_append] at hc
    obtain ((hc | hc) | hc) | hc := hc
    · exact hnumber hoptions c hc
    · exact htext 1 c hc
    · exact htext 2 c hc
    · exact hnumber htimeout c hc

/-- **Whatever raw arguments mean** joins their spans. -/
theorem joins_ofSegments (h : ofSegments args = .ok box) : ∀ c ∈ Node.ofBox box, Joins args c := by
  unfold ofSegments at h
  split at h
  next => cases h; exact fun c hc => absurd hc List.not_mem_nil
  next first rest =>
    split at h
    next => exact joins_positional h
    next =>
      cases h
      intro c hc
      have hc : c = .expr (joined (first :: rest)) := List.mem_singleton.1 hc
      have hlast : (first :: rest).getLast? =
          some ((first :: rest).getLast (List.cons_ne_nil _ _)) :=
        List.getLast?_eq_some_getLast _
      rw [hc, joined, hlast]
      exact ⟨rfl, rfl, first, List.mem_cons_self, _, List.getLast_mem _, rfl⟩

/-- A box with raw arguments is in its place. -/
theorem Line.inRow {word : Token} {line : List Token} (hline : Line args line)
    (hbox : ofSegments args = .ok box) (hts : InOrder (word :: line)) :
    Node.Row (word :: line) [spanOf word args] [.stmt (.box box (spanOf word args))] := by
  have hsub : (args.map Token.span).Sublist (line.map Token.span) := by
    rw [← hline.args_eq]
    exact List.filter_sublist.map _
  have hrow := ((Node.Row.marks hts.tail).sublist hsub).mark hts
  cases hlast : args.getLast? with
  | none =>
    obtain rfl := List.getLast?_eq_none_iff.1 hlast
    cases hbox
    exact hrow.only rfl rfl (List.nil_subset _)
  | some last =>
    have hspan : spanOf word args = word.span.merge last.span := by
      rw [spanOf, hlast]
      rfl
    have hend : (word.span :: args.map Token.span).getLast? = some last.span := by
      rw [List.getLast?_cons, List.getLast?_map, hlast]
      rfl
    obtain ⟨hfrom, hcovers⟩ := hrow.join rfl hend
    rw [hspan]
    let whole : Node := .stmt (.box box (word.span.merge last.span))
    refine Node.Row.cover (n := whole) hfrom rfl fun c hc => ?_
    obtain ⟨hchildren, hplain, t, ht, u, hu, hc⟩ := joins_ofSegments hbox c hc
    have htm := List.mem_cons_of_mem word.span (List.mem_map_of_mem (f := Token.span) ht)
    have hum := List.mem_cons_of_mem word.span (List.mem_map_of_mem (f := Token.span) hu)
    have hcfrom : c.span.From (word :: line) := hc ▸ (hrow.from' _ htm).merge (hrow.from' _ hum)
    have hcrow : Node.Row (word :: line) [c.span] [c] :=
      .cover hcfrom hplain fun d hd => absurd hd (hchildren ▸ List.not_mem_nil)
    refine ⟨hcrow.sound c (List.mem_singleton_self c), ?_⟩
    rw [hc]
    exact (hcovers _ htm).join (hcovers _ hum)

end BoxArguments

/-- The nodes of a part of a program. -/
def Phrase.nodes : Phrase → List Node
  | expr e => [.expr e]
  | exprs es => es.map .expr
  | entry e => [.expr e.1, .expr e.2]
  | entries es => es.flatMap fun e => [.expr e.1, .expr e.2]
  | stmt s => [.stmt s]
  | stmts ss => ss.map .stmt
  | block b => [.block b]
  | arm b => [.block b]

/-- The nodes of a part of a program stand in a row among its tokens. -/
def Phrase.InRow (phrase : Phrase) (ts : List Token) : Prop :=
  Node.Row ts (phrase.nodes.map Node.span) phrase.nodes

open Node in
theorem Phrase.Spelled.inRow {phrase : Phrase} {ts : List Token} (h : Spelled phrase ts)
    (hts : InOrder ts) : phrase.InRow ts := by
  have hinner (a b : Span) (ss : List Span) : ss ⊆ a :: ss ++ [b] :=
    fun s hs => List.mem_append_left [b] (List.mem_cons_of_mem a hs)
  have hself (ss : List Span) : ss ⊆ ss := List.Subset.refl ss
  induction h with
  | number hn =>
    exact Row.number hts hn
  | quoted hk => exact Row.single hts rfl rfl rfl
  | boolean hk => exact Row.single hts rfl rfl rfl
  | name hk => exact (Row.nil.name hts hk).only rfl rfl (hself _)
  | call hk ho _ hc ih =>
    have hrow := ((ih hts.left.tail.tail).skip.name hts.left hk).close hts
    exact hrow.node rfl List.getLast?_concat rfl rfl (List.subset_append_left _ _)
  | paren ho _ hc ih => exact (ih hts.left.tail).skip.closed
  | array ho _ hc ih =>
    have hrow := ((ih hts.left.tail).mark hts.left).close hts
    exact hrow.node rfl List.getLast?_concat rfl rfl (hinner _ _ _)
  | table ho _ hc ih =>
    have hrow := ((ih hts.left.tail).mark hts.left).close hts
    exact hrow.node rfl List.getLast?_concat rfl rfl (hinner _ _ _)
  | @member object front dot t _ hd hk ih =>
    have hkey : Row [t] [t.span] [.key (.member t.identifier)] :=
      (Row.nil.name hts.right.tail hk).only rfl rfl (hself _)
    have hrow := Row.append hts (ih hts.left) hkey.skip
    exact hrow.node rfl rfl rfl rfl (hself _)
  | @place object front dot t literal _ hd hn ih =>
    have hkey : Row [t] [literal.span] [.key (.index (.number literal))] :=
      (Row.number hts.right.tail hn).only rfl rfl (hself _)
    have hrow := Row.append hts (ih hts.left) hkey.skip
    have hspan := congrArg object.span.merge (Token.span_of_number? hn).symm
    exact hrow.node rfl rfl hspan rfl (hself _)
  | @index object key front mid _ _ _ ho _ hc ih ih' =>
    have hkey : Row mid [key.span] [.key (.index key)] := by
      have hrow : Row mid [key.span] [.expr key] := ih' hts.left.right.tail
      exact hrow.only rfl rfl (hself _)
    have hrow := (Row.append hts.left (ih hts.left.left) hkey.skip).close hts
    exact hrow.node rfl rfl rfl rfl (List.subset_append_left _ _)
  | unary hop _ ih =>
    have hrow := (ih hts.tail).mark hts
    exact hrow.node rfl rfl rfl rfl (List.subset_cons_self _ _)
  | binary _ hop _ ih ih' =>
    have hrow := Row.append hts (ih hts.left) (ih' hts.right.tail).skip
    exact hrow.node rfl rfl rfl rfl (hself _)
  | choice _ hq _ hc _ ih ih' ih'' =>
    have hfront := Row.append hts.left (ih hts.left.left) (ih' hts.left.right.tail).skip
    have hrow := Row.append hts hfront (ih'' hts.right.tail).skip
    exact hrow.node rfl rfl rfl rfl (hself _)
  | noExprs => exact .nil
  | oneExpr _ ih => exact ih hts
  | moreExprs _ hc _ ih ih' => exact .append hts (ih hts.left) (ih' hts.right.tail).skip
  | entry _ hc _ ih ih' => exact .append hts (ih hts.left) (ih' hts.right.tail).skip
  | @namedEntry t colon value back hk hc _ ih =>
    have hts : InOrder ([t] ++ colon :: back) := hts
    have hkey : Row [t] [t.span] [.expr (.text t.lexeme false t.span)] :=
      Row.single hts.left rfl rfl rfl
    exact Row.append hts hkey (ih hts.right.tail).skip
  | noEntries => exact .nil
  | oneEntry _ ih => exact ih hts
  | moreEntries _ hc _ ih ih' => exact .append hts (ih hts.left) (ih' hts.right.tail).skip
  | assign hk hs _ ih =>
    have hrow := (ih hts.tail.tail).skip.name hts hk
    exact hrow.node rfl rfl rfl rfl (hself _)
  | @assignRaw t sign text hk hs ht =>
    have hvalue : Row [text] [text.span] [.expr (.text text.lexeme true text.span)] :=
      Row.single hts.tail.tail rfl rfl rfl
    have hrow := hvalue.skip.name hts hk
    exact hrow.node rfl rfl rfl rfl (hself _)
  | assignGlobal hw hk hs _ ih =>
    have hrow := ((ih hts.tail.tail.tail).skip.name hts.tail hk).mark hts
    exact hrow.node rfl rfl rfl rfl (List.subset_cons_self _ _)
  | store _ hs _ ih ih' => exact (Row.append hts (ih hts.left) (ih' hts.right.tail).skip).store
  | @bare e mid _ ih =>
    have hrow : Row mid [e.span] [.expr e] := ih hts
    exact hrow.only rfl rfl (hself _)
  | giveNothing hw => exact Row.single hts rfl rfl rfl
  | give hw _ ih =>
    have hrow := (ih hts.tail).mark hts
    exact hrow.node rfl rfl rfl rfl (List.subset_cons_self _ _)
  | boxExpr hw hp _ ih =>
    have hrow := (ih hts.tail.tail).skip.mark hts
    exact hrow.node rfl rfl rfl rfl (List.subset_cons_self _ _)
  | boxLine hw hline hbox => exact hline.inRow hbox hts
  | branch hw _ he _ ih ih' =>
    have hrow := Row.append hts ((ih hts.left.left.tail).mark hts.left.left).closed (ih' hts.right)
    exact hrow.node rfl rfl rfl rfl (List.subset_cons_self _ _)
  | branchElse hw _ he _ he' ho he'' _ ih ih' ih'' =>
    have hcond := (ih hts.left.left.left.left.left.tail).mark hts.left.left.left.left.left
    have hyes := Row.append hts.left.left.left hcond.closed (ih' hts.left.left.left.right)
    have hrow := Row.append hts hyes.closed.closed (ih'' hts.right)
    exact hrow.node rfl rfl rfl rfl (List.subset_cons_self _ _)
  | arm _ ih => exact ih hts
  | @furtherIf s mid _ ih =>
    have hrow : Row mid [s.span] ([s].map .stmt) := ih hts
    exact hrow.block rfl rfl (Span.merge_self _).symm (List.Sublist.refl _)
  | declare hk ho _ hc he _ ih ih' =>
    have hparams := (ih hts.left.left.tail.tail).skip.name hts.left.left hk
    have hrow := Row.append hts hparams.closed (ih' hts.right)
    refine hrow.node rfl List.getLast?_concat rfl rfl ?_
    rw [children, List.map_append]
    exact hself _
  | noStmts => exact .nil
  | moreStmts _ _ ih ih' => exact .append hts (ih hts.left) (ih' hts.right)
  | lineEnd hk _ ih => exact (ih hts.tail).skip
  | comment ho hc _ ih => exact (ih hts.tail.tail).skip.skip
  | @block opener closer ss mid ho _ hc ih =>
    have hrow := ((ih hts.left.tail).mark hts.left).close hts
    -- the statements' spans are the row without the braces
    exact hrow.block rfl List.getLast?_concat rfl
      ((List.sublist_cons_self opener.span _).trans (List.sublist_append_left _ [closer.span]))

/-! ## Whole programs -/

/-- **The spans of a program in a text.** Every node stands in the text and covers
the nodes right below it; a name is what stands at its span; and statements next to
each other, of the program or of a block, stand one behind the other. -/
structure Program.Spanned (program : Program) (cs : List Char) : Prop where
  places : ∀ n, program.Has n → n.span.In cs
  covers : ∀ n, program.Has n → ∀ c ∈ n.children, n.span.Covers c.span
  names : ∀ identifier, program.Has (.name identifier) → identifier.name.toList =
    Text.between cs identifier.span.start.offset identifier.span.stop.offset
  statements : program.statements.Pairwise fun s u => s.span.stop.offset ≤ u.span.start.offset
  blocks : ∀ b, program.Has (.block b) →
    b.statements.Pairwise fun s u => s.span.stop.offset ≤ u.span.start.offset

theorem inOrder_of_tokenize {text : String} {ts : List Token} (h : tokenize text = .ok ts) :
    InOrder ts :=
  ⟨pairwise_of_tokenize h, fun t ht => (in_of_tokenize h t ht).le⟩

/-- A program was made of the tokens of its text. -/
theorem Source.exists_tokens_of_program {source : Source} {program : Program}
    (h : source.program = .ok program) :
    ∃ tokens, tokenize source.text = .ok tokens ∧ Program.ofTokens tokens = .ok program := by
  obtain ⟨tokens, htokens, h⟩ := bind_eq_ok_iff.1 h
  rw [Source.tokens] at htokens
  rw [Source.programOf] at h
  cases ht : tokenize source.text with
  | error e => rw [ht] at htokens; cases htokens
  | ok ts =>
    rw [ht] at htokens
    cases htokens
    cases hp : Program.ofTokens tokens with
    | error e => rw [hp] at h; cases h
    | ok p => rw [hp] at h; cases h; exact ⟨tokens, rfl, hp⟩

/-- **The spans of every program that is read** are as they should be. -/
theorem Program.spanned_of_program {source : Source} {program : Program}
    (h : source.program = .ok program) : program.Spanned source.text.toList := by
  obtain ⟨tokens, ht, hp⟩ := Source.exists_tokens_of_program h
  have hsub : (tokens.drop 1).dropLast.Sublist tokens :=
    (List.dropLast_sublist _).trans (List.drop_sublist 1 tokens)
  have hrow : Node.Row (tokens.drop 1).dropLast _ (program.statements.map Node.stmt) :=
    (spelled_ofTokens hp).inRow ((inOrder_of_tokenize ht).sublist hsub)
  have hsound {n : Node} (hn : program.Has n) : n.Sound tokens := by
    obtain ⟨s, hs, hwithin⟩ := hn
    exact ((hrow.sound _ (List.mem_map_of_mem hs)).mono hsub.subset).within hwithin
  refine ⟨fun n hn => ?_, fun n hn => (hsound hn).placed.covers, fun i hi => ?_, ?_, fun b hb =>
    (hsound hb).placed.order b rfl⟩
  · obtain ⟨⟨t, htm, hstart⟩, ⟨u, hum, hstop⟩, hle⟩ := (hsound hn).placed.from'
    refine ⟨?_, ?_, hle⟩
    · rw [hstart]
      exact (in_of_tokenize ht t htm).start
    · rw [hstop]
      exact (in_of_tokenize ht u hum).stop
  · obtain ⟨t, htm, hk, rfl⟩ := (hsound hi).placed.name i rfl
    have hquoted : t.kind ≠ .quoted := by rw [hk]; exact nofun
    have hraw : t.kind ≠ .raw := by rw [hk]; exact nofun
    exact lexeme_of_tokenize ht t htm hquoted hraw
  · exact List.pairwise_map.1 (List.pairwise_map.1 hrow.order)

/-- A function with a further `if`, called in a message box, and a box with raw
arguments. -/
theorem Program.spanned_of_program_functionThenBoxes :
    let source : Source := ⟨"main",
      "f(n)\n\x7b\nif n \x7b return \x7ba: n.b, 1: [0x2, \"t\"]\x7d \x7d\n" ++
      "else if not n \x7b n.b := 1\nx = raw\n\x7d\n\x7d\n" ++
      "MsgBox % f(1.5)[k] . y ? -z : 0\nMsgBox, 1, a, b"⟩
    ∃ program, source.program = .ok program ∧ program.statements.length = 3 ∧
      program.Spanned source.text.toList := by
  intro source
  have hall : source.program.toOption.map (·.statements.length) = some 3 := by decide +kernel
  cases hp : source.program with
  | error e => rw [hp] at hall; cases hall
  | ok program =>
    rw [hp] at hall
    exact ⟨program, rfl, Option.some.inj hall, spanned_of_program hp⟩

end HotkeyScript
