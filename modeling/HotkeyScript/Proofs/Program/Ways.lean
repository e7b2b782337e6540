import HotkeyScript.Proofs.Program.Spans
/-!
# Programs — ways down a node

A way down from a node goes along edges, and some of them lead one level deeper: into a
block in braces, to an element, an entry, an argument, a key, an arm of a choice or the
operand of a sign. How many of these a way may go along is how deep a node nests
(`Node.NestsIn`), and a node nests no deeper than its edges have place for what is
right below it (`Node.NestsIn.of_edges`).

The edge to the `if` of an `else if` leads no level deeper. The block that stands for it
in the program is made of that `if` alone and has its span (`Block.isElseIf`).
-/

namespace HotkeyScript

/-- Whether a block stands for the `if` of an `else if`: it is made of that `if` alone
and has its span. -/
def Block.isElseIf : Block → Bool
  | .mk [.branch _ _ _ inner] span => inner == span
  | _ => false

namespace Node

/-- Where the edge to a node right below another leads. -/
inductive Edge where
  /-- to a part on the same level -/
  | along
  /-- a level deeper -/
  | inward
  /-- to the `if` of an `else if` -/
  | onward
deriving DecidableEq

/-- The edge to what stands behind an `else`. -/
def Edge.ofElse (no : Block) : Edge := if no.isElseIf then .onward else .inward

/-- The nodes right below a node, each with the edge to it. -/
def edges : Node → List (Edge × Node)
  | expr (.array elements _) => elements.map fun e => (.inward, expr e)
  | expr (.table entries _) =>
    entries.flatMap fun entry => [(.inward, expr entry.1), (.inward, expr entry.2)]
  | expr (.unary _ operand _) => [(.inward, expr operand)]
  | expr (.choice condition yes no _) =>
    [(.along, expr condition), (.inward, expr yes), (.inward, expr no)]
  | expr (.call callee args _) => (.along, name callee) :: args.map fun e => (.inward, expr e)
  | key (.index e) => [(.inward, expr e)]
  | stmt (.branch condition yes no _) =>
    (.along, expr condition) :: (.inward, block yes) ::
      no.toList.map fun no => (.ofElse no, block no)
  | stmt (.declare identifier params body _) =>
    (.along, name identifier) :: params.map (fun e => (.along, expr e)) ++ [(.inward, block body)]
  | n => n.children.map fun c => (.along, c)

/-- To every node right below another leads one edge. -/
theorem map_snd_edges (n : Node) : n.edges.map Prod.snd = n.children := by
  unfold edges
  split <;> simp [children, List.map_flatMap, Function.comp_def]

/-- A way down from a node to one below it, by its edges. -/
inductive Path : Node → List Edge → Node → Prop
  | here (n : Node) : Path n [] n
  | step {n c m : Node} {edge : Edge} {way : List Edge} :
      (edge, c) ∈ n.edges → Path c way m → Path n (edge :: way) m

/-- Whether there is a way down by these edges. -/
def leads : List Edge → Node → Bool
  | [], _ => true
  | edge :: way, n => n.edges.any fun below => below.1 == edge && leads way below.2

theorem leads_iff {way : List Edge} {n : Node} : leads way n = true ↔ ∃ m, n.Path way m := by
  induction way generalizing n with
  | nil => exact ⟨fun _ => ⟨n, .here n⟩, fun _ => rfl⟩
  | cons edge way ih =>
    simp only [leads, List.any_eq_true, Bool.and_eq_true, beq_iff_eq, ih]
    constructor
    · rintro ⟨⟨_, c⟩, hmem, rfl, m, hway⟩
      exact ⟨m, .step hmem hway⟩
    · rintro ⟨m, _ | ⟨hmem, hway⟩⟩
      exact ⟨_, hmem, rfl, m, hway⟩

/-- No way down from a node leads through more levels. -/
def NestsIn (levels : Nat) (n : Node) : Prop :=
  ∀ way m, n.Path way m → way.count .inward ≤ levels

/-- A node has a place one level deeper. -/
def NestsBelow (levels : Nat) (n : Node) : Prop := ∃ left, levels = left + 1 ∧ n.NestsIn left

/-- A node has a place at an edge. -/
def Fits (levels : Nat) (edge : Edge) (n : Node) : Prop :=
  if edge = .inward then n.NestsBelow levels else n.NestsIn levels

variable {levels : Nat} {n : Node}

theorem NestsIn.mono {left : Nat} (h : n.NestsIn left) (hle : left ≤ levels) : n.NestsIn levels :=
  fun way m hway => Nat.le_trans (h way m hway) hle

/-- What has a place one level deeper has one here. -/
theorem NestsBelow.nestsIn (h : n.NestsBelow levels) : n.NestsIn levels := by
  obtain ⟨left, rfl, h⟩ := h
  exact h.mono (Nat.le_succ left)

/-- **A node nests no deeper than there is place for what is right below it.** -/
theorem NestsIn.of_edges (h : ∀ below ∈ n.edges, below.2.Fits levels below.1) :
    n.NestsIn levels := by
  intro way m hway
  cases hway with
  | here => exact Nat.zero_le _
  | @step _ c _ edge way hmem hway =>
    have hc := h _ hmem
    unfold Fits at hc
    split at hc
    next hedge =>
      obtain ⟨left, rfl, hc⟩ := hc
      rw [show edge = .inward from hedge, List.count_cons_self]
      exact Nat.succ_le_succ (hc way m hway)
    next hedge =>
      rw [List.count_cons_of_ne hedge]
      exact hc way m hway

/-- A block behind `else` has a place if there is one a level deeper for it. -/
theorem NestsBelow.fits_ofElse {no : Block} (h : (block no).NestsBelow levels) :
    (block no).Fits levels (.ofElse no) := by
  unfold Fits Edge.ofElse
  cases no.isElseIf with
  | true => exact h.nestsIn
  | false => exact h

/-- The `if` of an `else if` has a place on its own level. -/
theorem NestsIn.fits_ofElse {no : Block} (h : (block no).NestsIn levels)
    (helseIf : no.isElseIf = true) : (block no).Fits levels (.ofElse no) := by
  unfold Fits Edge.ofElse
  rw [if_pos helseIf, if_neg nofun]
  exact h

/-- Parts on the same level. -/
theorem NestsIn.of_children (hedges : n.edges = n.children.map fun c => (.along, c))
    (h : ∀ c ∈ n.children, c.NestsIn levels) : n.NestsIn levels := by
  refine .of_edges ?_
  rw [hedges]
  exact List.forall_mem_map.2 fun c hc => h c hc

/-- A part on the same level nests no deeper. -/
theorem NestsIn.part {c : Node} (h : n.NestsIn levels) (hc : (.along, c) ∈ n.edges) :
    c.NestsIn levels := by
  intro way m hway
  have hle := h _ m (.step hc hway)
  have hne : Edge.along ≠ .inward := nofun
  rwa [List.count_cons_of_ne hne] at hle

/-- What has nothing below it. -/
theorem NestsIn.leaf (h : n.children = []) : n.NestsIn levels := by
  have hedges : n.edges = [] := List.map_eq_nil_iff.1 (n.map_snd_edges.trans h)
  exact .of_edges fun below hbelow => absurd (hedges ▸ hbelow) List.not_mem_nil

end Node

end HotkeyScript
