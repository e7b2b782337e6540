import HotkeyScript.Proofs.OrderedMap
import HotkeyScript.Scope.Table
/-!
# Names after a write

A write to a symbol table is seen under every spelling of its name and under
no other name (`SymbolTable.binding?_set`). `SymbolTable.GlobalsOnly` says
that one table came from another by writes to global names alone: what it
holds without the flag it held before, and no name is gone.
-/

namespace HotkeyScript

/-! ## Symbol tables -/

/-- Names are one when they fold to one text. -/
theorem Name.beq_iff {a b : Name} : (a == b) = true ↔ a.folded = b.folded :=
  show (a.folded == b.folded) = true ↔ _ from beq_iff_eq

instance : EquivBEq Name where
  rfl := Name.beq_iff.2 rfl
  symm h := Name.beq_iff.2 (Name.beq_iff.1 h).symm
  trans h h' := Name.beq_iff.2 ((Name.beq_iff.1 h).trans (Name.beq_iff.1 h'))

/-- A name is that of its spelling. -/
theorem Name.of_spelling (n : Name) : Name.of n.spelling = n := by
  obtain ⟨spelling, folded, rfl⟩ := n
  rfl

namespace SymbolTable

/-- **A name after a write**: the written name keeps its first spelling and
stays global if it was, and every other name is as it was. -/
theorem binding?_set (t : SymbolTable) (name name' : String) (v : Value) (isGlobal : Bool) :
    (t.set name v isGlobal).binding? name' =
      if Name.of name == Name.of name' then
        let old := t.binding? name
        let flagged := (old.map Binding.isGlobal).getD false
        some ⟨(old.map Binding.name).getD name, v, flagged || isGlobal⟩
      else t.binding? name' := by
  unfold binding? set
  rw [OrderedMap.entry?_alter]
  split
  · cases t.slots.entry? (.of name) <;> rfl
  · rfl

/-- **Only global names differ.** A name that `u` holds unflagged `t` holds
just so, and what `t` holds is still there, spelled as it was. -/
structure GlobalsOnly (t u : SymbolTable) : Prop where
  unflagged : ∀ name b, u.binding? name = some b → b.isGlobal = false → t.binding? name = some b
  kept : ∀ name b, t.binding? name = some b →
    ∃ b', u.binding? name = some b' ∧ b'.name = b.name ∧ (b.isGlobal = true → b'.isGlobal = true)

theorem GlobalsOnly.refl (t : SymbolTable) : t.GlobalsOnly t :=
  ⟨fun _ _ h _ => h, fun _ b h => ⟨b, h, rfl, id⟩⟩

theorem GlobalsOnly.trans {t u w : SymbolTable} (h : t.GlobalsOnly u) (h' : u.GlobalsOnly w) :
    t.GlobalsOnly w := by
  refine ⟨fun name b hb hg => h.unflagged name b (h'.unflagged name b hb hg) hg, ?_⟩
  intro name b hb
  obtain ⟨b', hb', hn, hg⟩ := h.kept name b hb
  obtain ⟨b'', hb'', hn', hg'⟩ := h'.kept name b' hb'
  exact ⟨b'', hb'', hn'.trans hn, fun hbg => hg' (hg hbg)⟩

/-- Spellings of one name have one binding. -/
theorem binding?_congr (t : SymbolTable) {name name' : String}
    (h : Name.of name == Name.of name') : t.binding? name = t.binding? name' := by
  have hf : (Name.of name).folded = (Name.of name').folded := Name.beq_iff.1 h
  have he (e : Name × Slot) : (e.1 == Name.of name) = (e.1 == Name.of name') :=
    congrArg (e.1.folded == ·) hf
  unfold binding? OrderedMap.entry?
  simp only [he]

theorem get?_eq (t : SymbolTable) (name : String) :
    t.get? name = (t.binding? name).map Binding.value := by
  unfold get? binding? OrderedMap.get? OrderedMap.entry?
  rw [Option.map_map, Option.map_map]
  rfl

theorem contains_eq (t : SymbolTable) (name : String) :
    t.contains name = (t.get? name).isSome := by
  unfold contains get? OrderedMap.contains OrderedMap.get? OrderedMap.entry?
  rw [Option.isSome_map, Option.isSome_map]

/-- A written name has its value, under every spelling. -/
theorem get?_set {name name' : String} (t : SymbolTable) (h : Name.of name == Name.of name')
    (v : Value) (isGlobal : Bool) : (t.set name v isGlobal).get? name' = some v := by
  rw [get?_eq, binding?_set, if_pos h]
  rfl

/-- Spellings of one name have one value. -/
theorem get?_congr (t : SymbolTable) {name name' : String} (h : Name.of name == Name.of name') :
    t.get? name = t.get? name' := by
  rw [get?_eq, get?_eq, binding?_congr t h]

/-- A write that declares its name global touches global names only. -/
theorem globalsOnly_set (t : SymbolTable) (name : String) (v : Value) :
    t.GlobalsOnly (t.set name v true) := by
  constructor
  · intro name' b hb hg
    rw [binding?_set] at hb
    split at hb
    · -- the name that was written is flagged
      cases hb
      simp at hg
    · exact hb
  · intro name' b hb
    rw [binding?_set]
    split
    next h =>
      rw [binding?_congr t h, hb]
      exact ⟨_, rfl, rfl, fun hg => by simp⟩
    next => exact ⟨b, hb, rfl, id⟩

/-! ## Bindings in their order -/

/-- **What a write does to bindings**: the one of its name is written in its place,
keeping its spelling and its flag, or no name is like it and one is put at the end. -/
inductive Rewritten (name : String) (v : Value) (isGlobal : Bool) :
    List Binding → List Binding → Prop where
  | changed (before : List Binding) (b : Binding) (after : List Binding) :
      (∀ d ∈ before, (Name.of d.name == Name.of name) = false) →
      (Name.of b.name == Name.of name) = true →
      Rewritten name v isGlobal (before ++ b :: after)
        (before ++ ⟨b.name, v, b.isGlobal || isGlobal⟩ :: after)
  | added (bs : List Binding) :
      (∀ d ∈ bs, (Name.of d.name == Name.of name) = false) →
      Rewritten name v isGlobal bs (bs ++ [⟨name, v, isGlobal⟩])

theorem rewritten_set (t : SymbolTable) (name : String) (v : Value) (isGlobal : Bool) :
    Rewritten name v isGlobal t.bindings (t.set name v isGlobal).bindings := by
  have hother (es : List (Name × Slot)) (hes : ∀ e ∈ es, (e.1 == Name.of name) = false) :
      ∀ d ∈ es.map fun e => (⟨e.1.spelling, e.2.value, e.2.isGlobal⟩ : Binding),
        (Name.of d.name == Name.of name) = false := by
    intro d hd
    obtain ⟨e, he, rfl⟩ := List.mem_map.1 hd
    rw [Name.of_spelling]
    exact hes e he
  have hset : (t.set name v isGlobal).slots.entries = OrderedMap.alterEntries (.of name)
      (fun old => ⟨v, (old.map Slot.isGlobal).getD false || isGlobal⟩) t.slots.entries := rfl
  have haltered := OrderedMap.altered_alterEntries (.of name)
    (fun old : Option Slot => (⟨v, (old.map Slot.isGlobal).getD false || isGlobal⟩ : Slot))
    t.slots.entries
  unfold bindings
  rw [hset]
  generalize OrderedMap.alterEntries _ _ t.slots.entries = es' at haltered ⊢
  generalize t.slots.entries = es at haltered ⊢
  cases haltered with
  | changed before e after hbefore he =>
    rw [List.map_append, List.map_cons, List.map_append, List.map_cons]
    refine .changed _ _ _ (hother before hbefore) ?_
    rw [Name.of_spelling]
    exact he
  | added _ hes =>
    rw [List.map_append]
    exact .added _ (hother es hes)

/-- A written table has no flags but those it had and the one it was written with. -/
theorem Rewritten.flags {name : String} {v : Value} {isGlobal : Bool} {bs bs' : List Binding}
    (h : Rewritten name v isGlobal bs bs') (hbs : ∀ b ∈ bs, b.isGlobal = false)
    (hflag : isGlobal = false) : ∀ b ∈ bs', b.isGlobal = false := by
  intro b hb
  cases h with
  | changed before d after _ _ =>
    have hd : d.isGlobal = false := hbs d (by simp)
    rcases List.mem_append.1 hb with hb | hb
    · exact hbs b (List.mem_append_left _ hb)
    · rcases List.mem_cons.1 hb with rfl | hb
      · rw [hd, hflag]
        rfl
      · exact hbs b (by simp [hb])
  | added _ _ =>
    rcases List.mem_append.1 hb with hb | hb
    · exact hbs b hb
    · rw [List.mem_singleton.1 hb]
      exact hflag

/-- A name is flagged when its binding is. -/
theorem isGlobal_eq (t : SymbolTable) (name : String) :
    t.isGlobal name = ((t.binding? name).map Binding.isGlobal).getD false := by
  unfold isGlobal binding? OrderedMap.get? OrderedMap.entry?
  rw [Option.map_map, Option.map_map]
  rfl

/-- A name that is flagged stays so. -/
theorem isGlobal_set {t : SymbolTable} {name : String} (h : t.isGlobal name = true)
    (name' : String) (v : Value) (isGlobal : Bool) :
    (t.set name' v isGlobal).isGlobal name = true := by
  rw [isGlobal_eq] at h
  rw [isGlobal_eq, binding?_set]
  split
  next hname =>
    rw [binding?_congr t hname]
    simp [h]
  next => exact h

end SymbolTable

end HotkeyScript
