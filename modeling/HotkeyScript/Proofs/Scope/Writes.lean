import HotkeyScript.Proofs.Scope.Binding
import Mathlib.Data.List.Induction
/-!
# Symbol tables after any writes

What a table that started empty says of a name is settled by the writes to that name
alone, in whatever case they spelled it: the first gives the spelling, the last the
value, and any of them the flag (`SymbolTable.recorded?`). One write more is followed
by the table (`SymbolTable.Follows.set`), so any number is (`SymbolTable.follows_setAll`),
and the names stand in the order in which they were first written
(`SymbolTable.holds_writes`).
-/

namespace HotkeyScript

/-- The lower-case form of a bound name. -/
def Binding.folded (b : Binding) : String := b.name.toLower

namespace SymbolTable

/-! ## Writes and what they make of a name -/

/-- A value that a name is to be given, and whether that declares the name global. -/
structure Write where
  name : String
  value : Value
  isGlobal : Bool

/-- The lower-case form of a written name. -/
def Write.folded (w : Write) : String := w.name.toLower

/-- A table after writes, one after another. -/
def setAll (t : SymbolTable) (ws : List Write) : SymbolTable :=
  ws.foldl (fun t w => t.set w.name w.value w.isGlobal) t

/-- **What writes make of a name** where there was none: those to the name, in any case,
give it the first one's spelling, the last one's value, and the flag if one has it. -/
def recorded? (ws : List Write) (name : String) : Option Binding :=
  let own := ws.filter fun w => w.folded == name.toLower
  own.head?.bind fun first => own.getLast?.map fun last =>
    ⟨first.name, last.value, own.any Write.isGlobal⟩

theorem recorded?_congr (ws : List Write) {name name' : String}
    (h : name.toLower = name'.toLower) : recorded? ws name = recorded? ws name' := by
  unfold recorded?
  rw [h]

/-- One write more gives its name its value, and the spelling and the flag where they
are not there yet; to other names it is nothing. -/
theorem recorded?_concat (ws : List Write) (w : Write) (name : String) :
    recorded? (ws ++ [w]) name =
      if w.folded = name.toLower then
        let old := recorded? ws name
        let flagged := (old.map Binding.isGlobal).getD false
        some ⟨(old.map Binding.name).getD w.name, w.value, flagged || w.isGlobal⟩
      else recorded? ws name := by
  unfold recorded?
  rw [List.filter_append, List.filter_cons, List.filter_nil]
  by_cases hw : w.folded = name.toLower
  · rw [if_pos hw, if_pos (beq_iff_eq.2 hw)]
    cases ws.filter fun w => w.folded == name.toLower with
    | nil => simp
    | cons first own =>
      obtain ⟨last, hlast⟩ : ∃ last, (first :: own).getLast? = some last :=
        ⟨_, List.getLast?_cons⟩
      have hmore : (first :: own ++ [w]).getLast? = some w := List.getLast?_concat
      dsimp only
      rw [hlast, hmore, List.any_append]
      simp
  · rw [if_neg hw, if_neg (Bool.eq_false_iff.1 (beq_eq_false_iff_ne.2 hw)), List.append_nil]

/-- A name is recorded when it was written. -/
theorem isSome_recorded?_iff (ws : List Write) (name : String) :
    (recorded? ws name).isSome = true ↔ ∃ w ∈ ws, w.folded = name.toLower := by
  induction ws using List.reverseRecOn with
  | nil => simp [recorded?]
  | append_singleton ws w ih =>
    rw [recorded?_concat]
    by_cases hw : w.folded = name.toLower
    · rw [if_pos hw]
      exact iff_of_true rfl ⟨w, by simp, hw⟩
    · rw [if_neg hw, ih]
      simp [hw]

/-- A name is recorded with the flag when a write to it had the flag. -/
theorem isGlobal_recorded?_iff (ws : List Write) (name : String) :
    ((recorded? ws name).map Binding.isGlobal).getD false = true ↔
      ∃ w ∈ ws, w.folded = name.toLower ∧ w.isGlobal = true := by
  induction ws using List.reverseRecOn with
  | nil => simp [recorded?]
  | append_singleton ws w ih =>
    rw [recorded?_concat]
    by_cases hw : w.folded = name.toLower
    · rw [if_pos hw]
      simp only [Option.map_some, Option.getD_some, Bool.or_eq_true, ih]
      simp [hw]
    · rw [if_neg hw, ih]
      simp [hw]

/-! ## A table that follows writes -/

/-- **A table that follows writes**: its names stand in the order in which they were
first written, and it has under each what the writes make of it. -/
structure Follows (t : SymbolTable) (ws : List Write) : Prop where
  order : t.bindings.map Binding.folded = (ws.map Write.folded).eraseDups
  found : ∀ name, t.binding? name = recorded? ws name

theorem follows_empty : Follows .empty [] := ⟨rfl, fun _ => rfl⟩

/-- **One write more**. -/
theorem Follows.set {t : SymbolTable} {ws : List Write} (h : t.Follows ws) (w : Write) :
    (t.set w.name w.value w.isGlobal).Follows (ws ++ [w]) := by
  have hone {d : Binding} : (Name.of d.name == Name.of w.name) = true ↔ d.folded = w.folded :=
    Name.beq_iff
  have hmet : w.folded ∈ ws.map Write.folded ↔ w.folded ∈ t.bindings.map Binding.folded := by
    rw [h.order, List.mem_eraseDups]
  constructor
  · rw [List.map_append, List.map_singleton, OrderedMap.eraseDups_concat, ← h.order]
    have hany : ((ws.map Write.folded).any fun name => name == w.folded) = true ↔
        w.folded ∈ t.bindings.map Binding.folded := by
      rw [← hmet, List.any_beq', List.contains_iff_mem]
    have hset := rewritten_set t w.name w.value w.isGlobal
    generalize t.bindings = bs at hset hany ⊢
    generalize (t.set w.name w.value w.isGlobal).bindings = bs' at hset ⊢
    cases hset with
    | changed before b after _ hb =>
      have hin : w.folded ∈ (before ++ b :: after).map Binding.folded :=
        List.mem_map.2 ⟨b, by simp, hone.1 hb⟩
      rw [if_pos (hany.2 hin)]
      simp [Binding.folded]
    | added _ hbs =>
      have hout : w.folded ∉ bs.map Binding.folded := by
        intro hin
        obtain ⟨d, hd, hfolded⟩ := List.mem_map.1 hin
        exact Bool.eq_false_iff.1 (hbs d hd) (hone.2 hfolded)
      rw [if_neg (mt hany.1 hout), List.map_append]
      rfl
  · intro name
    rw [binding?_set, recorded?_concat, h.found, h.found]
    by_cases hname : w.folded = name.toLower
    · rw [if_pos hname, if_pos (Name.beq_iff.2 hname), recorded?_congr ws hname]
    · rw [if_neg hname, if_neg (mt Name.beq_iff.1 hname)]

/-- **Any writes** to a table that starts empty. -/
theorem follows_setAll (ws : List Write) : (empty.setAll ws).Follows ws := by
  have hfrom (t : SymbolTable) (vs : List Write) (ht : t.Follows vs) :
      (t.setAll ws).Follows (vs ++ ws) := by
    induction ws generalizing t vs with
    | nil => rwa [List.append_nil]
    | cons w ws ih =>
      have hrest := ih _ _ (ht.set w)
      rwa [List.append_assoc] at hrest
  exact hfrom .empty [] follows_empty

/-! ## Bindings -/

/-- No two bindings of a table are of one name. -/
theorem nodup_folded (t : SymbolTable) : (t.bindings.map Binding.folded).Nodup := by
  have hfolded : t.bindings.map Binding.folded = t.slots.entries.map fun e => e.1.folded := by
    rw [bindings, List.map_map]
    exact List.map_congr_left fun e _ => e.1.folded_eq.symm
  have hdistinct := t.slots.distinct
  rw [List.pairwise_map] at hdistinct
  rw [hfolded, List.Nodup, List.pairwise_map]
  exact hdistinct.imp fun hne heq => Bool.eq_false_iff.1 hne (Name.beq_iff.2 heq)

/-- A binding is found under its name. -/
theorem binding?_of_mem {t : SymbolTable} {b : Binding} (hb : b ∈ t.bindings) :
    t.binding? b.name = some b := by
  obtain ⟨e, he, rfl⟩ := List.mem_map.1 hb
  rw [binding?, Name.of_spelling, OrderedMap.entry?_of_mem he]
  rfl

/-- **Symbol tables are what was written to them.** A table that starts empty has, after
any writes, one binding for each written name, whatever the case of its letters, in the
order in which the names were first written: with the first spelling, the last value,
and the flag if any write to the name had it. Under every spelling it answers so. -/
theorem holds_writes (ws : List Write) :
    let t := empty.setAll ws
    t.bindings.map Binding.folded = (ws.map Write.folded).eraseDups ∧
      (t.bindings.map Binding.folded).Nodup ∧
      (∀ b ∈ t.bindings, recorded? ws b.name = some b) ∧
      ∀ name,
        t.binding? name = recorded? ws name ∧
        t.get? name = (recorded? ws name).map Binding.value ∧
        (t.contains name = true ↔ ∃ w ∈ ws, w.folded = name.toLower) ∧
        (t.isGlobal name = true ↔ ∃ w ∈ ws, w.folded = name.toLower ∧ w.isGlobal = true) := by
  intro t
  have hfollows : t.Follows ws := follows_setAll ws
  refine ⟨hfollows.order, t.nodup_folded, fun b hb => ?_, fun name => ?_⟩
  · rw [← hfollows.found, binding?_of_mem hb]
  · have hget : t.get? name = (recorded? ws name).map Binding.value := by
      rw [get?_eq, hfollows.found]
    refine ⟨hfollows.found name, hget, ?_, ?_⟩
    · rw [contains_eq, hget, Option.isSome_map, isSome_recorded?_iff]
    · rw [isGlobal_eq, hfollows.found, isGlobal_recorded?_iff]

end SymbolTable

end HotkeyScript
