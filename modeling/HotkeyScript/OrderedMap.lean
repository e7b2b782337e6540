/-!
# Maps in order of insertion

A map keeps its entries in the order their keys were first put. Keys are
compared by `==`, which may be coarser than equality: the first key of a
class is the one that is kept. That no two keys are equal in this sense is
part of the type.
-/

namespace HotkeyScript

/-- Entries with pairwise different keys, in order of insertion. -/
structure OrderedMap (κ α : Type) [BEq κ] where
  entries : List (κ × α)
  distinct : (entries.map Prod.fst).Pairwise fun a b => (a == b) = false

namespace OrderedMap

variable {κ α : Type} [BEq κ]

/-- The map without entries. -/
def empty : OrderedMap κ α := ⟨[], .nil⟩

instance : Inhabited (OrderedMap κ α) := ⟨empty⟩

/-- The value at a key. -/
def get? (m : OrderedMap κ α) (k : κ) : Option α :=
  (m.entries.find? fun e => e.1 == k).map Prod.snd

/-- The entry at a key, with the key it was first put under. -/
def entry? (m : OrderedMap κ α) (k : κ) : Option (κ × α) := m.entries.find? fun e => e.1 == k

/-- Whether a key has a value. -/
def contains (m : OrderedMap κ α) (k : κ) : Bool := (m.entry? k).isSome

/-- The number of entries. -/
def size (m : OrderedMap κ α) : Nat := m.entries.length

/-- Whether there are no entries. -/
def isEmpty (m : OrderedMap κ α) : Bool := m.entries.isEmpty

/-- The keys in order of insertion. -/
def keys (m : OrderedMap κ α) : List κ := m.entries.map Prod.fst

/-- The values in the order of their keys. -/
def values (m : OrderedMap κ α) : List α := m.entries.map Prod.snd

/-- Changes the value at a key in place, or appends one. `f` is given the
old value. -/
def alterEntries (k : κ) (f : Option α → α) : List (κ × α) → List (κ × α)
  | [] => [(k, f none)]
  | e :: es => if e.1 == k then (e.1, f (some e.2)) :: es else e :: alterEntries k f es

/-- The keys stay as they are, with a new one at the end if none was equal. -/
theorem keys_alterEntries (k : κ) (f : Option α → α) (es : List (κ × α)) :
    (alterEntries k f es).map Prod.fst =
      if es.any (fun e => e.1 == k) then es.map Prod.fst else es.map Prod.fst ++ [k] := by
  induction es with
  | nil => rfl
  | cons e es ih =>
    unfold alterEntries
    by_cases h : e.1 == k
    · simp [h]
    · rw [if_neg h, List.map_cons, ih, List.any_cons, Bool.eq_false_iff.2 h, Bool.false_or]
      split <;> simp

theorem distinct_alterEntries {k : κ} {f : Option α → α} {es : List (κ × α)}
    (h : (es.map Prod.fst).Pairwise fun a b => (a == b) = false) :
    ((alterEntries k f es).map Prod.fst).Pairwise fun a b => (a == b) = false := by
  rw [keys_alterEntries]
  split
  · exact h
  next hk =>
    refine List.pairwise_append.2 ⟨h, by simp, ?_⟩
    intro a ha b hb
    obtain ⟨e, he, rfl⟩ := List.mem_map.1 ha
    cases List.mem_singleton.1 hb
    simp only [List.any_eq_true, not_exists, not_and, Bool.not_eq_true] at hk
    exact hk e he

/-- Changes the value at a key in place, or appends one. -/
def alter (m : OrderedMap κ α) (k : κ) (f : Option α → α) : OrderedMap κ α :=
  ⟨alterEntries k f m.entries, distinct_alterEntries m.distinct⟩

/-- Gives a key a value. A key that is there keeps its place. -/
def insert (m : OrderedMap κ α) (k : κ) (v : α) : OrderedMap κ α := m.alter k fun _ => v

end OrderedMap

end HotkeyScript
