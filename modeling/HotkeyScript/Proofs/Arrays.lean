import HotkeyScript.Proofs.Machine.Access
import HotkeyScript.Proofs.Number.Whole
import HotkeyScript.Proofs.Session.Trail
import HotkeyScript.Proofs.Value.Display
/-!
# Arrays

A key denotes at most one integer, however it is written (`Value.Denotes`), or it is no
index at all (`Value.Indexless`). What an array answers depends on that integer and on
its length (`Heap.ArrayLaws`). A value that is stored is read back under each name of the
array and at every key of the same integer, and nothing else in the heap is touched,
whatever holds what (`Heap.Stored`). So no action changes the length of an array, and an
array has one length for as long as a session lives (`Heap.array_laws`).
-/

namespace HotkeyScript

/-! ## The integers that keys denote -/

/-- **The integer that a key denotes**: that of a decimal or hexadecimal number, and that
of a float which is an integer that fits into a word. -/
inductive Value.Denotes : Value → Int → Prop where
  | decimal (n : Int64) : Denotes (.number (.decimal n)) n.toInt
  | hexadecimal (n : Int64) : Denotes (.number (.hexadecimal n)) n.toInt
  | float {x : Float} {i : Int} : Decimal.rational? x = some (i : Rat) →
      Int64.minValue.toInt ≤ i → i ≤ Int64.maxValue.toInt → Denotes (.number (.float x)) i

/-- **The keys that are no index**: those that are no number, and floats that are no
integer or none that fits into a word. -/
inductive Value.Indexless : Value → Prop where
  | other {v : Value} : v.kind ≠ .number → Indexless v
  | unbounded {x : Float} : Decimal.rational? x = none → Indexless (.number (.float x))
  | fractional {x : Float} {q : Rat} : Decimal.rational? x = some q → (∀ i : Int, q ≠ i) →
      Indexless (.number (.float x))
  | wide {x : Float} {i : Int} : Decimal.rational? x = some (i : Rat) →
      ¬ (Int64.minValue.toInt ≤ i ∧ i ≤ Int64.maxValue.toInt) → Indexless (.number (.float x))

/-- The word that a number denotes as an index is its integer. -/
theorem Value.denotes_iff {n : Number} {i : Int} :
    Value.Denotes (.number n) i ↔ ∃ w, n.index? = some w ∧ w.toInt = i := by
  constructor
  · intro h
    cases h with
    | decimal w | hexadecimal w => exact ⟨w, rfl, rfl⟩
    | @float x _ hx hmin hmax =>
      have hwhole : Number.whole? x = some i := Number.whole?_eq_some_iff.2 hx
      obtain ⟨w, hw⟩ : ∃ w, word? i = some w :=
        Option.ne_none_iff_exists'.1 fun hnone => word?_eq_none_iff.1 hnone ⟨hmin, hmax⟩
      refine ⟨w, ?_, word?_eq_some_iff.1 hw⟩
      rw [Number.index?, hwhole, Option.bind_some, hw]
  · rintro ⟨w, hw, rfl⟩
    cases n with
    | decimal w' | hexadecimal w' =>
      cases hw
      first | exact .decimal w | exact .hexadecimal w
    | float x =>
      obtain ⟨i, hi, hword⟩ := Option.bind_eq_some_iff.1 hw
      obtain rfl := word?_eq_some_iff.1 hword
      exact .float (Number.whole?_eq_some_iff.1 hi) w.minValue_le_toInt w.toInt_le

/-- A key that is no index has no word. -/
theorem Value.Indexless.index?_eq_none {n : Number} (h : Value.Indexless (.number n)) :
    n.index? = none := by
  cases h with
  | other hk => exact absurd rfl hk
  | @unbounded x hx =>
    refine Option.bind_eq_none_iff.2 fun i hi => ?_
    cases hx.symm.trans (Number.whole?_eq_some_iff.1 hi)
  | @fractional x q hx hq =>
    refine Option.bind_eq_none_iff.2 fun i hi => ?_
    exact absurd (Option.some.inj (hx.symm.trans (Number.whole?_eq_some_iff.1 hi))) (hq i)
  | @wide x i hx hi =>
    have hwhole : Number.whole? x = some i := Number.whole?_eq_some_iff.2 hx
    rw [Number.index?, hwhole, Option.bind_some, word?_eq_none_iff]
    exact hi

/-- **A key denotes one integer or is no index**, and never both. -/
theorem Value.denotes_or_indexless (key : Value) :
    (key.Indexless ∧ ∀ i, ¬ key.Denotes i) ∨
      ¬ key.Indexless ∧ ∃ i, key.Denotes i ∧ ∀ j, key.Denotes j → j = i := by
  by_cases hk : key.kind = .number
  · obtain ⟨n, rfl⟩ : ∃ n, key = .number n := by
      cases key with
      | number n => exact ⟨n, rfl⟩
      | _ => cases hk
    cases hi : n.index? with
    | some w =>
      refine .inr ⟨fun hless => ?_, w.toInt, denotes_iff.2 ⟨w, hi, rfl⟩, fun j hj => ?_⟩
      · cases hless.index?_eq_none.symm.trans hi
      · obtain ⟨w', hw', rfl⟩ := denotes_iff.1 hj
        rw [Option.some.inj (hw'.symm.trans hi)]
    | none =>
      refine .inl ⟨?_, fun i hd => ?_⟩
      · cases n with
        | decimal | hexadecimal => cases hi
        | float x =>
          cases hx : Decimal.rational? x with
          | none => exact .unbounded hx
          | some q =>
            by_cases hq : ∃ i : Int, q = i
            · obtain ⟨i, rfl⟩ := hq
              rw [Number.index?, Number.whole?_eq_some_iff.2 hx, Option.bind_some] at hi
              exact .wide hx (word?_eq_none_iff.1 hi)
            · exact .fractional hx fun i hqi => hq ⟨i, hqi⟩
      · obtain ⟨w, hw, -⟩ := denotes_iff.1 hd
        cases hi.symm.trans hw
  · refine .inl ⟨.other hk, fun i hd => hk ?_⟩
    cases hd <;> rfl

namespace Heap

/-! ## Places in an array -/

theorem slot_of_indexless {key : Value} (h : key.Indexless) (size : Nat) :
    slot size key = .error .invalidIndex := by
  cases key with
  | number n => rw [slot, h.index?_eq_none]
  | _ => rfl

theorem slot_of_denotes {key : Value} {i : Int} (h : key.Denotes i) (size : Nat) :
    slot size key =
      if 1 ≤ i ∧ i ≤ size then .ok (i.toNat - 1) else .error .indexOutOfRange := by
  obtain ⟨n, rfl⟩ : ∃ n, key = .number n := by cases h <;> exact ⟨_, rfl⟩
  obtain ⟨w, hw, rfl⟩ := Value.denotes_iff.1 h
  rw [slot, hw]

variable {h : Heap} {id : ArrayId} {key v : Value} {i : Int} {k : Nat} {fault : Fault}

theorem get_array (h : Heap) (id : ArrayId) (key : Value) :
    h.get (.array id) key =
      (slot (h.items id).size key).map fun k => (h.items id)[k]?.getD (.text "") := by
  rw [get]
  cases slot (h.items id).size key <;> rfl

/-- An array is read and written at a place or not at all. -/
theorem array_of_slot_error (hs : slot (h.items id).size key = .error fault) :
    h.Unreadable (.array id) key fault ∧ h.Unwritable (.array id) key fault := by
  refine ⟨unreadable_of_get ?_, unwritable_of_set fun v => ?_⟩
  · rw [get_array, hs]
    rfl
  · rw [set, hs]
    rfl

theorem get_of_slot (hs : slot (h.items id).size key = .ok k) :
    h.get (.array id) key = .ok ((h.items id)[k]?.getD (.text "")) := by
  rw [get_array, hs]
  rfl

theorem set_of_slot (hs : slot (h.items id).size key = .ok k) :
    h.set (.array id) key v = .ok (h.setItems id ((h.items id).setIfInBounds k v)) := by
  rw [set, hs]
  rfl

/-- An array that has items is in the heap. -/
theorem index_lt_of_items (hpos : 0 < (h.items id).size) : id.index < h.arrays.size := by
  by_contra hge
  rw [Heap.items, Array.getElem?_eq_none (Nat.le_of_not_lt hge)] at hpos
  exact Nat.lt_irrefl 0 hpos

/-! ## Storing a value -/

/-- **What storing a value in an array leaves**: the value, at every key that denotes its
place and under every name of the array, and all else as it was. -/
structure Stored (h : Heap) (id : ArrayId) (i : Int) (v : Value) (h' : Heap) : Prop where
  there : ∀ name key, same? (.array id) name = some true → key.Denotes i → h'.Reads name key v
  elsewhere : ∀ key, ¬ key.Denotes i → h'.get (.array id) key = h.get (.array id) key
  others : ∀ object, same? (.array id) object ≠ some true →
    ∀ key, h'.get object key = h.get object key
  items : ∀ other, other ≠ id → h'.items other = h.items other
  lengths : ∀ other, (h'.items other).size = (h.items other).size
  arrays : h'.arrays.size = h.arrays.size
  tables : h'.tables = h.tables
  functions : h'.functions = h.functions

/-- The one name of an array is its handle. -/
theorem same?_array_iff {object : Value} :
    same? (.array id) object = some true ↔ object = .array id := by
  cases object with
  | array other =>
    rw [same?, Option.some.injEq, beq_iff_eq, Value.array.injEq]
    exact eq_comm
  | _ => simp [same?]

/-- A value in the place of another leaves the lengths of all arrays. -/
theorem size_items_setItems (h : Heap) (id : ArrayId) (k : Nat) (v : Value) (other : ArrayId) :
    ((h.setItems id ((h.items id).setIfInBounds k v)).items other).size = (h.items other).size := by
  rw [items_setItems]
  split
  next heq => rw [Array.size_setIfInBounds, heq.1]
  next => rfl

/-- **A value that is stored** at a place within the array. -/
theorem stored_setItems (hkey : key.Denotes i) (hlow : 1 ≤ i) (hhigh : i ≤ (h.items id).size) :
    h.Stored id i v (h.setItems id ((h.items id).setIfInBounds (i.toNat - 1) v)) := by
  have hid : id.index < h.arrays.size := index_lt_of_items (by omega)
  have hslot := (slot_of_denotes hkey (h.items id).size).trans (if_pos ⟨hlow, hhigh⟩)
  have hset : h.set (.array id) key v = _ := set_of_slot hslot
  have hsize := h.size_items_setItems id (i.toNat - 1) v
  have hself := (h.items_setItems id ((h.items id).setIfInBounds (i.toNat - 1) v) id).trans
    (if_pos ⟨rfl, hid⟩)
  refine ⟨?_, ?_, ?_, ?_, hsize, Array.size_setIfInBounds, rfl, rfl⟩
  · intro name key' hsame hkey'
    rw [same?_array_iff.1 hsame]
    have hslot' := slot_of_denotes hkey' (h.items id).size
    rw [if_pos ⟨hlow, hhigh⟩, ← hsize id] at hslot'
    refine reads_of_get ((get_of_slot hslot').trans ?_)
    rw [hself, Array.getElem?_setIfInBounds, if_pos rfl, if_pos (by omega), Option.getD_some]
  · intro key' hkey'
    rw [get_array, get_array, hsize, hself]
    rcases key'.denotes_or_indexless with ⟨hless, -⟩ | ⟨-, j, hj, -⟩
    · rw [slot_of_indexless hless]
      rfl
    · have hne : j ≠ i := fun heq => hkey' (heq ▸ hj)
      rw [slot_of_denotes hj]
      split
      next hin =>
        have hplace : i.toNat - 1 ≠ j.toNat - 1 := by omega
        rw [Except.map, Except.map, Array.getElem?_setIfInBounds, if_neg hplace]
      next => rfl
  · intro object hobject
    exact get_of_set hset fun heq => hobject (same?_array_iff.2 heq)
  · intro other hne
    rw [items_setItems, if_neg fun hand => hne hand.1]

/-! ## The laws of an array -/

/-- **What an array answers**, whatever else is in the heap. -/
structure ArrayLaws (h : Heap) (id : ArrayId) : Prop where
  indexless : ∀ key : Value, key.Indexless →
    h.Unreadable (.array id) key .invalidIndex ∧ h.Unwritable (.array id) key .invalidIndex
  outside : ∀ (key : Value) (i : Int), key.Denotes i → ¬ (1 ≤ i ∧ i ≤ (h.items id).size) →
    h.Unreadable (.array id) key .indexOutOfRange ∧ h.Unwritable (.array id) key .indexOutOfRange
  /-- The integers within are counted from one. -/
  inside : ∀ (key : Value) (i : Int), key.Denotes i → 1 ≤ i → i ≤ (h.items id).size →
    (∃ item, (h.items id)[i.toNat - 1]? = some item ∧ h.Reads (.array id) key item) ∧
      ∀ v, ∃ h', h.Writes (.array id) key v h' ∧ h.Stored id i v h'

theorem arrayLaws (h : Heap) (id : ArrayId) : h.ArrayLaws id := by
  refine ⟨fun key hless => ?_, fun key i hkey hout => ?_, fun key i hkey hlow hhigh => ?_⟩
  · exact array_of_slot_error (slot_of_indexless hless _)
  · exact array_of_slot_error ((slot_of_denotes hkey _).trans (if_neg hout))
  · have hslot := (slot_of_denotes hkey (h.items id).size).trans (if_pos ⟨hlow, hhigh⟩)
    have hlt : i.toNat - 1 < (h.items id).size := by omega
    have hitem := Array.getElem?_eq_getElem hlt
    refine ⟨⟨_, hitem, reads_of_get ?_⟩, fun v => ⟨_, writes_of_set (set_of_slot hslot), ?_⟩⟩
    · rw [get_of_slot hslot, hitem, Option.getD_some]
    · exact stored_setItems hkey hlow hhigh

/-! ## Lengths over a run -/

/-- The arrays of the one heap are in the other, each as long as it was. -/
structure KeepsLengths (h h' : Heap) : Prop where
  arrays : h.arrays.size ≤ h'.arrays.size
  lengths : ∀ id : ArrayId, id.index < h.arrays.size → (h'.items id).size = (h.items id).size

theorem KeepsLengths.refl (h : Heap) : h.KeepsLengths h := ⟨Nat.le_refl _, fun _ _ => rfl⟩

theorem KeepsLengths.trans {a b c : Heap} (h : a.KeepsLengths b) (h' : b.KeepsLengths c) :
    a.KeepsLengths c := by
  refine ⟨h.arrays.trans h'.arrays, fun id hid => ?_⟩
  rw [h'.lengths id (Nat.lt_of_lt_of_le hid h.arrays), h.lengths id hid]

theorem keepsLengths_newArray (h : Heap) (items : Array Value) :
    h.KeepsLengths (h.newArray items).2 := by
  refine ⟨?_, fun id hid => ?_⟩
  · rw [newArray, Array.size_push]
    exact Nat.le_succ _
  · have hne : id.index ≠ h.arrays.size := Nat.ne_of_lt hid
    rw [Heap.items, newArray, Array.getElem?_push, if_neg hne]
    rfl

/-- Nothing that is written changes a length. -/
theorem keepsLengths_set {object : Value} {h' : Heap} (hs : h.set object key v = .ok h') :
    h.KeepsLengths h' := by
  rcases set_cases hs with ⟨id, i, -, -, rfl⟩ | ⟨id, k, -, -, rfl⟩
  · exact ⟨Nat.le_of_eq Array.size_setIfInBounds.symm, fun other _ => h.size_items_setItems ..⟩
  · exact ⟨Nat.le_refl _, fun _ _ => rfl⟩

/-- **No action changes the length of an array.** -/
theorem keepsLengths_run {α : Type} (op : Op α) (m : Machine) :
    m.heap.KeepsLengths (Result.machine (op.run m)).heap := by
  cases op with
  | ask span question =>
    rw [Op.run, Machine.machine_ask]
    exact .refl _
  | newArray items => exact keepsLengths_newArray _ _
  | store object key value span =>
    simp only [Op.run, Machine.store]
    split
    next h' hs => exact keepsLengths_set hs
    next => exact .refl _
  | echo message =>
    simp only [Op.run, Machine.echo]
    split <;> exact .refl _
  | newTable | declare => exact ⟨Nat.le_refl _, fun _ _ => rfl⟩
  | _ => exact .refl _

/-- **The laws of arrays.** A key denotes one integer or is no index; what an array of any
heap answers for it goes by that integer and the length; and whatever a session runs, each
array has from its creation on the one length, in every machine that the session goes
through until it is told to forget its objects. -/
theorem array_laws (h : Heap) (id : ArrayId) (s : Session) (ops : List Session.Operation)
    (hops : .reset ∉ ops) :
    (∀ key : Value, (key.Indexless ∧ ∀ i, ¬ key.Denotes i) ∨
      ¬ key.Indexless ∧ ∃ i, key.Denotes i ∧ ∀ j, key.Denotes j → j = i) ∧
    h.ArrayLaws id ∧
    (∃ ms, s.Trail ops ms) ∧
    ∀ ms, s.Trail ops ms → (s.performAll ops).machine ∈ s.machine :: ms ∧
      (s.machine :: ms).Pairwise fun a b => a.heap.KeepsLengths b.heap := by
  refine ⟨Value.denotes_or_indexless, h.arrayLaws id, s.exists_trail ops, fun ms hms => ?_⟩
  have hpath := hms.path KeepsLengths.refl keepsLengths_run hops
  exact ⟨hpath.last_mem, hpath.pairwise fun _ _ _ => KeepsLengths.trans⟩

/-- An array that is one of its own items, written at a float and read at a hexadecimal
number, and a session in which another one is made and written. -/
theorem array_laws_knot :
    (∃ h', knot.set (.array ⟨0⟩) (.number (.float 3.0)) (.text "x") = .ok h' ∧
      h'.get (.array ⟨0⟩) (.number (.hexadecimal 3)) = .ok (.text "x") ∧
      (h'.items ⟨0⟩).size = 3) ∧
    knot.get (.array ⟨0⟩) (.text "1") = .error .invalidIndex ∧
    knot.get (.array ⟨0⟩) (.number (.decimal (-1))) = .error .indexOutOfRange ∧
    ∃ ms, (Session.start "s" {} fun _ => true).Trail [.run "a := [1]\na[1] := a"] ms ∧
      ms.Pairwise fun a b => a.heap.KeepsLengths b.heap := by
  obtain ⟨-, hlaws, ⟨ms, hms⟩, hkept⟩ :=
    array_laws knot ⟨0⟩ (Session.start "s" {} fun _ => true) [.run "a := [1]\na[1] := a"] (by simp)
  have hthree : Decimal.rational? 3.0 = some ((3 : Int) : Rat) :=
    Number.whole?_eq_some_iff.1 (by decide +kernel)
  have hfloat : Value.Denotes (.number (.float 3.0)) 3 := .float hthree (by decide) (by decide)
  refine ⟨?_, ?_, ?_, ms, hms, (List.pairwise_cons.1 (hkept ms hms).2).2⟩
  · obtain ⟨-, hwrites⟩ := hlaws.inside _ 3 hfloat (by decide) (by decide)
    obtain ⟨h', hset, hstored⟩ := hwrites (.text "x")
    exact ⟨h', hset.set, (hstored.there _ _ rfl (.hexadecimal 3)).get, hstored.lengths ⟨0⟩⟩
  · exact (hlaws.indexless _ (.other (by decide))).1.get
  · exact (hlaws.outside _ _ (.decimal (-1)) (by decide)).1.get

end Heap

end HotkeyScript
