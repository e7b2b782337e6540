import HotkeyScript.Proofs.OrderedMap
import HotkeyScript.Proofs.Value.Display
import HotkeyScript.Proofs.Value.Key
import Mathlib.Data.List.Zip
/-!
# Values — equality by content

Two values are alike when they are one and the same, numbers apart, or equal numbers,
or arrays with like items, or tables with like values at the same keys
(`Heap.Alike`). The rules do not count how deep they look, they do not go through the
entries of one table only, and they know nothing of the order of entries; that likeness
is symmetric and transitive is an induction over them, on any heap. Below a value
that nothing encloses itself in (`Heap.Acyclic`) no way down enters more objects than
the heap has, so the comparison that looks as deep as that decides likeness
(`Heap.equal_iff_alike`). That it goes through the entries of one table is enough
because the keys of a table are pairwise different.
-/

namespace HotkeyScript

/-- Numbers are compared alike from either side, although not-a-number equals
nothing. -/
instance : PartialEquivBEq Number where
  symm {a b} h := by
    cases a <;> cases b
    case decimal.decimal m n => exact BEq.symm (α := Int64) h
    case hexadecimal.hexadecimal m n => exact BEq.symm (α := Int64) h
    case float.float x y => exact BEq.symm (α := Float) h
    all_goals cases h
  trans {a b c} h h' := by
    cases a <;> cases b
    case decimal.decimal m n =>
      cases c with
      | decimal k => exact BEq.trans (α := Int64) h h'
      | _ => cases h'
    case hexadecimal.hexadecimal m n =>
      cases c with
      | hexadecimal k => exact BEq.trans (α := Int64) h h'
      | _ => cases h'
    case float.float x y =>
      cases c with
      | float z => exact BEq.trans (α := Float) h h'
      | _ => cases h'
    all_goals cases h

namespace Heap

/-! ## Likeness -/

/-- **What values that are equal by content have in common.** -/
inductive Alike (h : Heap) : Value → Value → Prop where
  | number {m n : Number} : (m == n) = true → Alike h (.number m) (.number n)
  /-- Whatever is not a number is like itself: a text, and an object with whatever it
  holds. -/
  | same {v : Value} : v.kind ≠ .number → Alike h v v
  | array {a b : ArrayId} : (h.items a).size = (h.items b).size →
      (∀ (i : Nat) v w, (h.items a)[i]? = some v → (h.items b)[i]? = some w → Alike h v w) →
      Alike h (.array a) (.array b)
  | table {a b : TableId} : (∀ k, (h.entries a).contains k = (h.entries b).contains k) →
      (∀ k v w, (h.entries a).get? k = some v → (h.entries b).get? k = some w → Alike h v w) →
      Alike h (.table a) (.table b)

variable {h : Heap} {u v w : Value}

theorem Alike.symm (hvw : h.Alike v w) : h.Alike w v := by
  induction hvw with
  | number hmn => exact .number (BEq.symm hmn)
  | same hv => exact .same hv
  | array hsize _ ih => exact .array hsize.symm fun i v w hv hw => ih i w v hw hv
  | table hkeys _ ih => exact .table (fun k => (hkeys k).symm) fun k v w hv hw => ih k w v hw hv

theorem Alike.trans (huv : h.Alike u v) (hvw : h.Alike v w) : h.Alike u w := by
  induction huv generalizing w with
  | number hmn =>
    cases hvw with
    | number hnk => exact .number (BEq.trans hmn hnk)
    | same hv => exact absurd rfl hv
  | same => exact hvw
  | @array a b hsize hitems ih =>
    cases hvw with
    | same => exact .array hsize hitems
    | @array _ c hsize' hitems' =>
      refine .array (hsize.trans hsize') fun i u w hu hw => ?_
      obtain ⟨v, hv⟩ : ∃ v, (h.items b)[i]? = some v := by
        obtain ⟨hi, -⟩ := Array.getElem?_eq_some_iff.1 hu
        exact ⟨_, Array.getElem?_eq_getElem (hsize ▸ hi)⟩
      exact ih i u v hu hv (hitems' i v w hv hw)
  | @table a b hkeys hvalues ih =>
    cases hvw with
    | same => exact .table hkeys hvalues
    | @table _ c hkeys' hvalues' =>
      refine .table (fun k => (hkeys k).trans (hkeys' k)) fun k u w hu hw => ?_
      obtain ⟨v, hv⟩ : ∃ v, (h.entries b).get? k = some v := by
        rw [← Option.isSome_iff_exists, OrderedMap.isSome_get?, ← hkeys,
          ← OrderedMap.isSome_get?, hu]
        rfl
      exact ih k u v hu hv (hvalues' k v w hv hw)

/-! ## Looking deep enough -/

/-- A value that is an object, and what is below it, is entered at most so many times on
the way down. -/
def Shallow (h : Heap) : Nat → Value → Prop
  | 0, v => v.container? = none
  | depth + 1, v => ∀ c, v.container? = some c → ∀ e ∈ h.elements c, h.Shallow depth e.2

/-- **No object below a value is inside itself**: no way down enters one twice. -/
def Acyclic (h : Heap) (v : Value) : Prop := ∀ place path w, h.Way v place path w → path.Nodup

/-- Ways that enter nothing twice are no longer than there are objects. -/
theorem Acyclic.shallow_of_way {root : Value} (hroot : h.Acyclic root) {place : List Nat}
    {path : List Container} (hw : h.Way root place path v) {depth : Nat}
    (hdepth : h.containers.length ≤ depth + path.length) : h.Shallow (depth + 1) v := by
  induction depth generalizing place path v with
  | zero =>
    intro c hc e he
    -- another object is on the way, and there are not so many
    obtain ⟨i, hi⟩ := List.getElem?_of_mem he
    have hinto : h.Way root (place ++ [i]) (c :: path) e.2 := .into hw hc hi
    have hle := ((hroot _ _ _ hinto).subperm hinto.enclosing.2).length_le
    rw [List.length_cons] at hle
    omega
  | succ depth ih =>
    intro c hc e he
    obtain ⟨i, hi⟩ := List.getElem?_of_mem he
    have hinto : h.Way root (place ++ [i]) (c :: path) e.2 := .into hw hc hi
    refine ih hinto ?_
    rw [List.length_cons]
    omega

theorem Acyclic.shallow (hv : h.Acyclic v) {depth : Nat} (hdepth : h.containers.length ≤ depth) :
    h.Shallow (depth + 1) v :=
  hv.shallow_of_way .root hdepth

/-! ## The comparison -/

variable {a b : ArrayId} {s t : TableId} {depth : Nat}

theorem equalTo_number (depth : Nat) (m n : Number) :
    h.equalTo depth (.number m) (.number n) = (m == n) := by
  rw [equalTo]

/-- One level further into arrays. -/
theorem equalTo_array_iff : h.equalTo (depth + 1) (.array a) (.array b) = true ↔
    a = b ∨ (h.items a).size = (h.items b).size ∧
      ∀ (i : Nat) v w, (h.items a)[i]? = some v → (h.items b)[i]? = some w →
        h.equalTo depth v w = true := by
  rw [equalTo, Bool.or_eq_true, beq_iff_eq, Bool.and_eq_true, beq_iff_eq, List.all_eq_true]
  refine or_congr_right (and_congr_right fun _ => ⟨fun hall i v w hv hw => ?_, ?_⟩)
  · refine hall (v, w) (List.mem_of_getElem? (i := i) (List.getElem?_zip_eq_some.2 ⟨?_, ?_⟩))
    · rwa [Array.getElem?_toList]
    · rwa [Array.getElem?_toList]
  · rintro hall ⟨v, w⟩ hp
    obtain ⟨i, hi⟩ := List.getElem?_of_mem hp
    obtain ⟨hv, hw⟩ := List.getElem?_zip_eq_some.1 hi
    rw [Array.getElem?_toList] at hv hw
    exact hall i v w hv hw

/-- And into tables: that the entries of one of them are found in the other is enough,
for there are as many and no two have one key. -/
theorem equalTo_table_iff : h.equalTo (depth + 1) (.table s) (.table t) = true ↔
    s = t ∨ (∀ k, (h.entries s).contains k = (h.entries t).contains k) ∧
      ∀ k v w, (h.entries s).get? k = some v → (h.entries t).get? k = some w →
        h.equalTo depth v w = true := by
  rw [equalTo, Bool.or_eq_true, beq_iff_eq, Bool.and_eq_true, beq_iff_eq, List.all_eq_true]
  refine or_congr_right ⟨?_, ?_⟩
  · rintro ⟨hsize, hall⟩
    have hfound : ∀ e ∈ (h.entries s).entries,
        ∃ w, (h.entries t).get? e.1 = some w ∧ h.equalTo depth e.2 w = true := by
      intro e he
      have hentry := hall e he
      cases hw : (h.entries t).get? e.1 with
      | none => rw [hw] at hentry; cases hentry
      | some w => rw [hw] at hentry; exact ⟨w, rfl, hentry⟩
    have hcontains : ∀ e ∈ (h.entries s).entries, (h.entries t).contains e.1 = true := by
      intro e he
      obtain ⟨w, hw, -⟩ := hfound e he
      rw [← OrderedMap.isSome_get?, hw]
      rfl
    refine ⟨fun k => Bool.eq_iff_iff.2 ⟨fun hk => ?_, ?_⟩, fun k v w hv hw => ?_⟩
    · obtain ⟨e, he, hek⟩ := OrderedMap.contains_iff.1 hk
      rw [← OrderedMap.isSome_get?, ← OrderedMap.get?_congr _ hek, OrderedMap.isSome_get?]
      exact hcontains e he
    · exact OrderedMap.contains_of_size_le hcontains hsize.ge
    · obtain ⟨e, he, hek, rfl⟩ := OrderedMap.get?_eq_some_iff.1 hv
      obtain ⟨w', hw', hequal⟩ := hfound e he
      rw [OrderedMap.get?_congr _ hek, hw] at hw'
      cases hw'
      exact hequal
  · rintro ⟨hkeys, hvalues⟩
    refine ⟨Nat.le_antisymm ?_ ?_, fun e he => ?_⟩
    · refine OrderedMap.size_le_of_contains fun e he => ?_
      rw [← hkeys]
      exact OrderedMap.contains_of_mem he
    · refine OrderedMap.size_le_of_contains fun e he => ?_
      rw [hkeys]
      exact OrderedMap.contains_of_mem he
    · obtain ⟨w, hw⟩ : ∃ w, (h.entries t).get? e.1 = some w := by
        rw [← Option.isSome_iff_exists, OrderedMap.isSome_get?, ← hkeys]
        exact OrderedMap.contains_of_mem he
      rw [hw]
      exact hvalues e.1 e.2 w (OrderedMap.get?_of_mem he) hw

/-- Where there is no object to look into, the depth does not matter. -/
theorem alike_of_equalTo_of_container? (hv : v.container? = none)
    (hvw : h.equalTo depth v w = true) : h.Alike v w := by
  cases v with
  | number m =>
    cases w with
    | number n => exact .number (equalTo_number depth m n ▸ hvw)
    | _ => simp [equalTo] at hvw
  | text s =>
    cases w with
    | text t =>
      rw [equalTo] at hvw
      exact eq_of_beq hvw ▸ .same nofun
    | _ => simp [equalTo] at hvw
  | boolean b =>
    cases w with
    | boolean c =>
      rw [equalTo] at hvw
      exact eq_of_beq hvw ▸ .same nofun
    | _ => simp [equalTo] at hvw
  | function f =>
    cases w with
    | function g =>
      rw [equalTo] at hvw
      exact eq_of_beq hvw ▸ .same nofun
    | _ => simp [equalTo] at hvw
  | array | table => cases hv

/-- What is found equal, however deep one looked, is alike. -/
theorem alike_of_equalTo (hvw : h.equalTo depth v w = true) : h.Alike v w := by
  induction depth generalizing v w with
  | zero =>
    cases v with
    | array a =>
      cases w with
      | array b => exact (eq_of_beq hvw : a = b) ▸ .same nofun
      | _ => cases hvw
    | table s =>
      cases w with
      | table t => exact (eq_of_beq hvw : s = t) ▸ .same nofun
      | _ => cases hvw
    | _ => exact alike_of_equalTo_of_container? rfl hvw
  | succ depth ih =>
    cases v with
    | array a =>
      cases w with
      | array b =>
        obtain rfl | ⟨hsize, hitems⟩ := equalTo_array_iff.1 hvw
        · exact .same nofun
        · exact .array hsize fun i v w hv hw => ih (hitems i v w hv hw)
      | _ => cases hvw
    | table s =>
      cases w with
      | table t =>
        obtain rfl | ⟨hkeys, hvalues⟩ := equalTo_table_iff.1 hvw
        · exact .same nofun
        · exact .table hkeys fun k v w hv hw => ih (hvalues k v w hv hw)
      | _ => cases hvw
    | _ => exact alike_of_equalTo_of_container? rfl hvw

/-- A value that is no number is found equal to itself. -/
theorem equalTo_self (depth : Nat) (hv : v.kind ≠ .number) : h.equalTo depth v v = true := by
  cases v with
  | number => exact absurd rfl hv
  | array a =>
    cases depth with
    | zero => exact BEq.rfl (a := a)
    | succ depth => exact equalTo_array_iff.2 (.inl rfl)
  | table t =>
    cases depth with
    | zero => exact BEq.rfl (a := t)
    | succ depth => exact equalTo_table_iff.2 (.inl rfl)
  | text s => rw [equalTo]; exact BEq.rfl
  | boolean b => rw [equalTo]; exact BEq.rfl
  | function f => rw [equalTo]; exact BEq.rfl

/-- What is alike is found equal where one looks deep enough. -/
theorem Alike.equalTo (hvw : h.Alike v w) (hv : h.Shallow depth v) :
    h.equalTo depth v w = true := by
  induction hvw generalizing depth with
  | @number m n hmn => rwa [equalTo_number]
  | same hkind => exact equalTo_self depth hkind
  | @array a b hsize _ ih =>
    cases depth with
    | zero => cases hv
    | succ depth =>
      refine equalTo_array_iff.2 (.inr ⟨hsize, fun i v w hi hw => ih i v w hi hw ?_⟩)
      have hmem : ("", v) ∈ h.elements (.array a) := by
        refine List.mem_map_of_mem (f := fun v => ("", v)) (List.mem_of_getElem? (i := i) ?_)
        rwa [Array.getElem?_toList]
      exact hv (.array a) rfl _ hmem
  | @table s t hkeys _ ih =>
    cases depth with
    | zero => cases hv
    | succ depth =>
      refine equalTo_table_iff.2 (.inr ⟨hkeys, fun k v w hk hw => ih k v w hk hw ?_⟩)
      obtain ⟨e, he, -, rfl⟩ := OrderedMap.get?_eq_some_iff.1 hk
      exact hv (.table s) rfl _ (List.mem_map_of_mem (f := fun e => (e.1.render ++ ":", e.2)) he)

/-- **Below an acyclic value the comparison decides likeness.** -/
theorem equal_iff_alike (hv : h.Acyclic v) : h.equal v w = true ↔ h.Alike v w :=
  ⟨alike_of_equalTo, fun hvw => hvw.equalTo (hv.shallow (Nat.le_mul_self _))⟩

/-! ## The order of entries -/

/-- **A heap whose objects hold the same** as those of another: its tables have the same
values at the same keys, in whatever order these were inserted. -/
structure Restocked (h h' : Heap) : Prop where
  items : ∀ id, h'.items id = h.items id
  get? : ∀ id k, (h'.entries id).get? k = (h.entries id).get? k

/-- Entries in another order hold the same. -/
theorem Restocked.of_perm {h' : Heap} (hitems : ∀ id, h'.items id = h.items id)
    (hentries : ∀ id, (h'.entries id).entries.Perm (h.entries id).entries) : h.Restocked h' := by
  refine ⟨hitems, fun id k => Option.ext fun v => ?_⟩
  rw [OrderedMap.get?_eq_some_iff, OrderedMap.get?_eq_some_iff]
  exact exists_congr fun e => and_congr_left fun _ => (hentries id).mem_iff

variable {h' : Heap}

theorem Restocked.symm (hr : h.Restocked h') : h'.Restocked h :=
  ⟨fun id => (hr.items id).symm, fun id k => (hr.get? id k).symm⟩

theorem Restocked.contains (hr : h.Restocked h') (id : TableId) (k : TableKey) :
    (h'.entries id).contains k = (h.entries id).contains k := by
  rw [← OrderedMap.isSome_get?, ← OrderedMap.isSome_get?, hr.get?]

/-- What is below a value is there in the other heap too, in another place. -/
theorem Restocked.exists_element (hr : h.Restocked h') {c : Container} {e : String × Value}
    (he : e ∈ h'.elements c) : ∃ label, (label, e.2) ∈ h.elements c := by
  cases c with
  | array id =>
    obtain ⟨v, hv, rfl⟩ := List.mem_map.1 he
    exact ⟨"", List.mem_map_of_mem (f := fun v => ("", v)) (hr.items id ▸ hv)⟩
  | table id =>
    obtain ⟨d, hd, rfl⟩ := List.mem_map.1 he
    have hget := OrderedMap.get?_of_mem hd
    rw [hr.get?] at hget
    obtain ⟨d', hd', -, hvalue⟩ := OrderedMap.get?_eq_some_iff.1 hget
    refine ⟨d'.1.render ++ ":", ?_⟩
    have hmem := List.mem_map_of_mem (f := fun e : TableKey × Value => (e.1.render ++ ":", e.2)) hd'
    rwa [hvalue] at hmem

theorem Restocked.exists_way (hr : h.Restocked h') {root : Value} {place : List Nat}
    {path : List Container} (hw : h'.Way root place path v) :
    ∃ place', h.Way root place' path v := by
  induction hw with
  | root => exact ⟨[], .root⟩
  | into _ hc he ih =>
    obtain ⟨place', hw⟩ := ih
    obtain ⟨label, hmem⟩ := hr.exists_element (List.mem_of_getElem? he)
    obtain ⟨i, hi⟩ := List.getElem?_of_mem hmem
    exact ⟨place' ++ [i], .into hw hc hi⟩

theorem Restocked.acyclic (hr : h.Restocked h') (hv : h.Acyclic v) : h'.Acyclic v := by
  intro place path w hw
  obtain ⟨place', hw'⟩ := hr.exists_way hw
  exact hv _ _ _ hw'

theorem Restocked.alike (hr : h.Restocked h') (hvw : h.Alike v w) : h'.Alike v w := by
  induction hvw with
  | number hmn => exact .number hmn
  | same hv => exact .same hv
  | @array a b hsize _ ih =>
    refine .array (by rw [hr.items, hr.items, hsize]) fun i v w hv hw => ?_
    exact ih i v w (hr.items a ▸ hv) (hr.items b ▸ hw)
  | @table s t hkeys _ ih =>
    refine .table (fun k => by rw [hr.contains, hr.contains, hkeys]) fun k v w hv hw => ?_
    exact ih k v w (hr.get? s k ▸ hv) (hr.get? t k ▸ hw)

/-- **Equality by content is symmetric and transitive**, and the order of entries does
not matter to it. On values below which nothing encloses itself it is likeness, by rules
without a bound; in another heap whose objects hold the same it comes out the same. -/
theorem equal_symm_trans (h : Heap) (u v w : Value) (hu : h.Acyclic u) (hv : h.Acyclic v) :
    (h.equal u v = true ↔ h.Alike u v) ∧
    h.equal v u = h.equal u v ∧
    (h.equal u v = true → h.equal v w = true → h.equal u w = true) ∧
    ∀ h', h.Restocked h' → h'.equal u v = h.equal u v := by
  refine ⟨equal_iff_alike hu, ?_, fun huv hvw => ?_, fun h' hr => ?_⟩
  · rw [Bool.eq_iff_iff, equal_iff_alike hu, equal_iff_alike hv]
    exact ⟨Alike.symm, Alike.symm⟩
  · rw [equal_iff_alike hu] at huv ⊢
    exact huv.trans ((equal_iff_alike hv).1 hvw)
  · rw [Bool.eq_iff_iff, equal_iff_alike hu, equal_iff_alike (hr.acyclic hu)]
    exact ⟨hr.symm.alike, hr.alike⟩

/-! ## One array in three tables -/

/-- Where each object has a rank above those of its elements, nothing is inside
itself. -/
theorem acyclic_of_rank (rank : Container → Nat)
    (hrank : ∀ c ∈ h.containers, ∀ e ∈ h.elements c, ∀ d ∈ e.2.container?, rank d < rank c)
    (v : Value) : h.Acyclic v := by
  intro place path w hw
  suffices hpath : path.Nodup ∧ ∀ d ∈ w.container?, ∀ c ∈ path, rank d < rank c from hpath.1
  induction hw with
  | root => exact ⟨List.nodup_nil, fun _ _ _ hc => absurd hc List.not_mem_nil⟩
  | @into place path v w c i label _ hc he ih =>
    have hnew : c ∉ path := fun hmem => Nat.lt_irrefl _ (ih.2 c hc c hmem)
    refine ⟨List.nodup_cons.2 ⟨hnew, ih.1⟩, fun d hd => List.forall_mem_cons.2 ?_⟩
    have hlt := hrank c (mem_containers_of_elements he) _ (List.mem_of_getElem? he) d hd
    exact ⟨hlt, fun b hb => Nat.lt_trans hlt (ih.2 c hc b hb)⟩

/-- Two arrays of not-a-number, and three tables with the first of them and a text: two
with the entries that are given, and one under the other zero. -/
def stocked (puts puts' : List (TableKey × Value)) : Heap where
  arrays := #[#[.number (.float Float.nan)], #[.number (.float Float.nan)]]
  tables := #[OrderedMap.empty.insertAll puts, OrderedMap.empty.insertAll puts',
    OrderedMap.empty.insertAll [(.float (-0.0), .text "z"), (.text "a", .array ⟨0⟩)]]
  functions := #[]

/-- There tables stand above arrays. -/
def stockedRank : Container → Nat
  | .array _ => 0
  | .table _ => 1

theorem equal_symm_trans_stocked :
    let puts : List (TableKey × Value) := [(.text "a", .array ⟨0⟩), (.float 0.0, .text "z")]
    let h := stocked puts puts.reverse
    h.Acyclic (.table ⟨0⟩) ∧ h.Acyclic (.table ⟨1⟩) ∧ h.Alike (.table ⟨0⟩) (.table ⟨1⟩) ∧
      h.equal (.table ⟨1⟩) (.table ⟨0⟩) = true ∧ h.equal (.table ⟨0⟩) (.table ⟨2⟩) = true ∧
      (stocked puts.reverse puts).equal (.table ⟨0⟩) (.table ⟨1⟩) = true ∧
      h.equal (.array ⟨0⟩) (.array ⟨1⟩) = false := by
  intro puts h
  have hrank : ∀ c ∈ h.containers, ∀ e ∈ h.elements c, ∀ d ∈ e.2.container?,
      stockedRank d < stockedRank c := by decide +kernel
  have hacyclic : ∀ v, h.Acyclic v := acyclic_of_rank stockedRank hrank
  have hfirst : h.equal (.table ⟨0⟩) (.table ⟨1⟩) = true := by decide +kernel
  have hsecond : h.equal (.table ⟨1⟩) (.table ⟨2⟩) = true := by decide +kernel
  obtain ⟨hlike, hcomm, htrans, horder⟩ :=
    equal_symm_trans h (.table ⟨0⟩) (.table ⟨1⟩) (.table ⟨2⟩) (hacyclic _) (hacyclic _)
  refine ⟨hacyclic _, hacyclic _, hlike.1 hfirst, hcomm.trans hfirst, htrans hfirst hsecond, ?_, ?_⟩
  · refine (horder _ (.of_perm (fun _ => rfl) fun id => ?_)).trans hfirst
    obtain ⟨_ | _ | _ | n⟩ := id
    · decide +kernel
    · decide +kernel
    · exact .refl _
    · exact .refl _
  · decide +kernel

end Heap

end HotkeyScript
