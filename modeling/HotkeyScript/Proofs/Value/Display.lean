import HotkeyScript.Proofs.Plan.Run
import Mathlib.Data.List.Induction
import Mathlib.Data.List.Perm.Subperm
/-!
# Values — what is shown of objects in objects

What stands below a value is reached by its place, the positions of elements on the
way down, and the objects that are entered on that way are those that enclose it
(`Heap.Way`). How a value is written inside some objects is a matter of rules
(`Heap.Written`): an object that is one of them is marked, and any other is written
in full. Every value in every heap is written in one way, which is how it is
displayed (`Heap.written_iff`), and each place that is shown at all is written so,
inside the objects that enclose it (`Heap.marked_iff_enclosed`).
-/

namespace HotkeyScript

/-! ## Objects and their elements -/

/-- The object that a value is, if it is one. -/
def Value.container? : Value → Option Container
  | .array id => some (.array id)
  | .table id => some (.table id)
  | _ => none

namespace Container

/-- What is written for an object inside itself. -/
def marker : Container → String
  | array _ => "[...]"
  | table _ => "\x7b...\x7d"

/-- What is written for an object in full, with the texts of its elements. -/
def enclose : Container → List String → String
  | array _, texts => "[" ++ ",".intercalate texts ++ "]"
  | table _, texts => "\x7b" ++ ",".intercalate texts ++ "\x7d"

end Container

/-- The elements of an object, each behind the label it is written with: the items of
an array in their order, and the values of a table behind their keys, in the order in
which these were inserted. -/
def Heap.elements (h : Heap) : Container → List (String × Value)
  | .array id => (h.items id).toList.map fun v => ("", v)
  | .table id => (h.entries id).entries.map fun e => (e.1.render ++ ":", e.2)

namespace Unfolding

/-- The parts of an unfolding that is written in full. -/
def parts : Unfolding → List Unfolding
  | array _ items => items
  | table _ entries => entries.map Prod.snd
  | _ => []

/-- The part at a place: the positions of parts, from the outside in. -/
def at? : Unfolding → List Nat → Option Unfolding
  | u, [] => some u
  | u, i :: place => u.parts[i]?.bind fun part => part.at? place

/-- A part of what stands at a place. -/
theorem at?_concat (u : Unfolding) (place : List Nat) (i : Nat) :
    u.at? (place ++ [i]) = (u.at? place).bind fun part => part.parts[i]? := by
  induction place generalizing u with
  | nil => simp [at?]
  | cons j place ih =>
    rw [List.cons_append, at?, at?, Option.bind_assoc]
    exact congrArg _ (funext ih)

theorem renderItems_eq (us : List Unfolding) : renderItems us = us.map render := by
  induction us with
  | nil => rfl
  | cons u us ih => rw [renderItems, ih, List.map_cons]

theorem renderEntries_eq (es : List (TableKey × Unfolding)) :
    renderEntries es = es.map fun e => e.1.render ++ ":" ++ e.2.render := by
  induction es with
  | nil => rfl
  | cons e es ih => rw [renderEntries, ih, List.map_cons]

end Unfolding

namespace Heap

variable {h : Heap} {path : List Container} {v : Value} {c : Container}

/-- An object inside itself is marked. -/
theorem unfoldIn_of_mem (hc : v.container? = some c) (hm : c ∈ path) :
    h.unfoldIn path v = .enclosing c := by
  cases v with
  | array id => cases hc; rw [unfoldIn, dif_pos hm]
  | table id => cases hc; rw [unfoldIn, dif_pos hm]
  | _ => cases hc

/-- Nothing else is. -/
theorem unfoldIn_eq_enclosing_iff :
    h.unfoldIn path v = .enclosing c ↔ v.container? = some c ∧ c ∈ path := by
  constructor
  · intro hu
    cases v with
    | array id =>
      by_cases hm : Container.array id ∈ path
      · rw [unfoldIn_of_mem rfl hm] at hu
        cases hu
        exact ⟨rfl, hm⟩
      · rw [unfoldIn_array hm] at hu
        cases hu
    | table id =>
      by_cases hm : Container.table id ∈ path
      · rw [unfoldIn_of_mem rfl hm] at hu
        cases hu
        exact ⟨rfl, hm⟩
      · rw [unfoldIn_table hm] at hu
        cases hu
    | _ => simp [unfoldIn] at hu
  · rintro ⟨hc, hm⟩
    exact unfoldIn_of_mem hc hm

/-- An object that is not inside itself has its elements for parts, each inside it. -/
theorem parts_unfoldIn (hc : v.container? = some c) (hn : c ∉ path) :
    (h.unfoldIn path v).parts =
      (h.elements c).map fun e => h.unfoldIn (c :: path) e.2 := by
  cases v with
  | array id =>
    cases hc
    rw [unfoldIn_array hn, Unfolding.parts, elements, List.map_map]
    rfl
  | table id =>
    cases hc
    rw [unfoldIn_table hn, Unfolding.parts, elements, List.map_map, List.map_map]
    rfl
  | _ => cases hc

/-- It is written with all of them, in their order. -/
theorem render_unfoldIn (hc : v.container? = some c) (hn : c ∉ path) :
    (h.unfoldIn path v).render =
      c.enclose ((h.elements c).map fun e => e.1 ++ (h.unfoldIn (c :: path) e.2).render) := by
  cases v with
  | array id =>
    cases hc
    have hempty (s : String) : "" ++ s = s := String.empty_append
    rw [unfoldIn_array hn, Unfolding.render, Unfolding.renderItems_eq, elements, List.map_map,
      List.map_map]
    simp only [Function.comp_def, hempty, Container.enclose]
  | table id =>
    cases hc
    rw [unfoldIn_table hn, Unfolding.render, Unfolding.renderEntries_eq, elements, List.map_map,
      List.map_map]
    rfl
  | _ => cases hc

/-- What is marked or no object has no parts. -/
theorem exists_container_of_parts {u : Unfolding} {i : Nat}
    (hp : (h.unfoldIn path v).parts[i]? = some u) : ∃ c, v.container? = some c ∧ c ∉ path := by
  cases hc : v.container? with
  | none =>
    have hnone : (h.unfoldIn path v).parts = [] := by
      cases v with
      | array | table => cases hc
      | _ => rw [unfoldIn]; rfl
    rw [hnone] at hp
    cases hp
  | some c =>
    refine ⟨c, rfl, fun hm => ?_⟩
    rw [unfoldIn_of_mem hc hm] at hp
    cases hp

/-! ## Rules of writing -/

/-- **How a value is written** inside the objects `path`: one of these is marked, and
any other object is written with all its elements, each inside it too. -/
inductive Written (h : Heap) : List Container → Value → String → Prop where
  | number {path : List Container} (n : Number) : Written h path (.number n) n.render
  | text {path : List Container} (s : String) : Written h path (.text s) s
  | boolean {path : List Container} (b : Bool) : Written h path (.boolean b) (TableKey.truth b)
  | function {path : List Container} (id : FunctionId) :
      Written h path (.function id)
        ((h.function id).name ++ "(" ++ ",".intercalate (h.function id).params ++ ")")
  | marked {path : List Container} {v : Value} {c : Container} :
      v.container? = some c → c ∈ path → Written h path v c.marker
  | inFull {path : List Container} {v : Value} {c : Container} (texts : Nat → String) :
      v.container? = some c → c ∉ path →
      (∀ i label w, (h.elements c)[i]? = some (label, w) → Written h (c :: path) w (texts i)) →
      Written h path v (c.enclose ((h.elements c).mapIdx fun i e => e.1 ++ texts i))

/-- What is written is the text of the unfolding. -/
theorem Written.eq_render {text : String} (hw : h.Written path v text) :
    text = (h.unfoldIn path v).render := by
  induction hw with
  | number | text | boolean | function => simp [unfoldIn, Unfolding.render]
  | @marked path v c hc hm =>
    rw [unfoldIn_of_mem hc hm]
    cases c <;> rfl
  | @inFull path v c texts hc hn _ ih =>
    have helements : (h.elements c).mapIdx (fun i e => e.1 ++ texts i) =
        (h.elements c).map fun e => e.1 ++ (h.unfoldIn (c :: path) e.2).render := by
      refine List.ext_getElem? fun i => ?_
      rw [List.getElem?_mapIdx, List.getElem?_map]
      cases he : (h.elements c)[i]? with
      | none => rfl
      | some e =>
        have htext := ih i e.1 e.2 he
        rw [Option.map_some, Option.map_some, htext]
    rw [render_unfoldIn hc hn, helements]

/-- An element of an object belongs to one that the heap has. -/
theorem mem_containers_of_elements {i : Nat} {e : String × Value}
    (he : (h.elements c)[i]? = some e) : c ∈ h.containers := by
  cases c with
  | array id =>
    cases hi : h.arrays[id.index]? with
    | some items => exact array_mem_containers hi
    | none =>
      rw [elements, items, hi] at he
      cases he
  | table id =>
    cases hi : h.tables[id.index]? with
    | some map => exact table_mem_containers hi
    | none =>
      rw [elements, entries, hi] at he
      cases he

/-- **Writing ends**, and comes to the text of the unfolding: each object that is
entered leaves fewer to enter. -/
theorem written_render (h : Heap) (path : List Container) (v : Value) :
    h.Written path v (h.unfoldIn path v).render := by
  induction hk : h.closedCount path using Nat.strongRecOn generalizing path v with
  | ind k ih =>
    cases hc : v.container? with
    | none =>
      cases v with
      | number n => rw [unfoldIn]; exact .number n
      | text s => rw [unfoldIn]; exact .text s
      | boolean b => rw [unfoldIn]; exact .boolean b
      | function id => rw [unfoldIn]; exact .function id
      | array | table => cases hc
    | some c =>
      by_cases hm : c ∈ path
      · have hmarked : (h.unfoldIn path v).render = c.marker := by
          rw [unfoldIn_of_mem hc hm]
          cases c <;> rfl
        rw [hmarked]
        exact .marked hc hm
      · let texts (i : Nat) : String :=
          (((h.elements c)[i]?).map fun e => (h.unfoldIn (c :: path) e.2).render).getD ""
        have hfull : h.Written path v
            (c.enclose ((h.elements c).mapIdx fun i e => e.1 ++ texts i)) := by
          refine .inFull texts hc hm fun i label w he => ?_
          have hlt : h.closedCount (c :: path) < k :=
            hk ▸ closedCount_cons_lt (mem_containers_of_elements he) hm
          have htext : texts i = (h.unfoldIn (c :: path) w).render := by simp [texts, he]
          rw [htext]
          exact ih _ hlt (c :: path) w rfl
        rw [← hfull.eq_render]
        exact hfull

/-- **A value is written in one way** inside some objects. -/
theorem written_iff (h : Heap) (path : List Container) (v : Value) (text : String) :
    h.Written path v text ↔ text = (h.unfoldIn path v).render := by
  constructor
  · exact Written.eq_render
  · rintro rfl
    exact h.written_render path v

/-! ## Places -/

/-- **What stands below a value**: at a place, inside the objects that are entered on
the way there, the innermost first. -/
inductive Way (h : Heap) (root : Value) : List Nat → List Container → Value → Prop where
  | root : Way h root [] [] root
  | into {place : List Nat} {path : List Container} {v w : Value} {c : Container} {i : Nat}
      {label : String} :
      Way h root place path v → v.container? = some c → (h.elements c)[i]? = some (label, w) →
      Way h root (place ++ [i]) (c :: path) w

variable {root : Value} {place : List Nat}

/-- As many objects enclose a place as were entered on the way, and the heap has
them. -/
theorem Way.enclosing (hw : h.Way root place path v) :
    path.length = place.length ∧ ∀ c ∈ path, c ∈ h.containers := by
  induction hw with
  | root => exact ⟨rfl, fun _ hc => absurd hc (List.not_mem_nil)⟩
  | into _ _ he ih =>
    obtain ⟨hlength, hmem⟩ := ih
    refine ⟨by simp [hlength], ?_⟩
    exact List.forall_mem_cons.2 ⟨mem_containers_of_elements he, hmem⟩

/-- A place inside different objects is shown, with what stands there. -/
theorem Way.at?_of_nodup (hw : h.Way root place path v) (hn : path.Nodup) :
    (h.unfold root).at? place = some (h.unfoldIn path v) := by
  induction hw with
  | root => rfl
  | @into place path v w c i label _ hc he ih =>
    obtain ⟨hnew, hpath⟩ := List.nodup_cons.1 hn
    rw [Unfolding.at?_concat, ih hpath, Option.bind_some, parts_unfoldIn hc hnew,
      List.getElem?_map, he]
    rfl

/-- A place with an object inside itself above it is not. -/
theorem Way.at?_of_not_nodup (hw : h.Way root place path v) (hn : ¬ path.Nodup) :
    (h.unfold root).at? place = none := by
  induction hw with
  | root => exact absurd List.nodup_nil hn
  | @into place path v w c i label hw hc _ ih =>
    rw [Unfolding.at?_concat]
    by_cases hpath : path.Nodup
    · -- the object at the place above is the first that is inside itself
      have hm : c ∈ path := by
        by_contra hnew
        exact hn (List.nodup_cons.2 ⟨hnew, hpath⟩)
      rw [hw.at?_of_nodup hpath, Option.bind_some, unfoldIn_of_mem hc hm]
      rfl
    · rw [ih hpath]
      rfl

/-- What is shown stands below the value. -/
theorem exists_way_of_at? {u : Unfolding} (hu : (h.unfold root).at? place = some u) :
    ∃ path v, h.Way root place path v ∧ path.Nodup ∧ u = h.unfoldIn path v := by
  induction place using List.reverseRecOn generalizing u with
  | nil =>
    cases hu
    exact ⟨[], root, .root, List.nodup_nil, rfl⟩
  | append_singleton place i ih =>
    rw [Unfolding.at?_concat] at hu
    obtain ⟨outer, houter, hpart⟩ := Option.bind_eq_some_iff.1 hu
    obtain ⟨path, v, hway, hnodup, rfl⟩ := ih houter
    obtain ⟨c, hc, hnew⟩ := exists_container_of_parts hpart
    rw [parts_unfoldIn hc hnew, List.getElem?_map] at hpart
    obtain ⟨⟨label, w⟩, he, rfl⟩ := Option.map_eq_some_iff.1 hpart
    exact ⟨c :: path, w, .into hway hc he, List.nodup_cons.2 ⟨hnew, hnodup⟩, rfl⟩

/-- **Objects are marked inside themselves and nowhere else.** In every heap a value is
written in one way, which is its display. What is shown stands below the value, and a
place below it is shown exactly when no object on the way there is inside itself. There
an object is marked exactly when it is one of those that enclose the place, and
otherwise it is written in full; and no place that is shown is deeper than there are
objects. -/
theorem marked_iff_enclosed (h : Heap) (root : Value) :
    (∀ text, h.Written [] root text ↔ text = h.display root) ∧
    (∀ place u, (h.unfold root).at? place = some u → ∃ path v, h.Way root place path v) ∧
    ∀ place path v, h.Way root place path v →
      (((h.unfold root).at? place).isSome = true ↔ path.Nodup) ∧
      ∀ u, (h.unfold root).at? place = some u →
        (∀ c, u = .enclosing c ↔ v.container? = some c ∧ c ∈ path) ∧
        (∀ text, h.Written path v text ↔ text = u.render) ∧
        place.length ≤ h.containers.length := by
  refine ⟨h.written_iff [] root, ?_, fun place path v hway => ?_⟩
  · intro place u hu
    obtain ⟨path, v, hway, -⟩ := exists_way_of_at? hu
    exact ⟨path, v, hway⟩
  · by_cases hn : path.Nodup
    · have hat := hway.at?_of_nodup hn
      refine ⟨by simp [hat, hn], fun u hu => ?_⟩
      obtain rfl : h.unfoldIn path v = u := Option.some.inj (hat.symm.trans hu)
      obtain ⟨hlength, hmem⟩ := hway.enclosing
      refine ⟨fun c => unfoldIn_eq_enclosing_iff, h.written_iff path v, ?_⟩
      exact hlength ▸ (hn.subperm hmem).length_le
    · have hat := hway.at?_of_not_nodup hn
      refine ⟨by simp [hat, hn], fun u hu => ?_⟩
      cases hat.symm.trans hu

/-! ## An object twice in another, and one in itself -/

/-- An array of two occurrences of another array, and itself. -/
def knot : Heap where
  arrays := #[#[.array ⟨1⟩, .array ⟨1⟩, .array ⟨0⟩], #[.number (.decimal 1)]]
  tables := #[]
  functions := #[]

theorem way_knot {i : Nat} {w : Value} (he : (knot.elements (.array ⟨0⟩))[i]? = some ("", w)) :
    knot.Way (.array ⟨0⟩) [i] [.array ⟨0⟩] w := .into .root rfl he

/-- The array that is there twice is written in full both times, and the one that is in
itself is marked. -/
theorem marked_iff_enclosed_knot :
    knot.display (.array ⟨0⟩) = "[[1],[1],[...]]" ∧
      (∃ u, (knot.unfold (.array ⟨0⟩)).at? [1] = some u ∧ u ≠ .enclosing (.array ⟨1⟩)) ∧
      ∃ u, (knot.unfold (.array ⟨0⟩)).at? [2] = some u ∧ u = .enclosing (.array ⟨0⟩) := by
  obtain ⟨-, -, hplaces⟩ := marked_iff_enclosed knot (.array ⟨0⟩)
  have hone : [Container.array ⟨0⟩].Nodup := by simp
  refine ⟨by decide +kernel, ?_, ?_⟩
  · obtain ⟨hshown, hmarked⟩ := hplaces [1] _ _ (way_knot (i := 1) rfl)
    obtain ⟨u, hu⟩ := Option.isSome_iff_exists.1 (hshown.2 hone)
    refine ⟨u, hu, fun heq => ?_⟩
    have hmem := (((hmarked u hu).1 _).1 heq).2
    simp at hmem
  · obtain ⟨hshown, hmarked⟩ := hplaces [2] _ _ (way_knot (i := 2) rfl)
    obtain ⟨u, hu⟩ := Option.isSome_iff_exists.1 (hshown.2 hone)
    exact ⟨u, hu, ((hmarked u hu).1 _).2 ⟨rfl, List.mem_singleton_self _⟩⟩

end Heap

end HotkeyScript
