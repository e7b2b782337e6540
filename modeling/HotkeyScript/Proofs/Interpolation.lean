import HotkeyScript.Machine.Evaluate
import HotkeyScript.Proofs.Machine.Access
import Mathlib.Data.List.Forall2
/-!
# Interpolation

One scan from the left divides a text into characters and references
(`Text.Divides`): a percent sign opens a reference where a name and another percent
sign stand behind it, and is a character of the text elsewhere. Every text is divided in
one way (`Text.divides_iff`).

Interpolation shows the value of each reference in its place and leaves the characters
as they are; what is shown is not divided again. It fails where a name has no value, for
the first such name (`interpolate_references`).
-/

namespace HotkeyScript

namespace Text

/-! ## The scan -/

/-- A percent sign in front of this text opens a reference: a name that is not empty,
and a percent sign, stand there. -/
structure Opens (name rest cs : List Char) : Prop where
  nonempty : name ≠ []
  isName : ∀ c ∈ name, isNameChar c = true
  text : cs = name ++ '%' :: rest

/-- **How one scan from the left divides a text.** -/
inductive Divides : List Char → List Part → Prop where
  | nil : Divides [] []
  /-- The scan goes on behind a reference. -/
  | reference {name rest cs : List Char} {parts : List Part} :
      Opens name rest cs → Divides rest parts → Divides ('%' :: cs) (.reference name :: parts)
  /-- A percent sign that opens none stands for itself. -/
  | percent {cs : List Char} {parts : List Part} :
      (∀ name rest, ¬ Opens name rest cs) → Divides cs parts → Divides ('%' :: cs) (.char '%' :: parts)
  | char {c : Char} {cs : List Char} {parts : List Part} :
      c ≠ '%' → Divides cs parts → Divides (c :: cs) (.char c :: parts)

/-- A name ends at the first percent sign behind it. -/
theorem Opens.split {name rest cs : List Char} (h : Opens name rest cs) :
    cs.takeWhile isNameChar = name ∧ cs.dropWhile isNameChar = '%' :: rest := by
  rw [h.text, List.takeWhile_append_of_pos h.isName, List.dropWhile_append_of_pos h.isName]
  exact ⟨List.append_nil name, rfl⟩

/-- Behind a percent sign, the reference that it opens is found. -/
theorem reference?_of_opens {name rest cs : List Char} (h : Opens name rest cs) :
    ∃ hlength, reference? cs = some (name, ⟨rest, hlength⟩) := by
  obtain ⟨hname, hrest⟩ := h.split
  have hlength : rest.length < cs.length := length_lt_of_dropWhile hrest
  refine ⟨hlength, ?_⟩
  unfold reference?
  split
  next c tail hd =>
    rw [hrest] at hd
    cases hd
    rw [if_pos ⟨rfl, hname ▸ h.nonempty⟩]
    simp only [hname]
  next hd => rw [hrest] at hd; cases hd

/-- What is found is a reference that the percent sign opens. -/
theorem opens_of_reference? {cs name rest : List Char} {hlength : rest.length < cs.length}
    (h : reference? cs = some (name, ⟨rest, hlength⟩)) : Opens name rest cs := by
  have htext := (reference?_append h).symm
  unfold reference? at h
  split at h
  next c tail hd =>
    split at h
    next hc =>
      cases h
      exact ⟨hc.2, List.all_eq_true.1 List.all_takeWhile, htext⟩
    next => cases h
  next => cases h

/-- A text is divided into its parts. -/
theorem divides_parts (cs : List Char) : Divides cs (parts cs) := by
  fun_induction parts cs with
  | case1 => exact .nil
  | case2 c cs name rest hlength hr ih =>
    split at hr
    next hc =>
      subst hc
      exact .reference (opens_of_reference? hr) ih
    next => cases hr
  | case3 c cs hr ih =>
    by_cases hc : c = '%'
    · subst hc
      refine .percent (fun name rest hopens => ?_) ih
      obtain ⟨hlength, hfound⟩ := reference?_of_opens hopens
      rw [dif_pos rfl, hfound] at hr
      cases hr
    · exact .char hc ih

/-- **The scan divides a text in one way.** -/
theorem divides_iff {cs : List Char} {ps : List Part} : Divides cs ps ↔ ps = parts cs := by
  constructor
  · intro h
    induction h with
    | nil => rw [parts]
    | reference hopens _ ih =>
      obtain ⟨hlength, hfound⟩ := reference?_of_opens hopens
      rw [parts, if_pos rfl, hfound, ih]
    | @percent cs ps hnone _ ih =>
      have hfound : reference? cs = none := by
        cases hr : reference? cs with
        | none => rfl
        | some r =>
          obtain ⟨name, rest, hlength⟩ := r
          exact absurd (opens_of_reference? hr) (hnone name rest)
      rw [parts, if_pos rfl, hfound, ih]
    | char hc _ ih => rw [parts, if_neg hc, ih]
  · rintro rfl
    exact divides_parts cs

end Text

open Text

/-! ## What is shown -/

/-- A name has a value as seen from the innermost scope. -/
def Machine.Resolves (m : Machine) (name : List Char) : Prop :=
  ∃ v, m.stack.lookup m.stack.current (String.ofList name) = some v

/-- **What a part of a text is shown as**: a character as itself, a reference as the
value of its name. -/
inductive Machine.Shows (m : Machine) : Part → List Char → Prop where
  | char (c : Char) : Shows m (.char c) [c]
  | reference {name : List Char} {v : Value} :
      m.stack.lookup m.stack.current (String.ofList name) = some v →
      Shows m (.reference name) (m.heap.display v).toList

/-- Parts among which a name has no value, the first such behind others that have. -/
structure Machine.Unresolved (m : Machine) (name : List Char) (ps : List Part) : Prop where
  missing : ¬ m.Resolves name
  first : ∃ before after, ps = before ++ .reference name :: after ∧
    ∀ other, .reference other ∈ before → m.Resolves other

namespace Machine

variable {m : Machine} {span : Span} {ps : List Part} {name : List Char}

theorem lookup_of_some {name : String} {v : Value}
    (h : m.stack.lookup m.stack.current name = some v) (span : Span) :
    lookup name span m = .ok v m := by
  unfold lookup
  rw [Run.bind_of_ok (show lookup? name m = .ok (some v) m by rw [lookup?, h])]
  rfl

theorem lookup_of_none {name : String} (h : m.stack.lookup m.stack.current name = none)
    (span : Span) : lookup name span m =
      .error ⟨.runtime (.undefined name), span, m.stack.frames m.stack.current span.start⟩ m := by
  unfold lookup
  rw [Run.bind_of_ok (show lookup? name m = .ok none m by rw [lookup?, h])]
  rfl

theorem fill_char {c : Char} {n : Machine} {rest : List Char} (h : fill span ps m = .ok rest n) :
    fill span (.char c :: ps) m = .ok (c :: rest) n := by
  rw [fill, Run.bind_of_ok h]
  rfl

theorem fill_reference {v : Value} {n : Machine} {rest : List Char}
    (hv : m.stack.lookup m.stack.current (String.ofList name) = some v)
    (h : fill span ps m = .ok rest n) :
    fill span (.reference name :: ps) m = .ok ((m.heap.display v).toList ++ rest) n := by
  have hshown : Machine.display v m = .ok (m.heap.display v) m := rfl
  rw [fill, Run.bind_of_ok (lookup_of_some hv span), Run.bind_of_ok hshown, Run.bind_of_ok h]
  rfl

/-- **Where every part can be shown**, what they are shown as stands in their places. -/
theorem fill_of_shows {shown : List (List Char)} (h : List.Forall₂ m.Shows ps shown)
    (span : Span) : fill span ps m = .ok shown.flatten m := by
  induction h with
  | nil => rfl
  | cons hpart _ ih =>
    cases hpart with
    | char c => exact fill_char ih
    | reference hv => exact fill_reference hv ih

/-- **Where a name has no value**, the first such is what is undefined. -/
theorem fill_of_unresolved (h : m.Unresolved name ps) (span : Span) :
    fill span ps m = .error ⟨.runtime (.undefined (String.ofList name)), span,
      m.stack.frames m.stack.current span.start⟩ m := by
  obtain ⟨hmissing, before, after, rfl, hbefore⟩ := h
  induction before with
  | nil =>
    have hnone : m.stack.lookup m.stack.current (String.ofList name) = none :=
      Option.eq_none_iff_forall_ne_some.2 fun v hv => hmissing ⟨v, hv⟩
    rw [List.nil_append, fill, Run.bind_of_error (lookup_of_none hnone span)]
  | cons part before ih =>
    have hrest := ih fun other hother => hbefore other (List.mem_cons_of_mem part hother)
    cases part with
    | char c => rw [List.cons_append, fill, Run.bind_of_error hrest]
    | reference other =>
      obtain ⟨v, hv⟩ := hbefore other List.mem_cons_self
      have hshown : Machine.display v m = .ok (m.heap.display v) m := rfl
      rw [List.cons_append, fill, Run.bind_of_ok (lookup_of_some hv span), Run.bind_of_ok hshown,
        Run.bind_of_error hrest]

/-- Every part can be shown, or there is a first name without a value. -/
theorem exists_shown_or_unresolved (m : Machine) (ps : List Part) :
    (∃ shown, List.Forall₂ m.Shows ps shown) ∨ ∃ name, m.Unresolved name ps := by
  induction ps with
  | nil => exact .inl ⟨[], .nil⟩
  | cons part ps ih =>
    have hfirst : (∃ shown, m.Shows part shown) ∨
        ∃ name, part = .reference name ∧ ¬ m.Resolves name := by
      cases part with
      | char c => exact .inl ⟨[c], .char c⟩
      | reference name =>
        by_cases hname : m.Resolves name
        · obtain ⟨v, hv⟩ := hname
          exact .inl ⟨_, .reference hv⟩
        · exact .inr ⟨name, rfl, hname⟩
    obtain ⟨shown, hpart⟩ | ⟨name, rfl, hname⟩ := hfirst
    · obtain ⟨more, hmore⟩ | ⟨name, hmissing, before, after, rfl, hbefore⟩ := ih
      · exact .inl ⟨shown :: more, .cons hpart hmore⟩
      · refine .inr ⟨name, hmissing, part :: before, after, rfl, fun other hother => ?_⟩
        obtain rfl | hother := List.mem_cons.1 hother
        · cases hpart with
          | reference hv => exact ⟨_, hv⟩
        · exact hbefore other hother
    · exact .inr ⟨name, hname, [], ps, rfl, fun other hother => nomatch hother⟩

/-- Where every part can be shown, every name has a value. -/
theorem resolves_of_shows {shown : List (List Char)} (h : List.Forall₂ m.Shows ps shown) :
    ∀ name, .reference name ∈ ps → m.Resolves name := by
  induction h with
  | nil => exact fun _ hname => nomatch hname
  | cons hpart _ ih =>
    intro name hname
    obtain rfl | hname := List.mem_cons.1 hname
    · cases hpart with
      | reference hv => exact ⟨_, hv⟩
    · exact ih name hname

end Machine

/-! ## Interpolation -/

/-- **Interpolation shows references, and nothing but them.** A text is divided by one
scan in one way. Interpolation succeeds where every name that is referred to has a
value, and gives the characters of the text in their order with each reference shown in
its place. It fails where a name has none, for the first such name. The machine stays
as it was. -/
theorem interpolate_references (text : String) (span : Span) (m : Machine) :
    ∃ ps, (∀ qs, Divides text.toList qs ↔ qs = ps) ∧ ps.flatMap Part.text = text.toList ∧
      ((∃ s n, interpolate text span m = .ok s n) ↔
        ∀ name, .reference name ∈ ps → m.Resolves name) ∧
      (∀ s n, interpolate text span m = .ok s n ↔
        n = m ∧ ∃ shown, List.Forall₂ m.Shows ps shown ∧ s = String.ofList shown.flatten) ∧
      ∀ e n, interpolate text span m = .error e n ↔
        n = m ∧ ∃ name, m.Unresolved name ps ∧
          e = ⟨.runtime (.undefined (String.ofList name)), span,
            m.stack.frames m.stack.current span.start⟩ := by
  have hshows {shown : List (List Char)} (h : List.Forall₂ m.Shows (parts text.toList) shown) :
      interpolate text span m = .ok (String.ofList shown.flatten) m := by
    rw [interpolate, Run.bind_of_ok (Machine.fill_of_shows h span)]
    rfl
  have hunresolved {name : List Char} (h : m.Unresolved name (parts text.toList)) :
      interpolate text span m = .error ⟨.runtime (.undefined (String.ofList name)), span,
        m.stack.frames m.stack.current span.start⟩ m := by
    rw [interpolate, Run.bind_of_error (Machine.fill_of_unresolved h span)]
  refine ⟨parts text.toList, fun _ => divides_iff, text_parts _, ?_, fun s n => ?_, fun e n => ?_⟩
  · obtain ⟨shown, h⟩ | ⟨name, h⟩ := m.exists_shown_or_unresolved (parts text.toList)
    · exact iff_of_true ⟨_, _, hshows h⟩ (Machine.resolves_of_shows h)
    · obtain ⟨before, after, hps, -⟩ := h.first
      refine iff_of_false ?_ fun hall => h.missing (hall name (by simp [hps]))
      rintro ⟨s, n, hok⟩
      cases hok.symm.trans (hunresolved h)
  · constructor
    · intro hok
      obtain ⟨shown, h⟩ | ⟨name, h⟩ := m.exists_shown_or_unresolved (parts text.toList)
      · cases hok.symm.trans (hshows h)
        exact ⟨rfl, shown, h, rfl⟩
      · cases hok.symm.trans (hunresolved h)
    · rintro ⟨rfl, shown, h, rfl⟩
      exact hshows h
  · constructor
    · intro herror
      obtain ⟨shown, h⟩ | ⟨name, h⟩ := m.exists_shown_or_unresolved (parts text.toList)
      · cases herror.symm.trans (hshows h)
      · cases herror.symm.trans (hunresolved h)
        exact ⟨rfl, name, h, rfl⟩
    · rintro ⟨rfl, name, h, rfl⟩
      exact hunresolved h

end HotkeyScript
