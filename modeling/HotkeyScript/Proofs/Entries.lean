import HotkeyScript.Command.Interactive
import HotkeyScript.Proofs.Reset
import Mathlib.Data.List.Forall2
/-!
# Lines of an interactive session are grouped into entries

Between entries a line is blank, or an order to the session itself, or it begins an
entry, which goes on for the fewest lines that complete it (`Interactive.Grouped`).
All lines can be grouped so (`Interactive.exists_grouped`) and in one way
(`Interactive.Grouped.unique`), and an interactive session acts by the groups and by
nothing else of its lines (`Interactive.Grouped.feed`). What it lists are the names,
each with its value, that the entries since the last reset lead to in a fresh session
(`Interactive.lines_grouped`).
-/

namespace HotkeyScript

namespace Interactive

/-! ## Groups of lines -/

/-- The text of an entry. -/
def joined (lines : List String) : String := "\n".intercalate lines

/-- A line that begins an entry: it is no order, and not blank. -/
def Begins (line : String) : Prop :=
  Order.of? (Text.trimmed line) = none ∧ (Text.trimmed line).isEmpty = false

/-- **The lines of an entry**: the first begins it, all of them complete it, and fewer
do not. -/
structure IsEntry (first : String) (more : List String) : Prop where
  begins : Begins first
  complete : Entry.needsMore (joined (first :: more)) = false
  fewest : ∀ front, front <+: more → front ≠ more → Entry.needsMore (joined (first :: front)) = true

/-- Lines of an entry that is never completed. -/
structure IsUnfinished (first : String) (more : List String) : Prop where
  begins : Begins first
  pending : ∀ front, front <+: more → Entry.needsMore (joined (first :: front)) = true

/-- Lines that belong together. -/
inductive Group where
  | blank (line : String)
  | order (line : String) (o : Order)
  | entry (first : String) (more : List String)

namespace Group

def lines : Group → List String
  | blank line | order line _ => [line]
  | entry first more => first :: more

/-- The text that is run. -/
def text? : Group → Option String
  | entry first more => some (joined (first :: more))
  | _ => none

/-- What becomes of a session. -/
def act (s : Session) : Group → Session
  | entry first more => (s.enter (joined (first :: more))).2
  | order _ .reset => s.reset
  | order _ .debug => s.setDebug !s.machine.settings.debug
  | _ => s

/-- What is shown. The end of the session says farewell, however it is brought
about. -/
def shown (colour : Bool) (s : Session) : Group → String
  | entry first more => (enter ⟨s, colour, [], []⟩ (joined (first :: more))).output
  | order _ .quit => ""
  | order _ o => (obey ⟨s, colour, [], []⟩ o).output
  | blank _ => ""

end Group

/-- What is shown for groups of lines, one after another. -/
def transcript (colour : Bool) : Session → List Group → String
  | _, [] => ""
  | s, g :: gs => g.shown colour s ++ transcript colour (g.act s) gs

/-- **How lines are grouped**, and which lines are left over: those behind an order to
quit, or those of an entry that is not completed. -/
inductive Grouped : List String → List Group → List String → Prop where
  | done : Grouped [] [] []
  | blank {line : String} {lines left : List String} {gs : List Group} :
      (Text.trimmed line).isEmpty = true → Grouped lines gs left →
      Grouped (line :: lines) (.blank line :: gs) left
  | order {line : String} {o : Order} {lines left : List String} {gs : List Group} :
      Order.of? (Text.trimmed line) = some o → o ≠ .quit → Grouped lines gs left →
      Grouped (line :: lines) (.order line o :: gs) left
  | quit {line : String} (lines : List String) :
      Order.of? (Text.trimmed line) = some .quit →
      Grouped (line :: lines) [.order line .quit] lines
  | entry {first : String} {more lines left : List String} {gs : List Group} :
      IsEntry first more → Grouped lines gs left →
      Grouped (first :: (more ++ lines)) (.entry first more :: gs) left
  | unfinished {first : String} {more : List String} :
      IsUnfinished first more → Grouped (first :: more) [] (first :: more)

/-- A text without a character is no order. -/
theorem of?_of_isEmpty {line : String} (h : line.isEmpty = true) : Order.of? line = none := by
  rw [String.isEmpty_iff.1 h]
  rfl

/-- No line is lost, repeated or moved. -/
theorem Grouped.lines_eq {lines left : List String} {gs : List Group} (h : Grouped lines gs left) :
    lines = gs.flatMap Group.lines ++ left := by
  induction h with
  | done => rfl
  | blank _ _ ih => simpa [Group.lines] using ih
  | order _ _ _ ih => simpa [Group.lines] using ih
  | quit lines _ => rfl
  | entry _ _ ih => simpa [Group.lines] using ih
  | unfinished _ => rfl

/-- The fronts of a list are the empty one and those that its first begins. -/
theorem forall_prefix_cons {α : Type} {p : List α → Prop} {a : α} {as : List α} :
    (∀ f, f <+: a :: as → p f) ↔ p [] ∧ ∀ f, f <+: as → p (a :: f) := by
  simp only [List.prefix_cons_iff]
  constructor
  · exact fun h => ⟨h [] (.inl rfl), fun f hf => h (a :: f) (.inr ⟨f, rfl, hf⟩)⟩
  · rintro ⟨hnil, hcons⟩ f (rfl | ⟨f, rfl, hf⟩)
    · exact hnil
    · exact hcons f hf

/-- Something holds of all fronts of a list, or fails first at one. -/
theorem exists_first_or_forall {α : Type} (p : List α → Bool) (as : List α) :
    (∃ front rest, as = front ++ rest ∧ p front = false ∧
      ∀ f, f <+: front → f ≠ front → p f = true) ∨ ∀ f, f <+: as → p f = true := by
  induction as generalizing p with
  | nil =>
    cases hp : p [] with
    | false => exact .inl ⟨[], [], rfl, hp, fun f hf hne => absurd (List.prefix_nil.1 hf) hne⟩
    | true => exact .inr fun f hf => List.prefix_nil.1 hf ▸ hp
  | cons a as ih =>
    cases hp : p [] with
    | false => exact .inl ⟨[], _, rfl, hp, fun f hf hne => absurd (List.prefix_nil.1 hf) hne⟩
    | true =>
      obtain ⟨front, rest, rfl, hf, hfirst⟩ | hall := ih fun f => p (a :: f)
      · refine .inl ⟨a :: front, rest, rfl, hf, forall_prefix_cons.2 ⟨fun _ => hp, ?_⟩⟩
        exact fun f hf hne => hfirst f hf fun he => hne (congrArg _ he)
      · exact .inr (forall_prefix_cons.2 ⟨hp, hall⟩)

/-- Lines that begin with one that begins an entry are an entry and more, or an entry
that is not completed. -/
theorem Begins.exists_entry {first : String} (h : Begins first) (rest : List String) :
    (∃ more lines, rest = more ++ lines ∧ IsEntry first more) ∨ IsUnfinished first rest := by
  obtain ⟨more, lines, rfl, hc, hf⟩ | hall :=
    exists_first_or_forall (fun front => Entry.needsMore (joined (first :: front))) rest
  · exact .inl ⟨more, lines, rfl, h, hc, hf⟩
  · exact .inr ⟨h, hall⟩

/-- **Lines can be grouped.** -/
theorem exists_grouped (lines : List String) : ∃ gs left, Grouped lines gs left := by
  match lines with
  | [] => exact ⟨_, _, .done⟩
  | line :: rest =>
    cases ho : Order.of? (Text.trimmed line) with
    | some o =>
      by_cases hq : o = .quit
      · exact ⟨_, _, .quit rest (hq ▸ ho)⟩
      · obtain ⟨gs, left, h⟩ := exists_grouped rest
        exact ⟨_, _, .order ho hq h⟩
    | none =>
      cases hb : (Text.trimmed line).isEmpty with
      | true =>
        obtain ⟨gs, left, h⟩ := exists_grouped rest
        exact ⟨_, _, .blank hb h⟩
      | false =>
        obtain ⟨more, behind, hr, he⟩ | hu := Begins.exists_entry ⟨ho, hb⟩ rest
        · have hshort : behind.length < (line :: rest).length := by
            rw [hr, List.length_cons, List.length_append]
            omega
          obtain ⟨gs, left, h⟩ := exists_grouped behind
          rw [hr]
          exact ⟨_, _, .entry he h⟩
        · exact ⟨_, _, .unfinished hu⟩
termination_by lines.length
decreasing_by
  · exact hshort
  · exact Nat.lt_succ_self _
  · exact Nat.lt_succ_self _

/-! ## One way to group -/

/-- What completes an entry completes it with the fewest lines, so no other lines that
follow it there do. -/
theorem IsEntry.unique {first : String} {more more' lines lines' : List String}
    (h : IsEntry first more) (h' : IsEntry first more') (hl : more ++ lines = more' ++ lines') :
    more = more' := by
  have hfront {m m' : List String} (hm : IsEntry first m) (hm' : IsEntry first m')
      (hp : m <+: m') : m = m' := by
    refine Decidable.byContradiction fun hne => ?_
    have hopen := hm'.fewest m hp hne
    rw [hm.complete] at hopen
    cases hopen
  obtain hp | hp := List.prefix_or_prefix_of_prefix (List.prefix_append more lines)
    (hl ▸ List.prefix_append more' lines')
  · exact hfront h h' hp
  · exact (hfront h' h hp).symm

/-- An entry that is not completed is completed by none of its lines. -/
theorem IsUnfinished.not_isEntry {first : String} {more lines : List String}
    (h : IsUnfinished first (more ++ lines)) : ¬ IsEntry first more := fun he => by
  have hopen := h.pending more (List.prefix_append more lines)
  rw [he.complete] at hopen
  cases hopen

/-- **There is one way to group lines.** -/
theorem Grouped.unique {lines left left' : List String} {gs gs' : List Group}
    (h : Grouped lines gs left) (h' : Grouped lines gs' left') : gs = gs' ∧ left = left' := by
  -- what a line is decides which rule it is grouped by
  have hblank {line : String} (hb : (Text.trimmed line).isEmpty = true) : ¬ Begins line :=
    fun hs => Bool.eq_false_iff.1 hs.2 hb
  have horder {line : String} {o : Order} (ho : Order.of? (Text.trimmed line) = some o) :
      (Text.trimmed line).isEmpty = false ∧ ¬ Begins line := by
    refine ⟨Bool.eq_false_iff.2 fun hb => ?_, fun hs => ?_⟩
    · rw [of?_of_isEmpty hb] at ho
      cases ho
    · rw [hs.1] at ho
      cases ho
  induction h generalizing gs' left' with
  | done =>
    cases h'
    exact ⟨rfl, rfl⟩
  | blank hb _ ih =>
    cases h' with
    | blank _ h' =>
      obtain ⟨rfl, rfl⟩ := ih h'
      exact ⟨rfl, rfl⟩
    | order ho | quit _ ho => exact absurd hb (Bool.eq_false_iff.1 (horder ho).1)
    | entry he => exact absurd he.begins (hblank hb)
    | unfinished hu => exact absurd hu.begins (hblank hb)
  | order ho hq _ ih =>
    cases h' with
    | blank hb => exact absurd hb (Bool.eq_false_iff.1 (horder ho).1)
    | order ho' _ h' =>
      obtain rfl := Option.some.inj (ho.symm.trans ho')
      obtain ⟨rfl, rfl⟩ := ih h'
      exact ⟨rfl, rfl⟩
    | quit _ ho' => exact absurd (Option.some.inj (ho.symm.trans ho')) hq
    | entry he => exact absurd he.begins (horder ho).2
    | unfinished hu => exact absurd hu.begins (horder ho).2
  | quit _ ho =>
    cases h' with
    | blank hb => exact absurd hb (Bool.eq_false_iff.1 (horder ho).1)
    | order ho' hq => exact absurd (Option.some.inj (ho'.symm.trans ho)) hq
    | quit => exact ⟨rfl, rfl⟩
    | entry he => exact absurd he.begins (horder ho).2
    | unfinished hu => exact absurd hu.begins (horder ho).2
  | @entry first more lines left gs he _ ih =>
    generalize hl : first :: (more ++ lines) = all at h'
    cases h' with
    | done => cases hl
    | blank hb => cases hl; exact absurd he.begins (hblank hb)
    | order ho | quit _ ho => cases hl; exact absurd he.begins (horder ho).2
    | entry he' h' =>
      obtain ⟨rfl, hrest⟩ := List.cons.inj hl
      obtain rfl := he.unique he' hrest
      obtain rfl := List.append_cancel_left hrest
      obtain ⟨rfl, rfl⟩ := ih h'
      exact ⟨rfl, rfl⟩
    | unfinished hu => cases hl; exact absurd he hu.not_isEntry
  | @unfinished first more hu =>
    generalize hl : first :: more = all at h'
    cases h' with
    | done => cases hl
    | blank hb => cases hl; exact absurd hu.begins (hblank hb)
    | order ho | quit _ ho => cases hl; exact absurd hu.begins (horder ho).2
    | entry he' =>
      obtain ⟨rfl, rfl⟩ := List.cons.inj hl
      exact absurd he' hu.not_isEntry
    | unfinished => cases hl; exact ⟨rfl, rfl⟩

/-! ## One line after another -/

variable {i : Interactive} {line : String} {lines : List String}

/-- Behind a line that the session goes on from, the others are fed to what it goes on
to. -/
theorem feed_cons {reply : Reply} {j : Interactive} (hs : i.step line = reply)
    (hn : reply.next = some j) (lines : List String) :
    (i.feed (line :: lines)).1.output = reply.output ++ (j.feed lines).1.output ∧
      (i.feed (line :: lines)).2 = (j.feed lines).2 := by
  rw [feed]
  subst hs
  simp only [hn]
  exact ⟨trivial, trivial⟩

/-- An entry leads on, with nothing pending. -/
theorem next_enter (i : Interactive) (text : String) :
    (i.enter text).next = some ⟨(i.session.enter text).2, i.colour, [], i.entries ++ [text]⟩ := by
  unfold enter
  obtain ⟨⟨value, echoes, failure⟩, session⟩ := i.session.enter text
  cases failure <;> cases value <;> rfl

/-- What an entry shows depends on the session alone. -/
theorem output_enter (i : Interactive) (text : String) :
    (i.enter text).output = (enter ⟨i.session, i.colour, [], []⟩ text).output := by
  unfold enter
  obtain ⟨⟨value, echoes, failure⟩, session⟩ := i.session.enter text
  cases failure <;> cases value <;> rfl

/-- A line that begins an entry is gathered, and so is any line behind it. -/
theorem step_eq_gather (h : i.pending = [] → Begins line) : i.step line = i.gather line := by
  unfold step
  cases hp : i.pending with
  | nil =>
    obtain ⟨ho, hb⟩ := h hp
    simp [ho, hb]
  | cons first more => rfl

/-- An interactive session that gathered a line. -/
def gathered (i : Interactive) (line : String) : Interactive :=
  { i with pending := i.pending ++ [line] }

theorem pending_gathered (i : Interactive) (line : String) (front : List String) :
    (i.gathered line).pending ++ front = i.pending ++ line :: front :=
  List.append_assoc i.pending [line] front

theorem pending_gathered_ne_nil (i : Interactive) (line : String) :
    (i.gathered line).pending ≠ [] :=
  List.append_ne_nil_of_right_ne_nil _ (List.cons_ne_nil line [])

/-- While an entry is not complete, its lines are gathered, and nothing is shown. -/
theorem feed_gathered (hb : i.pending = [] → Begins line)
    (ho : Entry.needsMore (joined (i.pending ++ [line])) = true) (lines : List String) :
    (i.feed (line :: lines)).1.output = ((i.gathered line).feed lines).1.output ∧
      (i.feed (line :: lines)).2 = ((i.gathered line).feed lines).2 := by
  have hg : i.gather line = goOn "" (i.gathered line) := by
    rw [gather]
    exact if_pos ho
  obtain ⟨houtput, hlast⟩ := feed_cons ((step_eq_gather hb).trans hg) rfl lines
  exact ⟨houtput.trans (String.empty_append ..), hlast⟩

/-- **The lines that complete an entry** run it. -/
theorem feed_entry {more : List String} (hb : i.pending = [] → Begins line)
    (hc : Entry.needsMore (joined (i.pending ++ line :: more)) = false)
    (hf : ∀ front, front <+: more → front ≠ more →
      Entry.needsMore (joined (i.pending ++ line :: front)) = true) (lines : List String) :
    let text := joined (i.pending ++ line :: more)
    let j : Interactive := ⟨(i.session.enter text).2, i.colour, [], i.entries ++ [text]⟩
    (i.feed (line :: (more ++ lines))).1.output =
      (enter ⟨i.session, i.colour, [], []⟩ text).output ++ (j.feed lines).1.output ∧
      (i.feed (line :: (more ++ lines))).2 = (j.feed lines).2 := by
  intro text j
  induction more generalizing i line with
  | nil =>
    have hg : i.gather line = i.enter text := by
      rw [gather]
      exact if_neg (Bool.eq_false_iff.1 hc)
    rw [← output_enter]
    exact feed_cons ((step_eq_gather hb).trans hg) (next_enter i text) lines
  | cons next more ih =>
    obtain ⟨hopen, hf⟩ := forall_prefix_cons.1 hf
    obtain ⟨houtput, hlast⟩ :=
      feed_gathered hb (hopen (List.cons_ne_nil next more).symm) (next :: (more ++ lines))
    rw [List.cons_append, houtput, hlast]
    have hbegins : (i.gathered line).pending = [] → Begins next :=
      fun hp => absurd hp (pending_gathered_ne_nil i line)
    have hrest := ih hbegins
    simp only [pending_gathered] at hrest
    exact hrest hc fun front hp hne => hf front hp fun he => hne (List.cons.inj he).2

/-- **An entry that is not completed** is not run. -/
theorem feed_unfinished (hb : i.pending = [] → Begins line)
    (ho : ∀ front, front <+: lines →
      Entry.needsMore (joined (i.pending ++ line :: front)) = true) :
    (i.feed (line :: lines)).1.output = farewell ∧
      (i.feed (line :: lines)).2 = { i with pending := i.pending ++ line :: lines } := by
  induction lines generalizing i line with
  | nil => exact feed_gathered hb (ho [] List.nil_prefix) []
  | cons next lines ih =>
    obtain ⟨hopen, ho⟩ := forall_prefix_cons.1 ho
    obtain ⟨houtput, hlast⟩ := feed_gathered hb hopen (next :: lines)
    rw [houtput, hlast]
    have hbegins : (i.gathered line).pending = [] → Begins next :=
      fun hp => absurd hp (pending_gathered_ne_nil i line)
    have hrest := ih hbegins
    simp only [pending_gathered] at hrest
    exact hrest ho

/-- An order other than to quit leads on, to what it makes of the session. -/
theorem next_obey (i : Interactive) (line : String) {o : Order} (hq : o ≠ .quit) :
    (i.obey o).next = some { i with session := Group.act i.session (.order line o) } := by
  cases o with
  | quit => exact (hq rfl).elim
  | reset | help | bindings | debug => rfl

theorem output_obey (i : Interactive) (line : String) {o : Order} (hq : o ≠ .quit) :
    (i.obey o).output = Group.shown i.colour i.session (.order line o) := by
  cases o with
  | quit => exact (hq rfl).elim
  | reset | help | bindings | debug => rfl

theorem step_of_order (hi : i.pending = []) {o : Order}
    (ho : Order.of? (Text.trimmed line) = some o) : i.step line = i.obey o := by
  simp [step, hi, ho]

theorem step_of_blank (hi : i.pending = []) (hb : (Text.trimmed line).isEmpty = true) :
    i.step line = goOn "" i := by
  simp [step, hi, of?_of_isEmpty hb, hb]

/-- **A session acts by groups of lines.** What is shown is what the groups show, then
the farewell; the entries that are run are those of the groups, in their order; and
the session goes from group to group. -/
theorem Grouped.feed {lines left : List String} {gs : List Group} (h : Grouped lines gs left)
    {i : Interactive} (hi : i.pending = []) :
    (i.feed lines).1.output = transcript i.colour i.session gs ++ farewell ∧
      (i.feed lines).2.entries = i.entries ++ gs.filterMap Group.text? ∧
      (i.feed lines).2.session = gs.foldl Group.act i.session := by
  induction h generalizing i with
  | done => exact ⟨(String.empty_append ..).symm, (List.append_nil _).symm, rfl⟩
  | @blank line lines left gs hb _ ih =>
    obtain ⟨houtput, hlast⟩ := feed_cons (step_of_blank hi hb) rfl lines
    rw [houtput, hlast, (ih hi).1, transcript, String.append_assoc]
    exact ⟨rfl, (ih hi).2⟩
  | @order line o lines left gs ho hq _ ih =>
    obtain ⟨houtput, hlast⟩ := feed_cons (step_of_order hi ho) (next_obey i line hq) lines
    have hrest := ih (i := { i with session := Group.act i.session (.order line o) }) hi
    rw [houtput, hlast, transcript, String.append_assoc, ← hrest.1, output_obey i line hq]
    exact ⟨rfl, hrest.2⟩
  | @quit line lines ho =>
    have hf : i.feed (line :: lines) = (⟨0, farewell, ""⟩, i) := by
      rw [Interactive.feed, step_of_order hi ho]
      rfl
    rw [hf]
    exact ⟨rfl, (List.append_nil _).symm, rfl⟩
  | @entry first more lines left gs he _ ih =>
    have hp (front : List String) : i.pending ++ first :: front = first :: front := by
      rw [hi, List.nil_append]
    obtain ⟨houtput, hlast⟩ := feed_entry (i := i) (fun _ => he.begins)
      (by rw [hp]; exact he.complete) (fun front hf hne => by rw [hp]; exact he.fewest front hf hne)
      lines
    rw [hp] at houtput hlast
    obtain ⟨hshown, hentries, hsession⟩ := ih (i := ⟨_, i.colour, [], _⟩) rfl
    rw [houtput, hlast, hshown, hentries, hsession, transcript, String.append_assoc]
    exact ⟨rfl, List.append_assoc .., rfl⟩
  | @unfinished first more hu =>
    have hp (front : List String) : i.pending ++ first :: front = first :: front := by
      rw [hi, List.nil_append]
    obtain ⟨houtput, hlast⟩ := feed_unfinished (i := i) (fun _ => hu.begins)
      fun front hf => by rw [hp]; exact hu.pending front hf
    rw [houtput, hlast]
    exact ⟨(String.empty_append ..).symm, (List.append_nil _).symm, rfl⟩

/-! ## Since the last reset -/

namespace Group

/-- Whether the group is an order of a kind. -/
def orders (o : Order) : Group → Bool
  | order _ o' => o == o'
  | _ => false

/-- Whether debug mode is on behind groups of lines, if it is before them. -/
def debugAfter (on : Bool) (gs : List Group) : Bool :=
  gs.foldl (fun on g => on != g.orders .debug) on

/-- The entries among groups of lines, each with whether debug mode is on when it is
run. -/
def entriesIn (on : Bool) : List Group → List (Bool × String)
  | [] => []
  | g :: gs => (g.text?.map (on, ·)).toList ++ entriesIn (on != g.orders .debug) gs

end Group

/-- Runs an entry with debug mode on or off. -/
def enterIn (s : Session) (e : Bool × String) : Session := ((s.setDebug e.1).enter e.2).2

/-- To run an entry is to evaluate it and to take what it echoed. -/
theorem snd_enter (s : Session) (text : String) :
    (s.enter text).2 = s.performAll [.eval text, .takeEchoes] := by
  rw [Session.performAll, List.foldl_cons, List.foldl_cons, List.foldl_nil, Session.perform]
  unfold Session.enter
  obtain ⟨answer, t⟩ := s.eval text
  cases answer <;> rfl

theorem enterIn_eq (s : Session) (e : Bool × String) :
    enterIn s e = s.performAll [.setDebug e.1, .eval e.2, .takeEchoes] :=
  snd_enter (s.setDebug e.1) e.2

/-- What a group does can be asked of a session. -/
theorem Group.exists_act_eq (g : Group) (s : Session) : ∃ ops, g.act s = s.performAll ops := by
  cases g with
  | blank => exact ⟨[], rfl⟩
  | entry first more => exact ⟨_, snd_enter s _⟩
  | order line o =>
    cases o with
    | reset => exact ⟨[.reset], rfl⟩
    | debug => exact ⟨[.setDebug !s.machine.settings.debug], rfl⟩
    | quit | help | bindings => exact ⟨[], rfl⟩

theorem exists_foldl_act_eq (gs : List Group) (s : Session) :
    ∃ ops, gs.foldl Group.act s = s.performAll ops := by
  induction gs generalizing s with
  | nil => exact ⟨[], rfl⟩
  | cons g gs ih =>
    obtain ⟨ops, hops⟩ := g.exists_act_eq s
    obtain ⟨more, hmore⟩ := ih (g.act s)
    refine ⟨ops ++ more, ?_⟩
    rw [List.foldl_cons, hmore, hops, Session.performAll_append]

/-- A text changes no settings. -/
theorem settings_eval (s : Session) (text : String) :
    (s.eval text).2.machine.settings = s.machine.settings := by
  change (s.perform (.eval text)).machine.settings = s.machine.settings
  cases hp : (⟨s.name, text⟩ : Source).program with
  | error e =>
    rw [(Session.perform_of_error rfl hp).1]
    rfl
  | ok program =>
    refine (Session.leaves_perform rfl hp).keeps (P := fun m => m.settings = s.machine.settings)
      rfl (fun _ h => h) (fun k h => ?_) fun _ _ _ _ h he => he.kept.settings_eq.trans h
    exact (Machine.settings_unwindBy _ k).trans h

theorem settings_enter (s : Session) (text : String) :
    (s.enter text).2.machine.settings = s.machine.settings := by
  rw [snd_enter]
  exact settings_eval s text

theorem settings_act (g : Group) (s : Session) :
    (g.act s).machine.settings =
      { s.machine.settings with debug := s.machine.settings.debug != g.orders .debug } := by
  have hsame : s.machine.settings =
      { s.machine.settings with debug := s.machine.settings.debug != false } := by
    rw [Bool.bne_false]
  cases g with
  | blank => exact hsame
  | entry first more => exact (settings_enter s _).trans hsame
  | order line o =>
    cases o with
    | debug =>
      have ht : Group.orders .debug (.order line .debug) = true := rfl
      rw [ht, Bool.bne_true]
      rfl
    | quit | help | bindings | reset => exact hsame

/-- Orders alone switch debug mode. -/
theorem settings_foldl_act (gs : List Group) (s : Session) :
    (gs.foldl Group.act s).machine.settings =
      { s.machine.settings with debug := Group.debugAfter s.machine.settings.debug gs } := by
  induction gs generalizing s with
  | nil => rfl
  | cons g gs ih =>
    rw [List.foldl_cons, ih, settings_act]
    rfl

theorem foldl_enterIn_setDebug (es : List (Bool × String)) (s : Session) (on on' : Bool) :
    (es.foldl enterIn (s.setDebug on)).setDebug on' = (es.foldl enterIn s).setDebug on' := by
  cases es <;> rfl

/-- Without a reset, groups of lines do what their entries do, each with debug mode as
it is then. -/
theorem foldl_act_eq {gs : List Group} (hr : ∀ g ∈ gs, g.orders .reset = false) (s : Session) :
    let on := s.machine.settings.debug
    gs.foldl Group.act s =
      ((Group.entriesIn on gs).foldl enterIn s).setDebug (Group.debugAfter on gs) := by
  induction gs generalizing s with
  | nil => rfl
  | cons g gs ih =>
    obtain ⟨hg, hr⟩ := List.forall_mem_cons.1 hr
    have hmode : (g.act s).machine.settings.debug =
        (s.machine.settings.debug != g.orders .debug) := by
      rw [settings_act]
    have hrest := ih hr (g.act s)
    rw [hmode] at hrest
    intro on
    refine hrest.trans ?_
    change _ = (((g.text?.map (on, ·)).toList ++ Group.entriesIn (on != g.orders .debug) gs).foldl
      enterIn s).setDebug (Group.debugAfter (on != g.orders .debug) gs)
    cases g with
    | blank => rfl
    | entry first more => rfl
    | order line o =>
      cases o with
      | reset => cases hg
      | debug => exact foldl_enterIn_setDebug _ s _ _
      | quit | help | bindings => rfl

end Interactive

namespace Session

variable {past : Record} {s t : Session}

/-- Sessions that are seen alike list the same. -/
theorem Retraces.listing (h : s.Retraces past t) :
    Interactive.listing s = Interactive.listing t := by
  obtain ⟨-, source, rfl⟩ := h
  rfl

theorem Retraces.performAll (h : s.Retraces past t) (ops : List Operation) :
    (s.performAll ops).Retraces past (t.performAll ops) := by
  induction ops generalizing s t with
  | nil => exact h
  | cons op ops ih => exact ih (h.perform op).2

theorem Retraces.foldl_enterIn (h : s.Retraces past t) (es : List (Bool × String)) :
    (es.foldl Interactive.enterIn s).Retraces past (es.foldl Interactive.enterIn t) := by
  induction es generalizing s t with
  | nil => exact h
  | cons e es ih =>
    rw [List.foldl_cons, List.foldl_cons]
    refine ih ?_
    rw [Interactive.enterIn_eq, Interactive.enterIn_eq]
    exact h.performAll _

end Session

namespace Interactive

theorem listing_setDebug (s : Session) (on : Bool) : listing (s.setDebug on) = listing s := rfl

/-- The mode that a session starts in does not matter to what its entries lead to. -/
theorem listing_foldl_setDebug (es : List (Bool × String)) (s : Session) (on : Bool) :
    listing (es.foldl enterIn (s.setDebug on)) = listing (es.foldl enterIn s) := by
  rw [← listing_setDebug _ on, foldl_enterIn_setDebug, listing_setDebug]

/-- **What a session lists** is what the entries since the last reset lead to in a fresh
session. -/
theorem listing_foldl_act (name : String) (settings : Settings) (accepts : Request → Bool)
    {before since : List Group}
    (hb : before = [] ∨ ∃ front line, before = front ++ [.order line .reset])
    (hr : ∀ g ∈ since, g.orders .reset = false) :
    let start := Session.start name settings accepts
    listing ((before ++ since).foldl Group.act start) =
      listing ((Group.entriesIn (Group.debugAfter settings.debug before) since).foldl enterIn
        start) := by
  intro start
  have hmode : (before.foldl Group.act start).machine.settings.debug =
      Group.debugAfter settings.debug before := by
    rw [settings_foldl_act]
    rfl
  rw [List.foldl_append, foldl_act_eq hr, listing_setDebug, hmode]
  obtain rfl | ⟨front, line, rfl⟩ := hb
  · rfl
  · let t := front.foldl Group.act start
    obtain ⟨ops, hops⟩ := exists_foldl_act_eq front start
    have hsettings : t.machine.settings =
        { settings with debug := Group.debugAfter settings.debug front } :=
      settings_foldl_act front start
    have hfresh : Session.start t.name t.machine.settings t.machine.accepts =
        start.setDebug (Group.debugAfter settings.debug front) := by
      rw [hsettings, show t = start.performAll ops from hops, Session.name_performAll,
        Session.accepts_performAll]
      rfl
    have hretraces := Session.retraces_reset t
    rw [hfresh] at hretraces
    rw [List.foldl_append]
    refine ((hretraces.foldl_enterIn _).listing).trans ?_
    exact listing_foldl_setDebug _ start _

/-! ## Lists of names -/

/-- **A list of the names of a session**: a sentence of its own if there is no name, and
else a line for each name, in their order, with the name and its value as it is
displayed. -/
inductive Lists (s : Session) : String → Prop where
  | none : s.globals.bindings = [] → Lists s "No variables defined\n"
  | names {lines : List String} : s.globals.bindings ≠ [] →
      List.Forall₂ (fun b line => line = b.name ++ " = " ++ s.machine.heap.display b.value ++ "\n")
        s.globals.bindings lines → Lists s (String.join lines)

/-- What a session shows when it is asked for its names is a list of them. -/
theorem lists_listing (s : Session) : Lists s (listing s) := by
  have hempty : s.globals.isEmpty = s.globals.bindings.isEmpty := by
    rw [SymbolTable.bindings, List.isEmpty_map]
    rfl
  rw [listing, hempty]
  split
  next h => exact .none (List.isEmpty_iff.1 h)
  next h =>
    refine .names (mt List.isEmpty_iff.2 h) ?_
    rw [List.forall₂_map_right_iff, List.forall₂_map_right_iff]
    exact List.forall₂_same.2 fun _ _ => rfl

/-- There is one list of the names of a session. -/
theorem Lists.unique {s : Session} {text text' : String} (h : Lists s text) (h' : Lists s text') :
    text = text' := by
  cases h with
  | none hb =>
    cases h' with
    | none => rfl
    | names hb' => exact absurd hb hb'
  | names hb hl =>
    cases h' with
    | none hb' => exact absurd hb' hb
    | names _ hl' =>
      rw [List.right_unique_forall₂' (fun _ _ _ ha hb => ha.trans hb.symm) hl hl']

/-! ## All lines -/

theorem transcript_append (colour : Bool) (s : Session) (gs gs' : List Group) :
    transcript colour s (gs ++ gs') =
      transcript colour s gs ++ transcript colour (gs.foldl Group.act s) gs' := by
  induction gs generalizing s with
  | nil => exact (String.empty_append ..).symm
  | cons g gs ih => rw [List.cons_append, transcript, ih, transcript, String.append_assoc]; rfl

/-- **Lines are grouped into entries.** The lines of an interactive session are grouped
in one way, and no line is lost, repeated or moved; the entries that are run are those
of the groups, in their order; the session goes from group to group and shows what
they show, then the farewell. And what is shown on an order for the names is the list of
the names that the entries since the last reset lead to in a fresh session, each run with
debug mode as it was then. -/
theorem lines_grouped (settings : Settings) (colour : Bool) (lines : List String) :
    let i := Interactive.start settings colour
    ∃ gs left, Grouped lines gs left ∧
      (∀ gs' left', Grouped lines gs' left' → gs' = gs ∧ left' = left) ∧
      lines = gs.flatMap Group.lines ++ left ∧
      (i.feed lines).2.entries = gs.filterMap Group.text? ∧
      (i.feed lines).2.session = gs.foldl Group.act i.session ∧
      (i.feed lines).1.output = transcript colour i.session gs ++ farewell ∧
      ∀ before since line behind, gs = before ++ since ++ .order line .bindings :: behind →
        (before = [] ∨ ∃ front line, before = front ++ [.order line .reset]) →
        (∀ g ∈ since, g.orders .reset = false) →
        ∃ listed,
          Lists ((Group.entriesIn (Group.debugAfter settings.debug before) since).foldl enterIn
            i.session) listed ∧
          (i.feed lines).1.output = transcript colour i.session (before ++ since) ++ listed ++
            transcript colour ((before ++ since).foldl Group.act i.session) behind ++
              farewell := by
  intro i
  obtain ⟨gs, left, h⟩ := exists_grouped lines
  refine ⟨gs, left, h, fun gs' left' h' => h'.unique h, ?_⟩
  obtain ⟨houtput, hentries, hsession⟩ := h.feed (i := i) rfl
  have houtput : (i.feed lines).1.output = transcript colour i.session gs ++ farewell := houtput
  refine ⟨h.lines_eq, hentries, hsession, houtput, ?_⟩
  intro before since line behind hgs hb hr
  have hl := listing_foldl_act entryName settings Request.isDrawable hb hr
  have hshown : Group.shown colour ((before ++ since).foldl Group.act i.session)
      (.order line .bindings) = listing _ := hl
  refine ⟨_, lists_listing _, ?_⟩
  rw [houtput, hgs, transcript_append, transcript, hshown, ← String.append_assoc]
  rfl

/-- An assignment that a reset forgets, with no name behind it; a function with a line in
it that looks like an order, which fails, and an assignment, whose name is listed; and an
entry that is not completed. -/
theorem lines_grouped_resetThenNames :
    let function := "f() \x7b\n:quit\n\x7d"
    let lines :=
      ["x := 1", ":reset", ":v", "f() \x7b", ":quit", "\x7d", "", "y := 2", ":vars", "if true \x7b"]
    let i := Interactive.start {} false
    let before : List Group := [.entry "x := 1" [], .order ":reset" .reset]
    let since : List Group :=
      [.order ":v" .bindings, .entry "f() \x7b" [":quit", "\x7d"], .blank "", .entry "y := 2" []]
    let behind : List Group := since.tail ++ [.order ":vars" .bindings]
    Grouped lines (before ++ since ++ [.order ":vars" .bindings]) ["if true \x7b"] ∧
      (i.feed lines).2.entries = ["x := 1", function, "y := 2"] ∧
      (i.feed lines).1.output = transcript false i.session before ++ "No variables defined\n" ++
        transcript false (before.foldl Group.act i.session) behind ++ farewell ∧
      (i.feed lines).1.output =
        transcript false i.session (before ++ since) ++ "y = 2\n" ++ "" ++ farewell := by
  intro function lines i before since behind
  have h : Grouped lines (before ++ since ++ [.order ":vars" .bindings]) ["if true \x7b"] := by
    refine @Grouped.entry _ [] _ _ _ ⟨⟨by decide +kernel, by decide +kernel⟩, by decide +kernel, ?_⟩
      (.order (by decide +kernel) (by decide) (.order (by decide +kernel) (by decide)
        (@Grouped.entry _ [":quit", "\x7d"] _ _ _ ⟨⟨by decide +kernel, by decide +kernel⟩,
          by decide +kernel, ?_⟩ (.blank (by decide +kernel)
            (@Grouped.entry _ [] _ _ _ ⟨⟨by decide +kernel, by decide +kernel⟩,
              by decide +kernel, ?_⟩ (.order (by decide +kernel) (by decide)
                (.unfinished ⟨⟨by decide +kernel, by decide +kernel⟩, ?_⟩)))))))
    · exact fun front hf hne => absurd (List.prefix_nil.1 hf) hne
    · refine forall_prefix_cons.2 ⟨by decide +kernel, forall_prefix_cons.2 ⟨by decide +kernel, ?_⟩⟩
      exact fun front hf hne => absurd (List.prefix_nil.1 hf ▸ rfl) hne
    · exact fun front hf hne => absurd (List.prefix_nil.1 hf) hne
    · intro front hf
      rw [List.prefix_nil.1 hf]
      decide +kernel
  obtain ⟨gs, left, -, hunique, -, hentries, -, -, hlisted⟩ := lines_grouped {} false lines
  obtain ⟨rfl, -⟩ := hunique _ _ h
  have hreset : before = [] ∨ ∃ front line, before = front ++ [.order line .reset] :=
    .inr ⟨[.entry "x := 1" []], ":reset", rfl⟩
  refine ⟨h, hentries, ?_, ?_⟩
  · obtain ⟨listed, hl, houtput⟩ := hlisted before [] ":v" behind rfl hreset (by decide)
    have hnone : Lists i.session "No variables defined\n" := .none (by decide +kernel)
    rw [hl.unique hnone, List.append_nil] at houtput
    exact houtput
  · obtain ⟨listed, hl, houtput⟩ := hlisted before since ":vars" [] rfl hreset (by decide)
    let s := [(false, function), (false, "y := 2")].foldl enterIn i.session
    have hname : Lists s "y = 2\n" := by
      have hs : listing s = "y = 2\n" := by decide +kernel
      exact hs ▸ lists_listing s
    rw [hl.unique hname] at houtput
    exact houtput

end Interactive

end HotkeyScript
