import HotkeyScript.Proofs.Number.Digits
import HotkeyScript.Proofs.Success
import HotkeyScript.Settings.Load
/-!
# Settings — the highest place that sets a field decides it

Settings are loaded from the environment, from the file of the directory and from
the file of the user, in this order of precedence, whatever the reader of the files.
They can be loaded just if each file that is there can be used by itself and the
environment's call depth, if it is text, is a positive number. Then each field has the
value of the highest place that sets it, whatever the places do to other fields
(`Settings.TakenFrom`), and the whole is valid again (`Settings.load_precedence`).

Two findings are counted otherwise than one may expect
(`Settings.loadWith_blocked_and_notText`): a path of the user's file that cannot be
followed is an unreadable file and not a missing one, and a variable that is set to no
text is not set.
-/

namespace HotkeyScript

/-! ## What a place sets -/

/-- What a place sets of the settings: each field, or not. -/
structure Choices where
  debug : Option Bool := none
  maxCallDepth : Option Nat := none
  maxTimeout : Option Nat := none
  defaultTitle : Option String := none
  colour : Option Bool := none
deriving DecidableEq

/-- The fields that a layer names. -/
def Layer.choices (l : Layer) : Choices where
  debug := l.run.bind RunSection.debug
  maxCallDepth := l.run.bind RunSection.maxCallDepth
  maxTimeout := l.box.bind BoxSection.maxTimeout
  defaultTitle := l.box.bind BoxSection.defaultTitle
  colour := l.report.bind ReportSection.colour

/-- What a file sets: nothing, unless it is a layer. -/
def Found.choices (read : Layer.Reader) (found : Found) : Choices :=
  ((found.text?.bind read).map Layer.choices).getD {}

/-- What the environment sets. It can turn colours off, but not on. -/
def Environment.choices (env : Environment) : Choices where
  debug := env.debug.text?.map fun value =>
    value.toLower = "true" ∨ value.toLower = "1" ∨ value.toLower = "yes"
  maxCallDepth := env.maxCallDepth.text?.bind callDepth?
  colour := if (env.noColour.text?.getD "").isEmpty then none else some false

namespace Choices

/-- Settings with the choices of a place put over them. -/
def onto (c : Choices) (s : Settings) : Settings where
  debug := c.debug.getD s.debug
  maxCallDepth := c.maxCallDepth.getD s.maxCallDepth
  maxTimeout := c.maxTimeout.getD s.maxTimeout
  defaultTitle := c.defaultTitle.orElse fun _ => s.defaultTitle
  colour := c.colour.getD s.colour

/-- Nothing that a place sets is out of its range. -/
structure InRange (c : Choices) : Prop where
  maxCallDepth : c.maxCallDepth ≠ some 0
  maxTimeout : ∀ t, c.maxTimeout = some t → t ≤ 2147483

theorem inRange_none : ({} : Choices).InRange := ⟨nofun, nofun⟩

end Choices

/-! ## The highest place -/

/-- The first of the places that sets the field sets it to `a`; or none of them sets
it, and `a` is what it is then. -/
def Decides {α : Type} (field : Choices → Option α) (unset : α) (places : List Choices)
    (a : α) : Prop :=
  (∃ above c below, places = above ++ c :: below ∧ (∀ b ∈ above, field b = none) ∧
    field c = some a) ∨ ((∀ c ∈ places, field c = none) ∧ a = unset)

/-- **Each field is decided by the highest place that sets it**, the highest of the
places being the first. -/
structure Settings.TakenFrom (places : List Choices) (s : Settings) : Prop where
  debug : Decides Choices.debug false places s.debug
  maxCallDepth : Decides Choices.maxCallDepth 200 places s.maxCallDepth
  maxTimeout : Decides Choices.maxTimeout 2147483 places s.maxTimeout
  defaultTitle : Decides (fun c => c.defaultTitle.map some) none places s.defaultTitle
  colour : Decides Choices.colour true places s.colour

section

variable {α : Type} {field : Choices → Option α} {unset a : α} {c : Choices}
  {places : List Choices}

theorem decides_nil : Decides field unset [] a ↔ a = unset := by
  simp [Decides]

/-- The highest place decides, or leaves it to those below. -/
theorem decides_cons :
    Decides field unset (c :: places) a ↔
      field c = some a ∨ (field c = none ∧ Decides field unset places a) := by
  constructor
  · rintro (⟨above, d, below, he, hnone, hd⟩ | ⟨hnone, ha⟩)
    · cases above with
      | nil =>
        cases he
        exact .inl hd
      | cons b above =>
        cases he
        obtain ⟨hb, hnone⟩ := List.forall_mem_cons.1 hnone
        exact .inr ⟨hb, .inl ⟨above, d, below, rfl, hnone, hd⟩⟩
    · obtain ⟨hc, hnone⟩ := List.forall_mem_cons.1 hnone
      exact .inr ⟨hc, .inr ⟨hnone, ha⟩⟩
  · rintro (hc | ⟨hc, ⟨above, d, below, rfl, hnone, hd⟩ | ⟨hnone, ha⟩⟩)
    · exact .inl ⟨[], c, places, rfl, nofun, hc⟩
    · exact .inl ⟨c :: above, d, below, rfl, List.forall_mem_cons.2 ⟨hc, hnone⟩, hd⟩
    · exact .inr ⟨List.forall_mem_cons.2 ⟨hc, hnone⟩, ha⟩

/-- Places put over each other, the highest last, leave what the highest place
decides. -/
theorem decides_iff :
    Decides field unset places a ↔ a = places.foldr (fun c b => (field c).getD b) unset := by
  induction places with
  | nil => exact decides_nil
  | cons c places ih =>
    rw [decides_cons, ih, List.foldr_cons]
    cases field c with
    | none => simp
    | some d => simp [eq_comm]

end

namespace Settings

/-- Settings that places are put over have each field as if there were no other. -/
theorem foldr_onto {α : Type} (field : Choices → Option α) (get : Settings → α)
    (h : ∀ c s, get (c.onto s) = (field c).getD (get s)) (places : List Choices) (s : Settings) :
    get (places.foldr Choices.onto s) =
      places.foldr (fun c b => (field c).getD b) (get s) :=
  (List.foldr_hom get fun c s => (h c s).symm).symm

theorem title_onto (c : Choices) (s : Settings) :
    (c.onto s).defaultTitle = (c.defaultTitle.map some).getD s.defaultTitle := by
  unfold Choices.onto
  cases c.defaultTitle <;> rfl

/-- **Places put over each other** are the settings in which the highest of them
decides each field. -/
theorem takenFrom_iff (places : List Choices) (s : Settings) :
    s.TakenFrom places ↔ s = places.foldr Choices.onto {} := by
  have hd := foldr_onto Choices.debug debug (fun _ _ => rfl) places {}
  have hm := foldr_onto Choices.maxCallDepth maxCallDepth (fun _ _ => rfl) places {}
  have ht : (places.foldr Choices.onto {}).maxTimeout =
      places.foldr (fun c b => c.maxTimeout.getD b) 2147483 :=
    foldr_onto Choices.maxTimeout maxTimeout (fun _ _ => rfl) places {}
  have hl := foldr_onto _ defaultTitle title_onto places {}
  have hc := foldr_onto Choices.colour colour (fun _ _ => rfl) places {}
  constructor
  · rintro ⟨hd', hm', ht', hl', hc'⟩
    rw [decides_iff] at hd' hm' ht' hl' hc'
    rw [← hd] at hd'
    rw [← hm] at hm'
    rw [← ht] at ht'
    rw [← hl] at hl'
    rw [← hc] at hc'
    generalize places.foldr Choices.onto {} = t at *
    cases s
    cases t
    simp_all
  · rintro rfl
    exact ⟨decides_iff.2 hd, decides_iff.2 hm, decides_iff.2 ht, decides_iff.2 hl,
      decides_iff.2 hc⟩

/-! ## Values in their range -/

theorem validate_eq_ok_iff {s : Settings} :
    s.validate = .ok () ↔ s.maxCallDepth ≠ 0 ∧ s.maxTimeout ≤ 2147483 := by
  change _ ↔ _ ∧ s.maxTimeout ≤ maxBoxTimeout
  unfold validate
  split
  next h => simp [h]
  next h =>
    split
    next ht => simp [Nat.not_le.2 ht]
    next ht => simp [h, Nat.le_of_not_lt ht]

end Settings

/-- **Choices put over valid settings** leave them valid just if they are in their
range. -/
theorem Choices.validate_onto {c : Choices} {s : Settings} (hs : s.validate = .ok ()) :
    (c.onto s).validate = .ok () ↔ c.InRange := by
  rw [Settings.validate_eq_ok_iff] at hs ⊢
  have hdepth : (c.onto s).maxCallDepth ≠ 0 ↔ c.maxCallDepth ≠ some 0 := by
    rw [onto]
    cases c.maxCallDepth with
    | none => simp [hs.1]
    | some n => simp
  have htimeout : (c.onto s).maxTimeout ≤ 2147483 ↔
      ∀ t, c.maxTimeout = some t → t ≤ 2147483 := by
    rw [onto]
    cases c.maxTimeout with
    | none => simp [hs.2]
    | some t => simp
  rw [hdepth, htimeout]
  exact ⟨fun h => ⟨h.1, h.2⟩, fun h => ⟨h.maxCallDepth, h.maxTimeout⟩⟩

/-! ## Files -/

variable {read : Layer.Reader}

/-- A file that can be used by itself: text that is read as a layer, which sets nothing
that is out of its range. -/
def Found.IsUsable (read : Layer.Reader) (found : Found) : Prop :=
  ∃ text layer, found = .text text ∧ read text = some layer ∧ layer.choices.InRange

theorem Layer.overlay_eq (l : Layer) (s : Settings) : l.overlay s = l.choices.onto s := rfl

theorem Layer.loadWith_eq_ok_iff {found : Found} {l : Layer} :
    Layer.loadWith read found = .ok l ↔
      ∃ text, found = .text text ∧ read text = some l ∧ l.choices.InRange := by
  have hv (layer : Layer) : (layer.overlay {}).validate = .ok () ↔ layer.choices.InRange := by
    rw [overlay_eq]
    exact Choices.validate_onto rfl
  unfold Layer.loadWith
  split
  next => simp
  next => simp
  next => simp
  next document =>
    simp only [Found.text.injEq, exists_eq_left']
    split
    next hr => simp [hr]
    next layer hr =>
      split
      next e he =>
        have hn : ¬ layer.choices.InRange := fun h => by
          rw [(hv layer).2 h] at he
          cases he
        simp only [hr, reduceCtorEq, Option.some.injEq, false_iff]
        rintro ⟨rfl, h⟩
        exact hn h
      next hok =>
        simp only [hr, Except.ok.injEq, Option.some.injEq]
        exact ⟨fun h => ⟨h, h ▸ (hv layer).1 hok⟩, And.left⟩

/-- Only where nothing is found, nothing is said to be found. -/
theorem Layer.loadWith_ne_missing {found : Found} (h : found ≠ .missing) :
    Layer.loadWith read found ≠ .error .missing := by
  unfold Layer.loadWith
  split
  next => exact absurd rfl h
  next => simp
  next => simp
  next =>
    split
    next => simp
    next => split <;> simp

/-- A file put over settings is what it sets put over them. -/
theorem Found.exists_loadWith_iff {found : Found} {s t : Settings} :
    (∃ l, Layer.loadWith read found = .ok l ∧ l.overlay s = t) ↔
      found.IsUsable read ∧ t = (found.choices read).onto s := by
  constructor
  · rintro ⟨l, hl, rfl⟩
    obtain ⟨text, rfl, hr, hrange⟩ := Layer.loadWith_eq_ok_iff.1 hl
    refine ⟨⟨text, l, rfl, hr, hrange⟩, ?_⟩
    simp [choices, text?, hr, Layer.overlay_eq]
  · rintro ⟨⟨text, l, rfl, hr, hrange⟩, rfl⟩
    refine ⟨l, Layer.loadWith_eq_ok_iff.2 ⟨text, rfl, hr, hrange⟩, ?_⟩
    simp [choices, text?, hr, Layer.overlay_eq]

namespace Settings

/-- The user's file has to be usable, unless nothing is found under its path. -/
theorem overUser_eq_ok_iff {found : Found} {s t : Settings} :
    overUser read found s = .ok t ↔
      (found ≠ .missing → found.IsUsable read) ∧ t = (found.choices read).onto s := by
  by_cases hm : found = .missing
  · subst hm
    have hover : overUser read .missing s = .ok s := rfl
    have hnone : (Found.missing.choices read).onto s = s := rfl
    simp [hover, hnone, eq_comm]
  · have hload : overUser read found s = .ok t ↔
        ∃ l, Layer.loadWith read found = .ok l ∧ l.overlay s = t := by
      unfold overUser
      split
      next l hl => simp [hl]
      next hl => exact absurd hl (Layer.loadWith_ne_missing hm)
      next e _ hl => simp [hl]
    rw [hload, Found.exists_loadWith_iff]
    simp [hm]

/-- The directory's file has to be usable if it is there. -/
theorem overDirectory_eq_ok_iff {found : Found} {s t : Settings} :
    overDirectory read found s = .ok t ↔
      (found.isThere = true → found.IsUsable read) ∧ t = (found.choices read).onto s := by
  by_cases ht : found.isThere = true
  · have hload : overDirectory read found s = .ok t ↔
        ∃ l, Layer.loadWith read found = .ok l ∧ l.overlay s = t := by
      rw [overDirectory, if_pos ht]
      cases Layer.loadWith read found <;> simp [Except.map]
    rw [hload, Found.exists_loadWith_iff]
    simp [ht]
  · have hnone : (found.choices read).onto s = s := by
      cases found <;> first | rfl | exact absurd rfl ht
    rw [overDirectory, if_neg ht, hnone]
    simp [ht, eq_comm]

end Settings

/-! ## The environment -/

namespace Environment

/-- A text for a call depth: a decimal numeral, behind at most a plus sign, of a
number below `2 ^ 64`, and white space around it. -/
def Denotes (value : String) (n : Nat) : Prop :=
  ∃ sign digits, Text.trim value.toList = sign ++ digits ∧ (sign = [] ∨ sign = ['+']) ∧
    digits ≠ [] ∧ (∀ c ∈ digits, c.isDigit = true) ∧ Nat.ofDigitChars 10 digits 0 = n ∧
      n < UInt64.size

/-- An environment that can be used: its call depth is not set to a text, or to one for
a positive number. -/
def IsUsable (env : Environment) : Prop :=
  ∀ value, env.maxCallDepth = .text value → ∃ n, Denotes value n ∧ 1 ≤ n

theorem callDepth?_eq_some_iff {value : String} {n : Nat} :
    callDepth? value = some n ↔ Denotes value n := by
  have hnumeral (cs : List Char) :
      ((Decimal.natural? 10 cs).bind fun n => if n < UInt64.size then some n else none) = some n ↔
        cs ≠ [] ∧ (∀ c ∈ cs, c.isDigit = true) ∧ Nat.ofDigitChars 10 cs 0 = n ∧
          n < UInt64.size := by
    simp only [Option.bind_eq_some_iff, Decimal.natural?, Option.ite_none_left_eq_some,
      List.isEmpty_iff, Decimal.accumulate_eq_some_iff, Option.ite_none_right_eq_some,
      Option.some.injEq]
    constructor
    · rintro ⟨m, ⟨hne, hd, hm⟩, hlt, rfl⟩
      exact ⟨hne, hd, hm, hlt⟩
    · rintro ⟨hne, hd, hm, hlt⟩
      exact ⟨n, ⟨hne, hd, hm⟩, hlt, rfl⟩
  have hplus {cs : List Char} (h : ∀ c ∈ '+' :: cs, c.isDigit = true) : False :=
    absurd (h '+' List.mem_cons_self) (by decide)
  by_cases ht : ∃ cs, Text.trim value.toList = '+' :: cs
  · obtain ⟨cs, ht⟩ := ht
    have hd : callDepth? value = (Decimal.natural? 10 cs).bind fun n =>
        if n < UInt64.size then some n else none := by
      rw [callDepth?, ht]
      rfl
    rw [hd, hnumeral]
    constructor
    · exact fun h => ⟨['+'], cs, ht, .inr rfl, h⟩
    · rintro ⟨sign, digits, hs, rfl | rfl, h⟩
      · rw [ht] at hs
        cases hs
        exact (hplus h.2.1).elim
      · rw [ht] at hs
        cases hs
        exact h
  · have hd : callDepth? value = (Decimal.natural? 10 (Text.trim value.toList)).bind fun n =>
        if n < UInt64.size then some n else none := by
      unfold callDepth?
      split
      next cs hcs => exact absurd ⟨cs, hcs⟩ ht
      next => rfl
    rw [hd, hnumeral]
    constructor
    · exact fun h => ⟨[], _, rfl, .inl rfl, h⟩
    · rintro ⟨sign, digits, hs, rfl | rfl, h⟩
      · rw [List.nil_append] at hs
        rw [hs]
        exact h
      · exact absurd ⟨digits, hs⟩ ht

/-- A value that turns debug mode on is one of three words. -/
theorem meansOn_eq (value : String) :
    meansOn value =
      decide (value.toLower = "true" ∨ value.toLower = "1" ∨ value.toLower = "yes") := by
  simp [meansOn]

/-- The environment put over settings is what it sets put over them. -/
theorem overlay_eq_ok_iff {env : Environment} {s t : Settings} :
    env.overlay s = .ok t ↔
      (∀ value, env.maxCallDepth = .text value → ∃ n, Denotes value n) ∧
        t = env.choices.onto s := by
  have hdebug : env.debug.text?.map meansOn = env.choices.debug := by
    rw [funext meansOn_eq]
    rfl
  have hcolour : (s.colour && (env.noColour.text?.getD "").isEmpty) =
      env.choices.colour.getD s.colour := by
    unfold choices
    cases (env.noColour.text?.getD "").isEmpty <;> simp
  have hover (depth : Nat) (h : env.choices.maxCallDepth.getD s.maxCallDepth = depth) :
      ({ s with
        debug := (env.debug.text?.map meansOn).getD s.debug
        maxCallDepth := depth
        colour := s.colour && (env.noColour.text?.getD "").isEmpty } : Settings) =
        env.choices.onto s := by
    rw [hdebug, hcolour, ← h]
    rfl
  simp only [← Variable.text?_eq_some_iff]
  unfold overlay
  cases hv : env.maxCallDepth.text? with
  | none =>
    have hd := hover s.maxCallDepth (by simp [choices, hv])
    simp only [bind, Except.bind, pure, Except.pure, Except.ok.injEq, hd]
    simp [eq_comm]
  | some value =>
    simp only [Option.some.injEq, forall_eq', ← callDepth?_eq_some_iff]
    cases hn : callDepth? value with
    | none => simp [bind, Except.bind]
    | some n =>
      have hd := hover n (by simp [choices, hv, hn])
      simp only [bind, Except.bind, pure, Except.pure, Except.ok.injEq, hd]
      simp [eq_comm]

end Environment

/-! ## All places -/

/-- A file that is usable if it is there sets nothing that is out of its range. -/
theorem Found.inRange_choices {found : Found} (h : found.isThere = true → found.IsUsable read) :
    (found.choices read).InRange := by
  cases found with
  | missing | blocked | unreadable => exact Choices.inRange_none
  | text document =>
    obtain ⟨text, layer, ht, hr, hrange⟩ := h rfl
    cases ht
    simpa [choices, text?, hr] using hrange

theorem Found.ne_missing_of_isThere {found : Found} (h : found.isThere = true) :
    found ≠ .missing := by
  rintro rfl
  cases h

/-- An environment is usable just if it can be put over settings and sets nothing
that is out of its range. -/
theorem Environment.isUsable_iff {env : Environment} :
    env.IsUsable ↔
      (∀ value, env.maxCallDepth = .text value → ∃ n, Denotes value n) ∧
        env.choices.InRange := by
  constructor
  · intro h
    refine ⟨fun value hv => ?_, fun hz => ?_, nofun⟩
    · obtain ⟨n, hn, -⟩ := h value hv
      exact ⟨n, hn⟩
    · obtain ⟨value, hv, hz⟩ := Option.bind_eq_some_iff.1 hz
      obtain ⟨n, hn, hpos⟩ := h value (Variable.text?_eq_some_iff.1 hv)
      rw [callDepth?_eq_some_iff.2 hn] at hz
      cases hz
      omega
  · rintro ⟨h, hrange⟩ value hv
    obtain ⟨n, hn⟩ := h value hv
    refine ⟨n, hn, Nat.one_le_iff_ne_zero.2 ?_⟩
    rintro rfl
    exact hrange.maxCallDepth (Option.bind_eq_some_iff.2
      ⟨value, Variable.text?_eq_some_iff.2 hv, callDepth?_eq_some_iff.2 hn⟩)

namespace Settings

variable {user directory : Found} {env : Environment} {s : Settings}

/-- The places are put over each other one by one, and the whole is checked. -/
theorem loadWith_eq_ok_iff_foldr :
    loadWith read user directory env = .ok s ↔
      (user ≠ .missing → user.IsUsable read) ∧
        (directory.isThere = true → directory.IsUsable read) ∧
        (∀ value, env.maxCallDepth = .text value → ∃ n, Environment.Denotes value n) ∧
        s = [env.choices, directory.choices read, user.choices read].foldr Choices.onto {} ∧
        s.validate = .ok () := by
  rw [loadWith, bind_eq_ok_iff]
  simp only [bind_eq_ok_iff, mapError_eq_ok_iff, overUser_eq_ok_iff, overDirectory_eq_ok_iff,
    Environment.overlay_eq_ok_iff, pure, Except.pure, Except.ok.injEq, List.foldr_cons,
    List.foldr_nil]
  constructor
  · rintro ⟨_, ⟨hu, rfl⟩, _, ⟨hd, rfl⟩, _, ⟨he, rfl⟩, _, hv, rfl⟩
    exact ⟨hu, hd, he, rfl, hv⟩
  · rintro ⟨hu, hd, he, rfl, hv⟩
    exact ⟨_, ⟨hu, rfl⟩, _, ⟨hd, rfl⟩, _, ⟨he, rfl⟩, (), hv, rfl⟩

/-- **What can be loaded, and what it comes to.** -/
theorem loadWith_eq_ok_iff :
    loadWith read user directory env = .ok s ↔
      (user ≠ .missing → user.IsUsable read) ∧
        (directory.isThere = true → directory.IsUsable read) ∧ env.IsUsable ∧
        s.TakenFrom [env.choices, directory.choices read, user.choices read] := by
  rw [loadWith_eq_ok_iff_foldr, takenFrom_iff, Environment.isUsable_iff]
  refine and_congr_right fun hu => and_congr_right fun hd => ?_
  rw [and_assoc]
  refine and_congr_right fun _ => ?_
  rw [and_comm]
  refine and_congr_left fun hs => ?_
  -- the files were checked, so the environment alone can spoil the whole
  have hfiles :
      ([directory.choices read, user.choices read].foldr Choices.onto {}).validate = .ok () := by
    have huser := Found.inRange_choices fun h => hu (Found.ne_missing_of_isThere h)
    exact (Choices.validate_onto ((Choices.validate_onto rfl).2 huser)).2 (Found.inRange_choices hd)
  rw [hs]
  exact Choices.validate_onto hfiles

/-- **The highest place that sets a field decides it.** Whatever the reader of the files,
whatever is found under the paths of the user's and of the directory's file, and whatever
the environment has, settings are loaded just if the user's file, unless nothing is found
under its path, and the directory's file, if it is there, are text, can be read as a layer
and set neither a call depth of zero nor too long a timeout, and the environment's call
depth is not set to a text or denotes a positive number of 64 bits. Then each field is
taken from the highest place that sets it, the environment being above the directory and
the directory above the user, and the settings are valid. -/
theorem load_precedence (read : Layer.Reader) (user directory : Found) (env : Environment) :
    ((∃ s, loadWith read user directory env = .ok s) ↔
      (user ≠ .missing → user.IsUsable read) ∧
        (directory.isThere = true → directory.IsUsable read) ∧ env.IsUsable) ∧
    ∀ s, loadWith read user directory env = .ok s →
      s.TakenFrom [env.choices, directory.choices read, user.choices read] ∧
        s.validate = .ok () := by
  constructor
  · simp only [loadWith_eq_ok_iff, takenFrom_iff]
    constructor
    · rintro ⟨_, hu, hd, he, -⟩
      exact ⟨hu, hd, he⟩
    · rintro ⟨hu, hd, he⟩
      exact ⟨_, hu, hd, he, rfl⟩
  · intro s h
    exact ⟨(loadWith_eq_ok_iff.1 h).2.2.2, (loadWith_eq_ok_iff_foldr.1 h).2.2.2.2⟩

/-- A title from the directory over one from the user, a call depth from the user under
one from the environment, debug mode from the user under a variable that is no text, and
colours that the environment turns off. -/
theorem load_precedence_threePlaces :
    let user := "[run]\ndebug = true\nmax_call_depth = 64\n[msgbox]\ndefault_title = 'user'\n"
    let directory := "[msgbox]\ndefault_title = 'here'\n"
    let read : Layer.Reader := fun document =>
      if document = user then some ⟨some ⟨true, some 64⟩, some ⟨none, some "user"⟩, none⟩
      else if document = directory then some ⟨none, some ⟨none, some "here"⟩, none⟩
      else none
    let env : Environment := ⟨.notText, .text " 75 ", .text "1", .unset, .unset⟩
    let s : Settings := ⟨true, 75, 2147483, some "here", false⟩
    loadWith read (.text user) (.text directory) env = .ok s ∧
      s.TakenFrom [env.choices, Found.choices read (.text directory),
        Found.choices read (.text user)] ∧ s.validate = .ok () := by
  intro user directory read env s
  have hs : loadWith read (.text user) (.text directory) env = .ok s := by
    have ho : (loadWith read (.text user) (.text directory) env).toOption = some s := by
      decide +kernel
    cases hl : loadWith read (.text user) (.text directory) env with
    | error e => rw [hl] at ho; cases ho
    | ok t => rw [hl] at ho; exact congrArg Except.ok (Option.some.inj ho)
  exact ⟨hs, (load_precedence read (.text user) (.text directory) env).2 s hs⟩

/-- **To be there and to be set are not what counts.** With the user's file under a path
that cannot be followed, no file is there and nothing is set, but no settings are loaded.
And with a call depth in the environment that is no text, settings are loaded, though it
is set and denotes no number. -/
theorem loadWith_blocked_and_notText :
    let read : Layer.Reader := fun document =>
      if document = "" then some ⟨none, none, none⟩ else none
    let unset : Environment := ⟨.unset, .unset, .unset, .unset, .unset⟩
    let notText : Environment := { unset with maxCallDepth := .notText }
    (Found.blocked.isThere = false ∧ Found.missing.isThere = false ∧
        loadWith read .blocked .missing unset = .error .unreadable) ∧
      notText.maxCallDepth ≠ .unset ∧
        (¬ ∃ value n, notText.maxCallDepth = .text value ∧ Environment.Denotes value n) ∧
        loadWith read .missing .missing notText = .ok {} := by
  intro read unset notText
  refine ⟨⟨rfl, rfl, rfl⟩, by decide, ?_, rfl⟩
  rintro ⟨value, n, h, -⟩
  cases h

end Settings

end HotkeyScript
