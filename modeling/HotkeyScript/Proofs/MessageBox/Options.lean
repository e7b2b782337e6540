import HotkeyScript.MessageBox.Style
/-!
# Message boxes — options and the styles they stand for

The codes of the parts of a style are listed as they are documented, those of the groups of
buttons with the number of their buttons, and options have a style if they are the sum of one
code for each of its parts (`Style.HasCode`). That sum is
the one that `Style.code` makes of the parts' digits, and decoding reads each digit back
(`Style.ofNat?_eq_some_iff`). So options are decoded just if they are such a sum, to the
parts that they are the sum of (`Style.decode?_exact`).
-/

namespace HotkeyScript

/-! ## The codes of the parts -/

/-- The codes of the groups of buttons, each with the number of its buttons. -/
inductive Buttons.HasCode : Buttons → Int → Nat → Prop where
  | ok : HasCode .ok 0 1
  | okCancel : HasCode .okCancel 1 2
  | abortRetryIgnore : HasCode .abortRetryIgnore 2 3
  | yesNoCancel : HasCode .yesNoCancel 3 3
  | yesNo : HasCode .yesNo 4 2
  | retryCancel : HasCode .retryCancel 5 2
  | cancelTryAgainContinue : HasCode .cancelTryAgainContinue 6 3

/-- The codes of the icons, and of having none. -/
inductive Icon.HasCode : Option Icon → Int → Prop where
  | none : HasCode none 0
  | hand : HasCode (some .hand) 16
  | question : HasCode (some .question) 32
  | exclamation : HasCode (some .exclamation) 48
  | asterisk : HasCode (some .asterisk) 64

/-- The codes of the modalities. -/
inductive Modality.HasCode : Modality → Int → Prop where
  | application : HasCode .application 0
  | system : HasCode .system 4096
  | task : HasCode .task 8192

/-- The codes of staying on top, and of not doing so. -/
inductive Style.OnTopHasCode : Bool → Int → Prop where
  | below : OnTopHasCode false 0
  | onTop : OnTopHasCode true 262144

/-- **Options have a style**: they are the sum of a code for each of its parts, the default
button, which is one of the group's, counting 256 for each button in front of it. -/
def Style.HasCode (s : Style) (options : Int) : Prop :=
  ∃ buttons count icon modality onTop, s.buttons.HasCode buttons count ∧ s.default < count ∧
    Icon.HasCode s.icon icon ∧ s.modality.HasCode modality ∧ OnTopHasCode s.onTop onTop ∧
    options = buttons + icon + 256 * s.default + modality + onTop

theorem Buttons.hasCode_iff {buttons : Buttons} {code : Int} {count : Nat} :
    buttons.HasCode code count ↔ code = buttons.digit ∧ count = buttons.labels.length := by
  constructor
  · rintro (_ | _) <;> exact ⟨rfl, rfl⟩
  · rintro ⟨rfl, rfl⟩
    cases buttons <;> constructor

theorem Icon.hasCode_iff {icon : Option Icon} {code : Int} :
    Icon.HasCode icon code ↔ code = 16 * Icon.digit icon := by
  constructor
  · rintro (_ | _) <;> rfl
  · rintro rfl
    rcases icon with _ | _ | _ | _ | _ <;> constructor

theorem Modality.hasCode_iff {modality : Modality} {code : Int} :
    modality.HasCode code ↔ code = 4096 * modality.digit := by
  constructor
  · rintro (_ | _) <;> rfl
  · rintro rfl
    cases modality <;> constructor

/-! ## Digits read back -/

theorem Buttons.ofDigit?_eq_some_iff {n : Nat} {buttons : Buttons} :
    ofDigit? n = some buttons ↔ n = buttons.digit := by
  constructor
  · intro h
    unfold ofDigit? at h
    split at h <;> cases h <;> rfl
  · rintro rfl
    cases buttons <;> rfl

theorem Icon.ofDigit?_eq_some_iff {n : Nat} {icon : Option Icon} :
    ofDigit? n = some icon ↔ n = Icon.digit icon := by
  constructor
  · intro h
    unfold ofDigit? at h
    split at h <;> cases h <;> rfl
  · rintro rfl
    rcases icon with _ | _ | _ | _ | _ <;> rfl

theorem Modality.ofDigit?_eq_some_iff {n : Nat} {modality : Modality} :
    ofDigit? n = some modality ↔ n = modality.digit := by
  constructor
  · intro h
    unfold ofDigit? at h
    split at h <;> cases h <;> rfl
  · rintro rfl
    cases modality <;> rfl

/-- Each part keeps to the digits that are its own. -/
theorem Buttons.digit_lt (buttons : Buttons) : buttons.digit < 16 := by
  cases buttons <;> decide

theorem Icon.digit_lt (icon : Option Icon) : Icon.digit icon < 16 := by
  rcases icon with _ | _ | _ | _ | _ <;> decide

theorem Modality.digit_lt (modality : Modality) : modality.digit < 4 := by
  cases modality <;> decide

theorem Buttons.length_labels_le (buttons : Buttons) : buttons.labels.length ≤ 3 := by
  cases buttons <;> decide

namespace Style

/-- The sum of the codes is the code that the parts' digits make up. -/
theorem hasCode_iff {s : Style} {options : Int} : s.HasCode options ↔ options = s.code := by
  have honTop {code : Int} : OnTopHasCode s.onTop code ↔
      code = ((if s.onTop then 262144 else 0 : Nat) : Int) := by
    constructor
    · generalize s.onTop = onTop
      rintro (_ | _) <;> rfl
    · rintro rfl
      cases s.onTop <;> constructor
  simp only [HasCode, Buttons.hasCode_iff, Icon.hasCode_iff, Modality.hasCode_iff, honTop, code]
  constructor
  · rintro ⟨_, _, _, _, _, ⟨rfl, rfl⟩, -, rfl, rfl, rfl, h⟩
    omega
  · intro h
    exact ⟨_, _, _, _, _, ⟨rfl, rfl⟩, s.default_lt, rfl, rfl, rfl, by omega⟩

/-- The code of a style, cut into the digits of its parts. -/
theorem digits_code (s : Style) :
    s.code % 16 = s.buttons.digit ∧ s.code / 16 % 16 = Icon.digit s.icon ∧
      s.code / 256 % 16 = s.default ∧ s.code / 4096 % 4 = s.modality.digit ∧
      s.code / 16384 = if s.onTop then 16 else 0 := by
  have hbuttons := s.buttons.digit_lt
  have hicon := Icon.digit_lt s.icon
  have hdefault := Nat.lt_of_lt_of_le s.default_lt s.buttons.length_labels_le
  have hmodality := s.modality.digit_lt
  unfold code
  split <;> omega

/-- **Decoding reads the parts' digits back.** -/
theorem ofNat?_eq_some_iff {n : Nat} {s : Style} : ofNat? n = some s ↔ n = s.code := by
  constructor
  · intro h
    obtain ⟨buttons, hbuttons, h⟩ := Option.bind_eq_some_iff.1 h
    obtain ⟨icon, hicon, h⟩ := Option.bind_eq_some_iff.1 h
    obtain ⟨modality, hmodality, h⟩ := Option.bind_eq_some_iff.1 h
    have hstyle : ∃ onTop hdefault, n / 16384 = (if onTop then 16 else 0) ∧
        s = ⟨buttons, icon, n / 256 % 16, modality, onTop, hdefault⟩ := by
      dsimp only at h
      split at h
      next hhigh =>
        obtain ⟨hdefault, hs⟩ := Option.dite_none_right_eq_some.1 h
        exact ⟨false, hdefault, hhigh, (Option.some.inj hs).symm⟩
      next hhigh =>
        obtain ⟨hdefault, hs⟩ := Option.dite_none_right_eq_some.1 h
        exact ⟨true, hdefault, hhigh, (Option.some.inj hs).symm⟩
      next => cases h
    obtain ⟨onTop, hdefault, hhigh, rfl⟩ := hstyle
    have hbuttons := Buttons.ofDigit?_eq_some_iff.1 hbuttons
    have hicon := Icon.ofDigit?_eq_some_iff.1 hicon
    have hmodality := Modality.ofDigit?_eq_some_iff.1 hmodality
    unfold code
    dsimp only
    split at hhigh
    next hon => rw [if_pos hon]; omega
    next hoff => rw [if_neg hoff]; omega
  · rintro rfl
    obtain ⟨hbuttons, hicon, hdefault, hmodality, honTop⟩ := s.digits_code
    have hlt := s.default_lt
    unfold ofNat?
    rw [Buttons.ofDigit?_eq_some_iff.2 hbuttons, Icon.ofDigit?_eq_some_iff.2 hicon,
      Modality.ofDigit?_eq_some_iff.2 hmodality, honTop]
    obtain ⟨buttons, icon, default, modality, onTop, _⟩ := s
    cases onTop <;> simp [hdefault, hlt]

/-! ## The options of a style -/

/-- Options are decoded to a style just if they are its code. -/
theorem decode?_eq_some_iff {options : Int64} {s : Style} :
    decode? options = some s ↔ options.toInt = s.code := by
  unfold decode?
  split
  next hneg =>
    constructor
    · intro h
      cases h
    · intro h
      omega
  next hneg =>
    rw [ofNat?_eq_some_iff]
    omega

/-- **Options are decoded exactly.** They are decoded to a style just if they are the sum of
the codes of its parts, and so they are decoded at all just if they are such a sum. The
code of the style that they are decoded to is the options, and other options are decoded to
other styles. -/
theorem decode?_exact (options : Int64) :
    (∀ s, decode? options = some s ↔ s.HasCode options.toInt) ∧
      ((decode? options).isSome ↔ ∃ s : Style, s.HasCode options.toInt) ∧
      ∀ s, decode? options = some s → s.code = options.toInt ∧
        ∀ options', decode? options' = some s → options' = options := by
  have hexact (s : Style) : decode? options = some s ↔ s.HasCode options.toInt :=
    decode?_eq_some_iff.trans hasCode_iff.symm
  refine ⟨hexact, ?_, fun s hs => ⟨?_, fun options' hs' => ?_⟩⟩
  · rw [Option.isSome_iff_exists]
    exact exists_congr hexact
  · exact (decode?_eq_some_iff.1 hs).symm
  · exact Int64.toInt_inj.1 ((decode?_eq_some_iff.1 hs').trans (decode?_eq_some_iff.1 hs).symm)

end Style

end HotkeyScript
