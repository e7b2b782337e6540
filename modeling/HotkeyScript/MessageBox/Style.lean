/-!
# Message boxes — styles and their codes

The options of a message box are one number: the sum of a code for the
buttons, one for the icon, one for the default button, one for what the box
blocks, and one for staying on top. Each part has digits of its own, so
`Style.decode?` reads them off by division, and `Style.code` is their sum.
-/

namespace HotkeyScript

/-! ## The parts -/

/-- The groups of buttons. -/
inductive Buttons where
  | ok
  | okCancel
  | abortRetryIgnore
  | yesNoCancel
  | yesNo
  | retryCancel
  | cancelTryAgainContinue
deriving DecidableEq, Inhabited

/-- The labels of a group, from the left. -/
def Buttons.labels : Buttons → List String
  | ok => ["OK"]
  | okCancel => ["OK", "Cancel"]
  | abortRetryIgnore => ["Abort", "Retry", "Ignore"]
  | yesNoCancel => ["Yes", "No", "Cancel"]
  | yesNo => ["Yes", "No"]
  | retryCancel => ["Retry", "Cancel"]
  | cancelTryAgainContinue => ["Cancel", "Try Again", "Continue"]

/-- The digit of a group. -/
def Buttons.digit : Buttons → Nat
  | ok => 0
  | okCancel => 1
  | abortRetryIgnore => 2
  | yesNoCancel => 3
  | yesNo => 4
  | retryCancel => 5
  | cancelTryAgainContinue => 6

/-- The group of a digit. -/
def Buttons.ofDigit? : Nat → Option Buttons
  | 0 => some ok
  | 1 => some okCancel
  | 2 => some abortRetryIgnore
  | 3 => some yesNoCancel
  | 4 => some yesNo
  | 5 => some retryCancel
  | 6 => some cancelTryAgainContinue
  | _ => none

/-- The pictures beside the text. -/
inductive Icon where
  | hand
  | question
  | exclamation
  | asterisk
deriving DecidableEq, Inhabited

/-- The digit of an icon, or of having none. -/
def Icon.digit : Option Icon → Nat
  | none => 0
  | some hand => 1
  | some question => 2
  | some exclamation => 3
  | some asterisk => 4

/-- The icon of a digit; the outer `none` is for a digit without meaning. -/
def Icon.ofDigit? : Nat → Option (Option Icon)
  | 0 => some none
  | 1 => some (some hand)
  | 2 => some (some question)
  | 3 => some (some exclamation)
  | 4 => some (some asterisk)
  | _ => none

/-- What a box keeps the user from while it is shown. -/
inductive Modality where
  | application
  | system
  | task
deriving DecidableEq, Inhabited

/-- The digit of a modality. -/
def Modality.digit : Modality → Nat
  | application => 0
  | system => 1
  | task => 2

/-- The modality of a digit. -/
def Modality.ofDigit? : Nat → Option Modality
  | 0 => some application
  | 1 => some system
  | 2 => some task
  | _ => none

/-! ## The whole -/

/-- How a message box looks. The default button is counted from zero. -/
structure Style where
  buttons : Buttons
  icon : Option Icon
  default : Nat
  modality : Modality
  onTop : Bool
  default_lt : default < buttons.labels.length
deriving DecidableEq

namespace Style

/-- The options that stand for a style. -/
def code (s : Style) : Nat :=
  s.buttons.digit + 16 * Icon.digit s.icon + 256 * s.default + 4096 * s.modality.digit +
    if s.onTop then 262144 else 0

/-- The style that a natural number stands for. The last part, in units of
16384, holds the one bit for staying on top and no other. -/
def ofNat? (n : Nat) : Option Style := do
  let buttons ← Buttons.ofDigit? (n % 16)
  let icon ← Icon.ofDigit? (n / 16 % 16)
  let modality ← Modality.ofDigit? (n / 4096 % 4)
  let onTop ← match n / 16384 with
    | 0 => some false
    | 16 => some true
    | _ => none
  if h : n / 256 % 16 < buttons.labels.length then
    return ⟨buttons, icon, n / 256 % 16, modality, onTop, h⟩
  else none

/-- The style that options stand for, if they stand for one. -/
def decode? (options : Int64) : Option Style :=
  if options.toInt < 0 then none else ofNat? options.toInt.toNat

example : (decode? (4 + 32 + 256 + 4096 + 262144)).map code = some 266532 := by decide +kernel
example : decode? 7 = none := by decide +kernel

end Style

end HotkeyScript
