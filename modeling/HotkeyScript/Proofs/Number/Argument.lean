import HotkeyScript.Proofs.Program.Gives
import HotkeyScript.Proofs.Token.Literal
/-!
# Numbers — arguments of commands and number literals

A command's argument is a number if it starts with a digit and the reader of the form that
it has, of decimals, of hexadecimals or of floats, accepts it. These readers accept more
than literals: a sign behind `0x`, and a float with an exponent or with nothing behind its
point (`Loose`). For all other texts the numbers among arguments are those that a script
has as its one token, with the same values (`argument_number_iff`).
-/

namespace HotkeyScript

open Text

/-! ## What readers accept -/

namespace Decimal

variable {base : Nat} {c : Char} {cs : List Char}

/-- An exponent is nothing, or has an `e`. -/
theorem exponent?_cases {tail : List Char} {n : Int} (h : exponent? tail = some n) :
    tail = [] ∨ 'e' ∈ tail ∨ 'E' ∈ tail := by
  cases tail with
  | nil => exact .inl rfl
  | cons c tail =>
    rw [exponent?] at h
    split at h
    next hc =>
      obtain rfl | rfl := hc
      · exact .inr (.inl List.mem_cons_self)
      · exact .inr (.inr List.mem_cons_self)
    next => cases h

/-- A digit has no case, so none of the words that floats have starts with one. -/
theorem head?_toLower (hc : c.isDigit = true) (cs : List Char) :
    (String.ofList (c :: cs)).toLower.toList.head? = some c := by
  have hlower : c.toLower = c := by
    have hdigit : 48 ≤ c.toNat ∧ c.toNat ≤ 57 := Char.isDigit_iff_toNat.1 hc
    refine dif_neg fun hupper => ?_
    have hfrom : 65 ≤ c.toNat := hupper.1
    omega
  change ((String.ofList (c :: cs)).map Char.toLower).toList.head? = _
  rw [String.toList_map, String.toList_ofList, List.map_cons, hlower, List.head?_cons]

/-- **What a float is read from**, where it starts with a digit: digits, perhaps a point with
digits behind it, and what may be an exponent. -/
theorem exists_of_magnitude? {x : Float} (hc : c.isDigit = true)
    (h : magnitude? (c :: cs) = some x) :
    ∃ whole tail, whole.all Char.isDigit = true ∧ (tail = [] ∨ 'e' ∈ tail ∨ 'E' ∈ tail) ∧
      (c :: cs = whole ++ tail ∨
        ∃ part, part.all Char.isDigit = true ∧ c :: cs = whole ++ '.' :: (part ++ tail)) := by
  have hhead := head?_toLower hc cs
  have hne {d : Char} (hd : d.isDigit = false) (heq : some d = some c) : False :=
    Scan.ne_of_class hd hc (Option.some.inj heq).symm
  have hwhole : (c :: cs).takeWhile Char.isDigit ++ (c :: cs).dropWhile Char.isDigit = c :: cs :=
    List.takeWhile_append_dropWhile
  unfold magnitude? at h
  dsimp only at h
  split at h
  next hword =>
    obtain hword | hword := hword
    · rw [hword] at hhead
      exact (hne (d := 'i') rfl hhead).elim
    · rw [hword] at hhead
      exact (hne (d := 'i') rfl hhead).elim
  split at h
  next hword =>
    rw [hword] at hhead
    exact (hne (d := 'n') rfl hhead).elim
  -- what is left behind the digits starts with a point, or does not
  split at h
  next ds hrest =>
    have hpart : ds.takeWhile Char.isDigit ++ ds.dropWhile Char.isDigit = ds :=
      List.takeWhile_append_dropWhile
    split at h
    next => cases h
    split at h
    next he =>
      refine ⟨(c :: cs).takeWhile Char.isDigit, ds.dropWhile Char.isDigit, List.all_takeWhile,
        exponent?_cases he, .inr ⟨ds.takeWhile Char.isDigit, List.all_takeWhile, ?_⟩⟩
      rw [hpart, ← hrest, hwhole]
    next => cases h
  next =>
    split at h
    next => cases h
    split at h
    next he =>
      exact ⟨(c :: cs).takeWhile Char.isDigit, (c :: cs).dropWhile Char.isDigit,
        List.all_takeWhile, exponent?_cases he, .inl hwhole.symm⟩
    next => cases h

/-- Where no sign comes first, a float is read without one. -/
theorem float?_cons (hminus : c ≠ '-') (hplus : c ≠ '+') :
    float? (c :: cs) = magnitude? (c :: cs) := by
  rw [float?]
  · exact fun _ h => hminus (List.cons.inj h).1
  · exact fun _ h => hplus (List.cons.inj h).1

end Decimal

/-! ## Literals and loose texts -/

theorem Text.notMem_of_all {p : Char → Bool} {c : Char} {cs : List Char} (h : cs.all p = true)
    (hc : p c = false) : c ∉ cs := by
  intro hmem
  have hp := List.all_eq_true.1 h c hmem
  rw [hc] at hp
  cases hp

/-- What the readers accept in a text and no literal has: a sign, an exponent beside a
point, and a point with nothing behind it. -/
inductive Loose (cs : List Char) : Prop where
  | sign : '+' ∈ cs ∨ '-' ∈ cs → Loose cs
  | exponent : '.' ∈ cs → 'e' ∈ cs ∨ 'E' ∈ cs → Loose cs
  | point : cs.getLast? = some '.' → Loose cs

namespace NumberText

variable {kind : TokenKind} {cs : List Char}

theorem notMem_of_isNumberChar {c : Char} (h : NumberText kind cs) (hc : isNumberChar c = false) :
    c ∉ cs := notMem_of_all h.all_isNumberChar hc

/-- In a float stand digits and a point. -/
theorem notMem_float {ds es : List Char} (hds : RunOf Char.isDigit ds)
    (hes : RunOf Char.isDigit es) {c : Char} (hdigit : c.isDigit = false) (hpoint : c ≠ '.') :
    c ∉ ds ++ '.' :: es := by
  rw [List.mem_append, List.mem_cons]
  rintro (hmem | hmem | hmem)
  · exact notMem_of_all hds.2 hdigit hmem
  · exact hpoint hmem
  · exact notMem_of_all hes.2 hdigit hmem

/-- In a hexadecimal stand no points. -/
theorem notMem_hexadecimal {hs : List Char} (hhs : RunOf isHexDigit hs) :
    '.' ∉ '0' :: 'x' :: hs := by
  rw [List.mem_cons, List.mem_cons]
  rintro (hzero | hx | hmem)
  · exact absurd hzero (by decide)
  · exact absurd hx (by decide)
  · exact notMem_of_all hhs.2 rfl hmem

/-- **No literal is loose.** -/
theorem not_loose (h : NumberText kind cs) : ¬ Loose cs := by
  intro hloose
  cases hloose with
  | sign hsign =>
    exact hsign.elim (h.notMem_of_isNumberChar rfl) (h.notMem_of_isNumberChar rfl)
  | exponent hpoint hexponent =>
    cases h with
    | decimal hds => exact notMem_of_all hds.2 rfl hpoint
    | float hds hes =>
      exact hexponent.elim (notMem_float hds hes rfl (by decide))
        (notMem_float hds hes rfl (by decide))
    | hexadecimal hhs => exact notMem_hexadecimal hhs hpoint
  | point hlast =>
    cases h with
    | decimal hds => exact notMem_of_all hds.2 rfl (List.mem_of_getLast? hlast)
    | float hds hes =>
      rw [List.append_cons, List.getLast?_append_of_ne_nil _ hes.1] at hlast
      exact notMem_of_all hes.2 rfl (List.mem_of_getLast? hlast)
    | hexadecimal hhs => exact notMem_hexadecimal hhs (List.mem_of_getLast? hlast)

/-- **A literal is read in the form of its token.** -/
theorem form?_formOf (h : NumberText kind cs) : kind.form? = some (Number.formOf cs) := by
  cases h with
  | decimal hds =>
    unfold Number.formOf
    split
    next => exact absurd (List.mem_cons_of_mem _ List.mem_cons_self) (notMem_of_all hds.2 rfl)
    next =>
      rw [if_neg]
      · rfl
      · exact fun hpoint => notMem_of_all hds.2 rfl (List.contains_iff_mem.1 hpoint)
  | float hds hes =>
    have hx := notMem_float hds hes (c := 'x') rfl (by decide)
    unfold Number.formOf
    split
    next heq => exact absurd (heq ▸ List.mem_cons_of_mem _ List.mem_cons_self) hx
    next =>
      rw [if_pos]
      · rfl
      · exact List.contains_iff_mem.2 (List.mem_append_right _ List.mem_cons_self)
  | hexadecimal => rfl

theorem ofArgument?_eq (h : NumberText kind cs) :
    Number.ofArgument? cs = Number.read? (Number.formOf cs) cs := by
  obtain ⟨c, text, rfl, hc⟩ := h.exists_cons
  exact if_pos hc

end NumberText

/-- Where no sign comes first, an integer is a natural number. -/
theorem Decimal.exists_natural?_of_integer? {base : Nat} {cs : List Char} {n : Int}
    (hminus : cs.head? ≠ some '-') (hplus : cs.head? ≠ some '+') (h : integer? base cs = some n) :
    ∃ m, natural? base cs = some m := by
  cases cs with
  | nil => cases h
  | cons c cs =>
    rw [integer?_cons (fun hc => hminus (congrArg some hc)) fun hc => hplus (congrArg some hc)] at h
    obtain ⟨m, hm, -⟩ := Option.map_eq_some_iff.1 h
    exact ⟨m, hm⟩

/-- A float that starts with a digit, has a point and is not loose is a literal. -/
theorem numberText_of_float? {c : Char} {cs : List Char} {x : Float} (hc : c.isDigit = true)
    (hpoint : '.' ∈ c :: cs) (hloose : ¬ Loose (c :: cs))
    (h : Decimal.float? (c :: cs) = some x) : NumberText .float (c :: cs) := by
  have hne {d : Char} (hd : d.isDigit = false) : c ≠ d := Scan.ne_of_class hd hc
  rw [Decimal.float?_cons (hne rfl) (hne rfl)] at h
  obtain ⟨whole, tail, hwhole, htail, hcs⟩ := Decimal.exists_of_magnitude? hc h
  have hnil : tail = [] := by
    refine htail.resolve_right fun hexponent => hloose (.exponent hpoint ?_)
    obtain hcs | ⟨part, -, hcs⟩ := hcs
    · rw [hcs]
      exact hexponent.imp (List.mem_append_right _) (List.mem_append_right _)
    · rw [hcs, List.append_cons, ← List.append_assoc]
      exact hexponent.imp (List.mem_append_right _) (List.mem_append_right _)
  rw [hnil] at hcs
  obtain hcs | ⟨part, hpart, hcs⟩ := hcs
  · rw [hcs, List.append_nil] at hpoint
    exact absurd hpoint (notMem_of_all hwhole rfl)
  · rw [List.append_nil] at hcs
    rw [hcs]
    refine .float ⟨fun hempty => ?_, hwhole⟩ ⟨fun hempty => hloose (.point ?_), hpart⟩
    · rw [hempty] at hcs
      exact hne rfl (List.cons.inj hcs).1
    · rw [hcs, hempty]
      exact List.getLast?_concat

/-- **What is accepted and is not loose is a literal.** -/
theorem numberText_of_ofArgument? {cs : List Char} {v : Number}
    (h : Number.ofArgument? cs = some v) (hloose : ¬ Loose cs) : ∃ kind, NumberText kind cs := by
  have hsigns {hs : List Char} (hsuffix : hs <:+ cs) :
      hs.head? ≠ some '-' ∧ hs.head? ≠ some '+' := by
    refine ⟨fun hhead => hloose (.sign (.inr ?_)), fun hhead => hloose (.sign (.inl ?_))⟩
    · exact hsuffix.mem (List.mem_of_head? hhead)
    · exact hsuffix.mem (List.mem_of_head? hhead)
  unfold Number.ofArgument? at h
  split at h
  next c text =>
    split at h
    next hc =>
      unfold Number.formOf at h
      split at h
      next hs heq =>
        obtain ⟨rfl, rfl⟩ := List.cons.inj heq
        obtain ⟨n, hn, -⟩ := Option.bind_eq_some_iff.1 h
        obtain ⟨hminus, hplus⟩ := hsigns (List.suffix_append ['0', 'x'] hs)
        obtain ⟨m, hm⟩ := Decimal.exists_natural?_of_integer? hminus hplus hn
        exact ⟨_, .hexadecimal (Decimal.runOf_isHexDigit hm)⟩
      next =>
        split at h
        next hpoint =>
          obtain ⟨x, hx, -⟩ := Option.map_eq_some_iff.1 h
          exact ⟨_, numberText_of_float? hc (List.contains_iff_mem.1 hpoint) hloose hx⟩
        next =>
          obtain ⟨n, hn, -⟩ := Option.bind_eq_some_iff.1 h
          obtain ⟨hminus, hplus⟩ := hsigns List.suffix_rfl
          obtain ⟨m, hm⟩ := Decimal.exists_natural?_of_integer? hminus hplus hn
          exact ⟨_, .decimal (Decimal.runOf_isDigit hm)⟩
    next => cases h
  next => cases h

/-! ## Arguments and tokens -/

/-- A text has one token, which is a number, and the number that the token stands for. -/
def OneNumber (text : String) (v : Number) : Prop :=
  ∃ sof t eof, tokenize text = .ok [sof, t, eof] ∧ t.kind.isNumber = true ∧
    t.number? = .ok ⟨v, t.span⟩

/-- **The numbers among arguments are the numbers that are one token.** A trimmed text is
accepted as an argument's number and has nothing loose in it just if its one token is a
number, with the same value, and no comment is behind it. -/
theorem argument_number_iff {text : String} (htrim : trim text.toList = text.toList)
    (v : Number) : Number.ofArgument? text.toList = some v ∧ ¬ Loose text.toList ↔
      OneNumber text v ∧ ';' ∉ text.toList := by
  constructor
  · rintro ⟨hv, hloose⟩
    obtain ⟨kind, hliteral⟩ := numberText_of_ofArgument? hv hloose
    have htokens := hliteral.tokenize_eq
    rw [String.ofList_toList] at htokens
    refine ⟨⟨_, _, _, htokens, hliteral.isNumber, ?_⟩, hliteral.notMem_of_isNumberChar rfl⟩
    refine Token.number?_of_read? hliteral.form?_formOf ?_
    rw [← hv, hliteral.ofArgument?_eq]
    exact congrArg _ String.toList_ofList
  · rintro ⟨⟨sof, t, eof, htokens, ht, hnumber⟩, hcomment⟩
    have hlexeme := lexeme_eq_of_tokenize htokens ht htrim hcomment
    have hliteral := numberText_of_tokenize htokens t
      (List.mem_cons_of_mem _ List.mem_cons_self) ht
    rw [hlexeme] at hliteral
    refine ⟨?_, hliteral.not_loose⟩
    rw [hliteral.ofArgument?_eq]
    cases hread : Number.read? (Number.formOf text.toList) text.toList with
    | some value =>
      have hvalue := Token.number?_of_read? hliteral.form?_formOf (by rw [hlexeme]; exact hread)
      rw [hvalue] at hnumber
      cases hnumber
      rfl
    | none =>
      have hunread := Token.number?_of_unread hliteral.form?_formOf (by rw [hlexeme]; exact hread)
      rw [hunread] at hnumber
      cases hnumber

/-- A hexadecimal argument is one token. -/
theorem argument_number_iff_hexadecimal :
    let text := "0x1F"
    trim text.toList = text.toList ∧ Number.ofArgument? text.toList = some (.hexadecimal 31) ∧
      OneNumber text (.hexadecimal 31) := by
  intro text
  have htrim : trim text.toList = text.toList := by decide
  have hv : Number.ofArgument? text.toList = some (.hexadecimal 31) := by decide +kernel
  have hliteral : NumberText .hexadecimal "0x1F".toList :=
    .hexadecimal ⟨List.cons_ne_nil _ _, rfl⟩
  exact ⟨htrim, hv, ((argument_number_iff htrim _).1 ⟨hv, hliteral.not_loose⟩).1⟩

/-- A sign behind `0x` is accepted in an argument, and makes no token. -/
theorem signed_hexadecimal_is_argument :
    Number.ofArgument? "0x-5".toList = some (.hexadecimal (-5)) ∧ ∀ v, ¬ OneNumber "0x-5" v := by
  refine ⟨by decide +kernel, ?_⟩
  rintro v ⟨sof, t, eof, htokens, -⟩
  have herror : (tokenize "0x-5").toBool = false := by decide +kernel
  rw [htokens] at herror
  cases herror

end HotkeyScript
