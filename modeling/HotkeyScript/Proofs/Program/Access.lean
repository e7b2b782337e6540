import HotkeyScript.Proofs.Program.Gives
import HotkeyScript.Proofs.Program.Spans
import HotkeyScript.Proofs.Program.Leaves
import HotkeyScript.Proofs.Token.Returns
/-!
# Programs — keys attached with points

A name with keys attached to it by points, `v.a.b.2`, is read as the access of the
first key, then of the second, and so on. A name goes wherever a key does. An integer
goes last only: the number literal that it begins takes the point behind it, so that
`v.1.a` is no token list and `v.1.2` ends with the float `1.2`
(`AccessText.program_iff`).

The tokens of keys are read alike whatever the keys are
(`KeyText.gives_accesses`); it is the scan of a number that goes too far. That no
other way of reading gives the accesses either is a matter of counting: a program has
a leaf for each token with content, and a float is one token where there should be
two (`AccessText.length_leaves_tree`).
-/

namespace HotkeyScript

open Text

/-! ## Keys as they are written -/

/-- The text of a key behind a point. -/
inductive KeyText where
  | member (name : NameText)
  | index (digits : DecimalText)

namespace KeyText

/-- Whether a key is a name. -/
def isMember : KeyText → Bool
  | member _ => true
  | index _ => false

/-- How a key is written. -/
def wording : KeyText → Wording
  | member name => name.wording
  | index digits => digits.wording

/-- What a key stands for in its place. -/
def key (span : Span) : KeyText → Key
  | member name => .member ⟨String.ofList name.text, span⟩
  | index digits => .index (.number ⟨.decimal digits.value, span⟩)

/-- The point in front of a key. -/
def pointMark : Mark := ⟨.plain .dot ['.'], []⟩

/-- A key right behind its point. -/
def mark (key : KeyText) : Mark := ⟨key.wording, []⟩

/-- The marks of keys. -/
def marks : List KeyText → List Mark
  | [] => []
  | key :: keys => pointMark :: key.mark :: marks keys

/-- Keys that are written from a position on, in their places. -/
def placed (p : Position) : List KeyText → List Key
  | [] => []
  | key :: keys =>
    let behindPoint := p.past pointMark.written
    key.key (key.mark.token behindPoint).span :: placed (behindPoint.past key.mark.written) keys

end KeyText

/-- An object with a key, which stands behind it. -/
def Expr.attach (object : Expr) (key : Key) : Expr :=
  .access object key (object.span.merge key.span)

/-- A name with keys attached to it. -/
structure AccessText where
  object : NameText
  keys : List KeyText

namespace AccessText

/-- The object. -/
def objectMark (access : AccessText) : Mark := ⟨access.object.wording, []⟩

/-- The marks of a name with its keys. -/
def marks (access : AccessText) : List Mark := access.objectMark :: KeyText.marks access.keys

/-- A name with its keys as it is written. -/
def text (access : AccessText) : String := String.ofList (Mark.textOf access.marks)

/-- The access of the first key, then of the second, and so on. -/
def tree (access : AccessText) : Expr :=
  (KeyText.placed (Position.start.past access.objectMark.written) access.keys).foldl Expr.attach
    (.name ⟨String.ofList access.object.text, (access.objectMark.token .start).span⟩)

end AccessText

/-! ## Keys are read in any order -/

namespace KeyText

variable {nested : Rule Expr}

/-- Behind a point a key's token is a key. -/
theorem memberKey_mark (key : KeyText) (p : Position) :
    Rule.memberKey (key.mark.token p) = .ok (key.key (key.mark.token p).span) := by
  cases key with
  | member name => rfl
  | index digits =>
    have hkind : ¬ ((KeyText.index digits).mark.token p).kind = .identifier := nofun
    rw [Rule.memberKey, if_neg hkind, digits.number?_eq rfl rfl]
    rfl

/-- **The tokens of keys are read as accesses of one key after the other.** -/
theorem gives_accesses (p : Position) (keys : List KeyText) (object : Expr) :
    Gives (Rule.accesses nested object (Mark.tokens p (marks keys)))
      ((placed p keys).foldl Expr.attach object) [] := by
  induction keys generalizing p object with
  | nil =>
    refine ⟨Nat.zero_lt_one, ?_⟩
    change Rule.accesses nested object [] = _
    rw [Rule.accesses]
    rfl
  | cons key keys ih =>
    obtain ⟨hlt, hmore⟩ := ih ((p.past pointMark.written).past key.mark.written)
      (object.attach (key.key (key.mark.token (p.past pointMark.written)).span))
    refine ⟨Nat.zero_lt_succ _, ?_⟩
    have hbracket : ¬ ((pointMark.token p).kind = .leftBracket ∧
        (!(pointMark.token p).spaced) = true) := by
      rintro ⟨hopen, -⟩
      cases hopen
    have hmember : Rule.isMember (pointMark.token p)
        (key.mark.token (p.past pointMark.written)) = true := by
      cases key <;> rfl
    rw [marks, Mark.tokens, Mark.tokens, Rule.accesses.eq_def]
    dsimp only
    rw [if_neg hbracket, if_pos hmember, memberKey_mark]
    have hattach (span : Span) : (key.key span).span = span := by
      cases key <;> rfl
    have hobject : Rule.Expr.at object (key.key (key.mark.token (p.past pointMark.written)).span)
        (key.mark.token (p.past pointMark.written)) =
        object.attach (key.key (key.mark.token (p.past pointMark.written)).span) := by
      rw [Expr.attach, hattach]
      rfl
    change (Rule.accesses nested (Rule.Expr.at object _ _) _ >>= _) = _
    rw [hobject, hmore]
    rfl

/-! ## What is scanned -/

theorem marks_append (keys more : List KeyText) :
    marks (keys ++ more) = marks keys ++ marks more := by
  induction keys with
  | nil => rfl
  | cons key keys ih => rw [List.cons_append, marks, marks, ih]; rfl

/-- In front of keys stands a point, or what stands behind them. -/
theorem notNext (keys : List KeyText) {p : Char → Bool} {rest : List Char} (hp : p '.' = false)
    (hrest : NotNext p rest) : NotNext p (Mark.textOf (marks keys) ++ rest) := by
  cases keys with
  | nil => exact hrest
  | cons key keys => exact .cons hp _

theorem readBefore_point (rest : List Char) : pointMark.ReadBefore rest := by
  have hdot : Scan.punctuation? '.' = some .dot := rfl
  exact Wording.readBefore_punctuation hdot nofun rest

/-- In front of the end every key is scanned. -/
theorem readBefore_end (key : KeyText) : key.mark.ReadBefore [] := by
  cases key with
  | member name => exact name.readBefore (.nil _)
  | index digits => exact digits.readBefore (.nil _)

/-- Names are scanned in front of what goes on with no name. -/
theorem scanned_names {names : List KeyText} (h : names.all isMember = true) {rest : List Char}
    (hrest : NotNext isNameChar rest) : Mark.Scanned rest (marks names) := by
  induction names with
  | nil => trivial
  | cons key names ih =>
    rw [List.all_cons, Bool.and_eq_true] at h
    refine ⟨rfl, readBefore_point _, rfl, ?_, ih h.2⟩
    cases key with
    | member name => exact name.readBefore (notNext names rfl hrest)
    | index digits => cases h.1

/-- Keys are scanned if all but the last are names. -/
theorem scanned {keys : List KeyText} (h : keys.dropLast.all isMember = true) :
    Mark.Scanned [] (marks keys) := by
  obtain rfl | ⟨names, last, rfl⟩ := keys.eq_nil_or_concat'
  · trivial
  · rw [List.dropLast_concat] at h
    rw [marks_append]
    refine Mark.scanned_append.2 ⟨scanned_names h (.cons rfl _), ?_⟩
    exact ⟨rfl, readBefore_point _, rfl, last.readBefore_end, trivial⟩

end KeyText

namespace AccessText

variable (access : AccessText)

/-- Keys are read behind the name on every level. -/
theorem gives_expression (n : Nat) :
    Gives (Rule.expression (n + 1) (Mark.tokens .start access.marks)) access.tree [] := by
  obtain ⟨object, keys⟩ := access
  have hsigned : Gives (Rule.signed (Rule.operand n) (Rule.expression n)
      (Mark.tokens .start (marks ⟨object, keys⟩))) (tree ⟨object, keys⟩) [] := by
    change Gives (Rule.signed _ _ (_ :: Mark.tokens _ (KeyText.marks keys))) _ _
    rw [Rule.signed_of_none rfl]
    refine Rule.gives_name rfl ?_ (KeyText.gives_accesses _ keys _)
    cases keys with
    | nil => rintro p ⟨⟩
    | cons key keys =>
      rintro p ⟨⟩ ⟨hparen, -⟩
      cases hparen
  rw [Rule.expression]
  exact Rule.gives_sum (Rule.gives_product hsigned (.nil rfl)) (.nil rfl) (by decide)

/-- A name with keys begins no other statement than an expression. -/
theorem beginsExpr : Rule.BeginsExpr (Mark.tokens .start access.marks) := by
  obtain ⟨object, keys⟩ := access
  refine .inr (.inr (.inr ⟨rfl, ?_⟩))
  cases keys with
  | nil => exact ⟨nofun, nofun, nofun⟩
  | cons key keys => exact ⟨nofun, nofun, nofun⟩

theorem scanned (h : access.keys.dropLast.all KeyText.isMember = true) :
    Mark.Scanned [] access.marks :=
  ⟨rfl, access.object.readBefore (KeyText.notNext access.keys rfl (.nil _)), KeyText.scanned h⟩

end AccessText

/-! ## An integer takes the point behind it -/

section

variable {c : Char} {cs rest : List Char} {shape : Scan.Shape}

/-- A point with no digit behind it can stand in no number. -/
theorem Scan.digits_point (hc : c.isDigit = false) (shape : Shape) (cs : List Char) :
    digits shape ('.' :: c :: cs) = .error ([], '.') := by
  have hnumber : isNumberChar '.' = true := rfl
  have hnext : shape.next? '.' (c :: cs).head? = none := by
    rw [Shape.next?, if_neg (by decide), if_pos rfl, if_neg]
    rintro ⟨-, hdigit⟩
    rw [List.head?_cons, Option.any_some, hc] at hdigit
    cases hdigit
  rw [digits, if_pos hnumber, hnext]

/-- A second point can stand in no number. -/
theorem Scan.digits_secondPoint (cs : List Char) :
    digits .fraction ('.' :: cs) = .error ([], '.') := by
  have hnumber : isNumberChar '.' = true := rfl
  have hnext : Shape.fraction.next? '.' cs.head? = none := by
    rw [Shape.next?, if_neg (by decide), if_pos rfl, if_neg]
    rintro ⟨hshape | hshape, -⟩ <;> cases hshape
  rw [digits, if_pos hnumber, hnext]

/-- A point with digits behind it goes on with an integer. -/
theorem Scan.digits_fraction (digits : DecimalText) (hshape : shape = .zero ∨ shape = .integer)
    (rest : List Char) : Scan.digits shape ('.' :: (digits.text ++ rest)) =
      ((Scan.digits .fraction rest).map fun r =>
        (r.1, '.' :: (digits.text ++ r.2.1), r.2.2)).mapError fun e =>
          ('.' :: (digits.text ++ e.1), e.2) :=
  digits_point_digits hshape (List.cons_ne_nil _ _)
    (Bool.and_eq_true_iff.2 ⟨digits.isDigit, digits.areDigits⟩) rest

end

namespace DecimalText

variable (digits : DecimalText) {rest : List Char}

/-- Where a point cannot go on with an integer, neither can anything be cut. -/
theorem cut_error (h : ∀ shape, shape = .zero ∨ shape = .integer →
      ∃ before, Scan.digits shape rest = .error (before, '.')) (lineStart : Bool) :
    ∃ cut, Piece.cut lineStart (digits.text ++ rest) = .error cut ∧ cut.fault = .illegal '.' := by
  obtain ⟨shape, hshape, hdigits⟩ := digits.digits_others rest
  obtain ⟨before, hrest⟩ := h shape hshape
  have hblank : isBlank digits.first = false :=
    Scan.isBlank_of_isNameChar (Scan.isNameChar_of_isDigit digits.isDigit)
  have hdrop : (digits.text ++ rest).dropWhile isBlank =
      digits.first :: (digits.others ++ rest) := by
    rw [text, List.cons_append, List.dropWhile_cons, hblank]
    rfl
  have hnext (spaced : Bool) :
      Scan.next lineStart spaced digits.first (digits.others ++ rest) =
        .error ⟨.illegal '.', digits.first :: (digits.others ++ before), ['.']⟩ := by
    rw [Scan.next_digit lineStart spaced digits.isDigit, Scan.number, hdigits, hrest]
    rfl
  exact ⟨_, Piece.cut_of_fault hdrop (hnext _), rfl⟩

/-- An integer, a point and another integer are a float. -/
theorem readBefore_float (fraction : DecimalText) :
    (Wording.plain .float (digits.text ++ '.' :: fraction.text)).ReadBefore [] := by
  refine ⟨digits.first, digits.others ++ '.' :: fraction.text, rfl,
    Scan.isBlank_of_isNameChar (Scan.isNameChar_of_isDigit digits.isDigit), nofun,
    fun lineStart spaced => ?_⟩
  obtain ⟨shape, hshape, hdigits⟩ := digits.digits_others ('.' :: (fraction.text ++ []))
  rw [Scan.digits_fraction fraction hshape, Scan.digits_of_notNext (.nil _)] at hdigits
  change _ = Except.ok (Scan.Shape.fraction, digits.others ++ '.' :: (fraction.text ++ []), [])
    at hdigits
  rw [List.append_nil] at hdigits
  rw [List.append_nil, Scan.next_digit lineStart spaced digits.isDigit, Scan.number, hdigits]
  rfl

end DecimalText

/-! ## Where an integer may stand -/

namespace KeyText

/-- Where not all but the last are names, the first integer has a key behind it. -/
theorem exists_index {keys : List KeyText} (h : ¬ keys.dropLast.all isMember = true) :
    ∃ names digits next more, keys = names ++ .index digits :: next :: more ∧
      names.all isMember = true := by
  induction keys with
  | nil => exact (h rfl).elim
  | cons key keys ih =>
    cases keys with
    | nil => exact (h rfl).elim
    | cons next keys =>
      cases key with
      | index digits => exact ⟨[], digits, next, keys, rfl, rfl⟩
      | member name =>
        obtain ⟨names, digits, next', more, hkeys, hnames⟩ := ih h
        exact ⟨.member name :: names, digits, next', more, congrArg (_ :: ·) hkeys, hnames⟩

/-- Each key adds a leaf. -/
theorem length_leaves (p : Position) (keys : List KeyText) (object : Expr) :
    ((placed p keys).foldl Expr.attach object).leaves.length =
      object.leaves.length + keys.length := by
  induction keys generalizing p object with
  | nil => rfl
  | cons key keys ih =>
    have hkey (span : Span) : (object.attach (key.key span)).leaves.length =
        object.leaves.length + 1 := by
      cases key <;> exact List.length_append
    rw [placed, List.foldl_cons, ih, hkey, List.length_cons]
    omega

end KeyText

/-- As many of the tokens of marks hold content as marks do. -/
theorem Mark.length_contentOf (p : Position) (ms : List Mark) :
    (contentOf (tokens p ms)).length = ms.countP fun m => m.kind.isContent := by
  have hkinds := congrArg (List.countP TokenKind.isContent) (map_kind_tokens p ms)
  rw [List.countP_map, List.countP_map] at hkinds
  rw [contentOf, ← List.countP_eq_length_filter]
  exact hkinds

namespace KeyText

/-- Each key is one token with content, and no command. -/
theorem countP_marks (keys : List KeyText) :
    (marks keys).countP (fun m => m.kind.isContent) = keys.length ∧
      ∀ m ∈ marks keys, m.kind ≠ .command := by
  induction keys with
  | nil => exact ⟨rfl, nofun⟩
  | cons key keys ih =>
    have hkey : key.mark.kind.isContent = true ∧ key.mark.kind ≠ .command := by
      cases key <;> exact ⟨rfl, nofun⟩
    constructor
    · rw [marks, List.countP_cons, List.countP_cons, if_pos hkey.1, ih.1]
      rfl
    · exact List.forall_mem_cons.2 ⟨nofun, List.forall_mem_cons.2 ⟨hkey.2, ih.2⟩⟩

end KeyText

namespace AccessText

variable (access : AccessText)

/-- As many leaves as the name and its keys. -/
theorem length_leaves_tree : access.tree.leaves.length = access.keys.length + 1 := by
  rw [tree, KeyText.length_leaves, Nat.add_comm]
  rfl

/-- If a name with keys is read as its accesses, there are as many tokens with content
as the name has keys, and one. -/
theorem length_contentOf {ts : List Token} {sof eof : Token}
    (hts : tokenize access.text = .ok (sof :: ts ++ [eof])) (hcommand : ∀ t ∈ ts, t.kind ≠ .command)
    {file : String} (h : (⟨file, access.text⟩ : Source).program =
      .ok ⟨[.expr access.tree access.tree.span]⟩) :
    (contentOf ts).length = access.keys.length + 1 := by
  obtain ⟨tokens, htokens, hprogram⟩ := Source.exists_tokens_of_program h
  rw [hts] at htokens
  cases htokens
  have hspelled := Program.spelled_ofTokens hprogram
  have hmid : ((sof :: ts ++ [eof]).drop 1).dropLast = ts := List.dropLast_concat
  rw [hmid] at hspelled
  have hraw : NoRawBox ts := by
    refine (List.pairwise_of_forall_mem_list fun t ht u _ hk => ?_).isChain
    exact absurd hk (hcommand t ht)
  have hlength := (hspelled.stand hraw).length_eq
  rw [← hlength, ← length_leaves_tree]
  change (access.tree.leaves ++ []).length = _
  rw [List.append_nil]

/-- The marks up to the point in front of the first integer. -/
def front (object : NameText) (names : List KeyText) : List Mark :=
  ⟨object.wording, []⟩ :: (KeyText.marks names ++ [KeyText.pointMark])

theorem scanned_front (object : NameText) {names : List KeyText}
    (h : names.all KeyText.isMember = true) (rest : List Char) :
    Mark.Scanned rest (front object names) := by
  have hnames : Mark.Scanned ('.' :: rest) (⟨object.wording, []⟩ :: KeyText.marks names) :=
    ⟨rfl, object.readBefore (KeyText.notNext names rfl (.cons rfl _)),
      KeyText.scanned_names h (.cons rfl _)⟩
  rw [front, ← List.cons_append, Mark.scanned_append]
  exact ⟨hnames, rfl, KeyText.readBefore_point _, trivial⟩

theorem countP_front (object : NameText) (names : List KeyText) :
    (front object names).countP (fun m => m.kind.isContent) = names.length + 1 ∧
      ∀ m ∈ front object names, m.kind ≠ .command := by
  obtain ⟨hcount, hcommand⟩ := KeyText.countP_marks names
  constructor
  · rw [front, List.countP_cons, List.countP_append, hcount]
    rfl
  · refine List.forall_mem_cons.2 ⟨nofun, fun m hm => ?_⟩
    obtain hm | hm := List.mem_append.1 hm
    · exact hcommand m hm
    · rw [List.mem_singleton.1 hm]
      exact nofun

variable {object : NameText} {names more : List KeyText} {digits : DecimalText} {next : KeyText}

/-- What stands behind the point in front of the first integer. -/
theorem text_eq : text ⟨object, names ++ .index digits :: next :: more⟩ =
    String.ofList (Mark.textOf (front object names) ++
      (digits.text ++ '.' :: (next.wording.text ++ Mark.textOf (KeyText.marks more)))) := by
  have hpoint : KeyText.pointMark.written = ['.'] := rfl
  have hindex : (KeyText.index digits).mark.written = digits.text := rfl
  have hnext : next.mark.written = next.wording.text := rfl
  rw [text, marks, front, KeyText.marks_append, KeyText.marks, KeyText.marks]
  simp only [Mark.textOf_cons, Mark.textOf_append, Mark.textOf_nil, hpoint, hindex, hnext,
    List.append_assoc, List.cons_append, List.nil_append]
  rfl

/-- Where no token can be cut, no program is read. -/
theorem program_ne_of_cut_error (hnames : names.all KeyText.isMember = true)
    (h : ∀ shape, shape = .zero ∨ shape = .integer → ∃ before,
      Scan.digits shape ('.' :: (next.wording.text ++ Mark.textOf (KeyText.marks more))) =
        .error (before, '.')) (file : String) (program : Program) :
    (⟨file, text ⟨object, names ++ .index digits :: next :: more⟩⟩ : Source).program ≠
      .ok program := by
  intro hprogram
  obtain ⟨tokens, htokens, -⟩ := Source.exists_tokens_of_program hprogram
  obtain ⟨e, herror, -⟩ := Mark.tokenize_of_fault (scanned_front object hnames _)
    (digits.cut_error h)
  rw [text_eq, herror] at htokens
  cases htokens

/-- Where two keys are one float, the leaves of the accesses are not there. -/
theorem program_ne_of_float (hnames : names.all KeyText.isMember = true) {fraction : DecimalText}
    (file : String) :
    let access : AccessText := ⟨object, names ++ [.index digits, .index fraction]⟩
    (⟨file, access.text⟩ : Source).program ≠ .ok ⟨[.expr access.tree access.tree.span]⟩ := by
  intro access hprogram
  let float : Mark := ⟨.plain .float (digits.text ++ '.' :: fraction.text), []⟩
  have hms : Mark.Scanned [] (front object names ++ [float]) :=
    Mark.scanned_append.2
      ⟨scanned_front object hnames _, rfl, digits.readBefore_float fraction, trivial⟩
  have htext : access.text = String.ofList (Mark.textOf (front object names ++ [float])) := by
    have hfloat : float.written = digits.text ++ '.' :: fraction.text := rfl
    have hfraction : (KeyText.index fraction).wording.text = fraction.text := rfl
    rw [text_eq, Mark.textOf_append, Mark.textOf_cons, hfloat, hfraction, List.append_assoc]
    rfl
  have hkinds := countP_front object names
  have hcommand : ∀ m ∈ front object names ++ [float], m.kind ≠ .command := by
    intro m hm
    obtain hm | hm := List.mem_append.1 hm
    · exact hkinds.2 m hm
    · rw [List.mem_singleton.1 hm]
      exact nofun
  have htokens := Mark.tokenize_of_scanned hms
  rw [← htext] at htokens
  have hlength := length_contentOf access htokens (Mark.kind_ne_of_mem_tokens hcommand) hprogram
  rw [Mark.length_contentOf, List.countP_append, hkinds.1, List.length_append] at hlength
  have hcount : names.length + 1 + 1 = names.length + 2 + 1 := hlength
  omega

/-- **An integer in front of another key spoils the accesses.** In front of a name, or of
an integer with a key behind it, a point is illegal; and in front of an integer at the
end a float is read, which is one leaf instead of two. -/
theorem program_ne_tree (access : AccessText)
    (h : ¬ access.keys.dropLast.all KeyText.isMember = true) (file : String) :
    (⟨file, access.text⟩ : Source).program ≠ .ok ⟨[.expr access.tree access.tree.span]⟩ := by
  obtain ⟨object, keys⟩ := access
  obtain ⟨names, digits, next, more, hkeys, hnames⟩ := KeyText.exists_index h
  cases hkeys
  cases next with
  | member name =>
    refine program_ne_of_cut_error hnames (fun shape _ => ⟨[], ?_⟩) file _
    exact Scan.digits_point (Scan.isDigit_of_isNameStart name.starts) shape _
  | index fraction =>
    cases more with
    | cons key more =>
      refine program_ne_of_cut_error hnames (fun shape hshape => ?_) file _
      refine ⟨'.' :: (fraction.text ++ []), ?_⟩
      change Scan.digits shape ('.' :: (fraction.text ++ '.' :: _)) = _
      rw [Scan.digits_fraction fraction hshape, Scan.digits_secondPoint]
      rfl
    | nil =>
      exact program_ne_of_float hnames file

/-- **Where an integer may be attached.** A name with keys attached to it by points is
read as the access of the first key, then of the second, and so on, if and only if all
keys but the last are names. -/
theorem program_iff (access : AccessText) (file : String) :
    (⟨file, access.text⟩ : Source).program = .ok ⟨[.expr access.tree access.tree.span]⟩ ↔
      access.keys.dropLast.all KeyText.isMember = true := by
  refine ⟨fun h => ?_, fun h => ?_⟩
  · by_contra hkeys
    exact access.program_ne_tree hkeys file h
  · exact Mark.program_of_expr (access.scanned h) access.beginsExpr (access.gives_expression _) file

/-- `v.1.a` is no access of the key `1` and then of `a`: its second point is illegal. -/
theorem integer_in_front_of_name :
    let access : AccessText :=
      ⟨⟨'v', [], rfl, rfl, rfl⟩, [.index ⟨'1', [], rfl, rfl, by decide⟩,
        .member ⟨'a', [], rfl, rfl, rfl⟩]⟩
    access.text = "v.1.a" ∧
      tokenize access.text = .error ⟨.illegal '.', ⟨⟨3, 1, 4⟩, ⟨4, 1, 5⟩⟩⟩ ∧
      (⟨"", access.text⟩ : Source).program ≠ .ok ⟨[.expr access.tree access.tree.span]⟩ := by
  intro access
  have htext : access.text = "v.1.a" := by decide +kernel
  have herror : tokenize "v.1.a" = .error ⟨.illegal '.', ⟨⟨3, 1, 4⟩, ⟨4, 1, 5⟩⟩⟩ := by
    decide +kernel
  rw [htext]
  refine ⟨rfl, herror, fun hprogram => ?_⟩
  obtain ⟨tokens, htokens, -⟩ := Source.exists_tokens_of_program hprogram
  rw [herror] at htokens
  cases htokens

end AccessText

end HotkeyScript
