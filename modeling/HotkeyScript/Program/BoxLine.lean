import HotkeyScript.Program.Expression
import HotkeyScript.Text.Blank
/-!
# Programs — reading a message box's line

Behind the command stands either `%` and an expression, which is the text,
or raw arguments. Two or more raw arguments, of which the first is blank or
a number, are options, title, text and timeout in this order; otherwise the
whole line, its commas included, is the text.
-/

namespace HotkeyScript

namespace BoxArguments

/-- No argument is given. -/
def none : BoxArguments := ⟨.none, .none, .none, .none⟩

/-! ## Raw arguments -/

/-- The raw arguments in front, without the commas between them. -/
def segments : List Token → List Token × List Token
  | [] => ([], [])
  | [t] => if t.kind = .raw then ([t], []) else ([], [t])
  | t :: c :: ts =>
    if t.kind = .raw then
      if c.kind = .comma then ((segments ts).map (t :: ·) id) else ([t], c :: ts)
    else ([], t :: c :: ts)

theorem length_segments (ts : List Token) : (segments ts).2.length ≤ ts.length := by
  fun_induction segments ts with
  | case4 => simp_all; omega
  | _ => simp_all

/-- The line behind the command, without the comma that may stand first. -/
def line (ts : List Token) : List Token := if nextKind ts = .comma then ts.tail else ts

theorem length_line (ts : List Token) : (line ts).length ≤ ts.length := by
  unfold line
  split
  · exact length_tail_le ts
  · exact Nat.le_refl _

/-- A raw argument's text without the white space around it. -/
def content (t : Token) : List Char := Text.trim t.lexeme.toList

/-- Whether a raw argument may stand in the place of the options. -/
def isOptionLike (t : Token) : Bool :=
  (content t).isEmpty || (Number.ofArgument? (content t)).isSome

/-- A raw argument as a text with references. -/
def asText (t : Token) : Expr := .text (String.ofList (content t)) true t.span

/-- A raw argument as a number; only a timeout may be a float. -/
def asNumber (which : BoxNumber) (t : Token) : Except Failure NumberLiteral :=
  match Number.ofArgument? (content t), which with
  | some (.float x), .timeout => .ok ⟨.float x, t.span⟩
  | some (.decimal n), _ => .ok ⟨.decimal n, t.span⟩
  | some (.hexadecimal n), _ => .ok ⟨.hexadecimal n, t.span⟩
  | _, _ => .error ⟨.boxNumber which, some t⟩

/-- The argument at a place, unless it is missing or blank. -/
def given? (args : List Token) (i : Nat) : Option Token :=
  args[i]?.filter fun t => !(content t).isEmpty

/-! ## What they mean -/

/-- Options, title, text and timeout by their places. -/
def positional (args : List Token) : Except Failure BoxArguments :=
  match args[maxBoxArguments]? with
  | some extra => .error ⟨.tooManyBoxArguments, some extra⟩
  | .none => do
    let options ← (given? args 0).mapM (asNumber .options)
    let timeout ← (given? args 3).mapM (asNumber .timeout)
    return ⟨options, (given? args 1).map asText, (given? args 2).map asText, timeout⟩

/-- The raw arguments put together again as one text. -/
def joined (args : List Token) : Expr :=
  let text := (args.map fun t => t.lexeme.toList).intersperse [','] |>.flatten
  let span := match args.head?, args.getLast? with
    | some first, some last => first.span.merge last.span
    | _, _ => default
  .text (String.ofList (Text.trim text)) true span

/-- What raw arguments mean. -/
def ofSegments (args : List Token) : Except Failure BoxArguments :=
  match args with
  | [] => .ok none
  | first :: rest =>
    if !rest.isEmpty && isOptionLike first then positional args
    else .ok { none with text := some (joined args) }

end BoxArguments

namespace Rule

/-- A message box, behind the command `start`. -/
def box (nested : Rule Expr) (start : Token) : OptionalRule Stmt := fun ts =>
  if nextKind ts = .percent then do
    let text ← nested ts.tail
    return text.behindHead.relax.as
      (.box { BoxArguments.none with text := some text.value } (start.span.merge text.value.span))
  else do
    let args := (BoxArguments.segments (BoxArguments.line ts)).1
    let box ← BoxArguments.ofSegments args
    let span := match args.getLast? with
      | some last => start.span.merge last.span
      | none => start.span
    return ⟨.box box span, (BoxArguments.segments (BoxArguments.line ts)).2,
      Nat.lt_succ_of_le (Nat.le_trans (BoxArguments.length_segments _) (BoxArguments.length_line ts))⟩

end Rule

end HotkeyScript
