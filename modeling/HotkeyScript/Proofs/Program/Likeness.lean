import Mathlib.Data.List.Forall2
import HotkeyScript.Program.Statement
/-!
# Programs — alike but for where they stand

An alignment says which spans of one text stand for which of another. Tokens,
expressions and statements are alike along it when they are the same but for
their spans, and those stand for each other.
-/

namespace HotkeyScript

/-- **An alignment of two texts**: which spans of the one stand for which of the
other. What stands for two spans stands for what they make up together. -/
structure Alignment where
  alike : Span → Span → Prop
  merge {s s' t t' : Span} : alike s s' → alike t t' → alike (s.merge t) (s'.merge t')

/-- What stands for a span begins on the same line. -/
class Alignment.KeepsLines (A : Alignment) : Prop where
  line {s s' : Span} : A.alike s s' → s'.start.line = s.start.line

/-- Answers that are alike: values in one relation, or errors in another. -/
inductive Alike {ε ε' α β : Type} (E : ε → ε' → Prop) (V : α → β → Prop) :
    Except ε α → Except ε' β → Prop where
  | ok {a : α} {b : β} : V a b → Alike E V (.ok a) (.ok b)
  | error {e : ε} {f : ε'} : E e f → Alike E V (.error e) (.error f)

theorem Alike.bind {ε ε' α α' β β' : Type} {E : ε → ε' → Prop} {V : α → β → Prop}
    {W : α' → β' → Prop} {x : Except ε α} {y : Except ε' β} {k : α → Except ε α'}
    {l : β → Except ε' β'} (h : Alike E V x y) (hk : ∀ a b, V a b → Alike E W (k a) (l b)) :
    Alike E W (x >>= k) (y >>= l) := by
  cases h with
  | ok h => exact hk _ _ h
  | error h => exact .error h

/-- What is related one by one is so at each place. -/
theorem rel_getElem? {α β : Type} {R : α → β → Prop} {as : List α} {bs : List β}
    (h : List.Forall₂ R as bs) (i : Nat) : Option.Rel R as[i]? bs[i]? := by
  induction h generalizing i with
  | nil => exact .none
  | cons h _ ih =>
    cases i with
    | zero => exact .some h
    | succ i => exact ih i

variable (A : Alignment)

/-! ## Tokens -/

/-- Whether a blank came in front is seen of no line end. -/
structure Token.Like (t u : Token) : Prop where
  kind : u.kind = t.kind
  lexeme : u.lexeme = t.lexeme
  span : A.alike t.span u.span
  spaced : t.kind ≠ .lineEnd → u.spaced = t.spaced

/-- The same mistake, noticed at tokens that are alike. -/
structure Failure.Like (f g : Failure) : Prop where
  mistake : g.mistake = f.mistake
  token? : Option.Rel (Token.Like A) f.token? g.token?

/-! ## Expressions -/

/-- A name at two places. -/
structure Identifier.Like (i j : Identifier) : Prop where
  name : j.name = i.name
  span : A.alike i.span j.span

/-- A number at two places. -/
structure NumberLiteral.Like (l k : NumberLiteral) : Prop where
  value : k.value = l.value
  span : A.alike l.span k.span

mutual

/-- **Expressions that are alike**: of one form, with parts that are alike, at places that
stand for each other. -/
inductive Expr.Like : Expr → Expr → Prop where
  | number {l k : NumberLiteral} : l.Like A k → Expr.Like (.number l) (.number k)
  | text (value : String) (interpolated : Bool) {s t : Span} :
      A.alike s t → Expr.Like (.text value interpolated s) (.text value interpolated t)
  | boolean (value : Bool) {s t : Span} :
      A.alike s t → Expr.Like (.boolean value s) (.boolean value t)
  | array {es fs : List Expr} {s t : Span} :
      List.Forall₂ Expr.Like es fs → A.alike s t → Expr.Like (.array es s) (.array fs t)
  | table {es fs : List (Expr × Expr)} {s t : Span} :
      List.Forall₂ Expr.EntryLike es fs → A.alike s t → Expr.Like (.table es s) (.table fs t)
  | name {i j : Identifier} : i.Like A j → Expr.Like (.name i) (.name j)
  | access {e f : Expr} {k l : Key} {s t : Span} :
      Expr.Like e f → Key.Like k l → A.alike s t → Expr.Like (.access e k s) (.access f l t)
  | binary (op : BinaryOp) {e f e' f' : Expr} {s t : Span} :
      Expr.Like e f → Expr.Like e' f' → A.alike s t →
      Expr.Like (.binary op e e' s) (.binary op f f' t)
  | unary (op : UnaryOp) {e f : Expr} {s t : Span} :
      Expr.Like e f → A.alike s t → Expr.Like (.unary op e s) (.unary op f t)
  | choice {c d e f e' f' : Expr} {s t : Span} :
      Expr.Like c d → Expr.Like e f → Expr.Like e' f' → A.alike s t →
      Expr.Like (.choice c e e' s) (.choice d f f' t)
  | call {i j : Identifier} {es fs : List Expr} {s t : Span} :
      i.Like A j → List.Forall₂ Expr.Like es fs → A.alike s t →
      Expr.Like (.call i es s) (.call j fs t)

inductive Key.Like : Key → Key → Prop where
  | member {i j : Identifier} : i.Like A j → Key.Like (.member i) (.member j)
  | index {e f : Expr} : Expr.Like e f → Key.Like (.index e) (.index f)

/-- A key and a value, as a table has them. -/
inductive Expr.EntryLike : Expr × Expr → Expr × Expr → Prop where
  | mk {e f e' f' : Expr} : Expr.Like e f → Expr.Like e' f' → Expr.EntryLike (e, e') (f, f')

end

/-! ## Statements -/

/-- The same parts of a box, and those that are alike. -/
structure BoxArguments.Like (a b : BoxArguments) : Prop where
  options : Option.Rel (NumberLiteral.Like A) a.options b.options
  title : Option.Rel (Expr.Like A) a.title b.title
  text : Option.Rel (Expr.Like A) a.text b.text
  timeout : Option.Rel (NumberLiteral.Like A) a.timeout b.timeout

mutual

/-- **Statements that are alike**, as expressions are. -/
inductive Stmt.Like : Stmt → Stmt → Prop where
  | assign {i j : Identifier} {e f : Expr} (isGlobal : Bool) {s t : Span} :
      i.Like A j → e.Like A f → A.alike s t →
      Stmt.Like (.assign i e isGlobal s) (.assign j f isGlobal t)
  | store {e f : Expr} {k l : Key} {e' f' : Expr} {s t : Span} :
      e.Like A f → k.Like A l → e'.Like A f' → A.alike s t →
      Stmt.Like (.store e k e' s) (.store f l f' t)
  | branch {e f : Expr} {b c : Block} {b' c' : Option Block} {s t : Span} :
      e.Like A f → Block.Like b c → Option.Rel Block.Like b' c' → A.alike s t →
      Stmt.Like (.branch e b b' s) (.branch f c c' t)
  | declare {i j : Identifier} {ps qs : List Expr} {b c : Block} {s t : Span} :
      i.Like A j → List.Forall₂ (Expr.Like A) ps qs → Block.Like b c → A.alike s t →
      Stmt.Like (.declare i ps b s) (.declare j qs c t)
  | give {e f : Option Expr} {s t : Span} :
      Option.Rel (Expr.Like A) e f → A.alike s t → Stmt.Like (.give e s) (.give f t)
  | box {a b : BoxArguments} {s t : Span} :
      a.Like A b → A.alike s t → Stmt.Like (.box a s) (.box b t)
  | expr {e f : Expr} {s t : Span} :
      e.Like A f → A.alike s t → Stmt.Like (.expr e s) (.expr f t)

inductive Block.Like : Block → Block → Prop where
  | mk {ss ts : List Stmt} {s t : Span} :
      List.Forall₂ Stmt.Like ss ts → A.alike s t → Block.Like (.mk ss s) (.mk ts t)

end

/-! ## What is alike stands alike -/

variable {A}

/-- The places of expressions that are alike stand for each other, whatever their form. -/
theorem Expr.Like.span {e f : Expr} (h : e.Like A f) : A.alike e.span f.span := by
  cases h with
  | number h => exact h.span
  | name h => exact h.span
  | text _ _ h | boolean _ h | array _ h | table _ h | access _ _ h | binary _ _ _ h | unary _ _ h
  | choice _ _ _ h | call _ _ h => exact h

/-- And so do those of keys, each being the place of what the key is made of. -/
theorem Key.Like.span {k l : Key} (h : k.Like A l) : A.alike k.span l.span := by
  cases h with
  | member h => exact h.span
  | index h => exact h.span

theorem Block.Like.span {b c : Block} (h : b.Like A c) : A.alike b.span c.span := by
  cases h with
  | mk _ h => exact h

theorem Block.Like.statements {b c : Block} (h : b.Like A c) :
    List.Forall₂ (Stmt.Like A) b.statements c.statements := by
  cases h with
  | mk h _ => exact h

/-- And those of statements. -/
theorem Stmt.Like.span {s t : Stmt} (h : s.Like A t) : A.alike s.span t.span := by
  cases h with
  | assign _ _ _ h | store _ _ _ h | branch _ _ _ h | declare _ _ _ h | give _ h | box _ h
  | expr _ h => exact h

end HotkeyScript
