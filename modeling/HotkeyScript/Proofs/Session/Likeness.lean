import HotkeyScript.Proofs.Machine.Agreement
import HotkeyScript.Proofs.Program.Agreement
import HotkeyScript.Proofs.Token.Lines
/-!
# Sessions — like sources are run alike

Two sources are read alike along an alignment when they have the same lines and
tokens that are alike. Then they make up like programs or are refused for the
same reason on the same line, and what a session makes of the one it makes of the
other (`Session.Like.execute`).
-/

namespace HotkeyScript

/-- The same lexical fault, on one line. -/
structure LexicalError.Like (e f : LexicalError) : Prop where
  fault : f.fault = e.fault
  line : f.span.start.line = e.span.start.line

variable (A : Alignment)

/-- **Sources that are read alike.** -/
structure Source.ReadAlike (s t : Source) : Prop extends s.Like t where
  tokenized : Alike LexicalError.Like (TokensLike A) (tokenize s.text) (tokenize t.text)

/-- Sessions under one name, on machines that are alike. -/
structure Session.Like (s t : Session) : Prop where
  name : t.name = s.name
  machine : s.machine.Like A t.machine

variable {A}

namespace Source.ReadAlike

variable {s t : Source}

theorem tokens (h : s.ReadAlike A t) :
    Alike Error.Like (fun ts us => TokensLike A ts us ∧ ts ≠ []) s.tokens t.tokens := by
  have ht := h.tokenized
  unfold Source.tokens
  generalize hx : tokenize s.text = r, tokenize t.text = r' at ht
  cases ht with
  | @ok ts us ht =>
    obtain ⟨sof, rest, rfl, -⟩ := exists_fileStart_of_tokenize hx
    exact .ok ⟨ht, List.cons_ne_nil sof rest⟩
  | @error e f he =>
    refine .error ⟨?_, ?_⟩
    · simp only [Error.ofLexical, Error.beforeRun, he.fault]
    · simp only [Error.ofLexical, Error.beforeRun, Frame.at_like h.toLike _ he.line]

theorem programOf [A.KeepsLines] (h : s.ReadAlike A t) {ts us : List Token}
    (hts : TokensLike A ts us) (hn : ts ≠ []) :
    Alike Error.Like (Program.Like A) (s.programOf ts) (t.programOf us) := by
  have hp := Program.like_ofTokens hts hn
  unfold Source.programOf
  generalize Program.ofTokens ts = r, Program.ofTokens us = r' at hp
  cases hp with
  | ok hp => exact .ok hp
  | @error e f he =>
    refine .error ⟨?_, ?_⟩
    · simp only [Error.ofGrammar, Error.beforeRun, he.mistake, he.atLineEnd]
    · have hline := Alignment.KeepsLines.line he.span
      simp only [Error.ofGrammar, Error.beforeRun, Frame.at_like h.toLike _ hline]

theorem program [A.KeepsLines] (h : s.ReadAlike A t) :
    Alike Error.Like (Program.Like A) s.program t.program :=
  .bind h.tokens fun _ _ hts => h.programOf hts.1 hts.2

/-- And watchers are told of them alike. -/
theorem events [A.KeepsLines] (h : s.ReadAlike A t) : t.events = s.events := by
  have ht := h.tokens
  unfold Source.events
  generalize s.tokens = r, t.tokens = r' at ht
  cases ht with
  | error => rfl
  | @ok ts us hts =>
    have hp := h.programOf hts.1 hts.2
    simp only
    generalize s.programOf ts = r, t.programOf us = r' at hp
    cases hp with
    | error => simp only [h.name, hts.1.length_eq]
    | ok hp => simp only [h.name, hts.1.length_eq, hp.length_eq]

end Source.ReadAlike

namespace Session

variable {s t : Session}

/-- Sessions at their start are alike. -/
theorem like_start (name : String) (settings : Settings) (accepts : Request → Bool) :
    (start name settings accepts).Like A (start name settings accepts) :=
  ⟨rfl, rfl, rfl, ⟨⟨rfl, .refl _, rfl⟩, .nil⟩, ⟨rfl, rfl, .nil⟩, rfl, rfl, rfl⟩

theorem Like.told (h : s.Like A t) (events : Array Event) :
    (s.told events).Like A (t.told events) :=
  ⟨h.name, { h.machine with journal := congrArg (· ++ events) h.machine.journal }⟩

theorem Like.ready [A.KeepsLines] (h : s.Like A t) {text text' : String}
    (hr : Source.ReadAlike A ⟨s.name, text⟩ ⟨t.name, text'⟩) :
    (s.ready text).Like A (t.ready text') := by
  have hm := (h.told (⟨s.name, text⟩ : Source).events).machine
  change ((s.told _).withScript _).Like A ((t.told (⟨t.name, text'⟩ : Source).events).withScript _)
  rw [hr.events]
  exact ⟨h.name, { hm with
    stack := ⟨⟨hm.stack.module.name, hr.toLike, hm.stack.module.symbols⟩, hm.stack.calls⟩ }⟩

/-- **What a session makes of a text it makes of a text that is read alike**: the
same is shown and reported, and it goes on alike. -/
theorem Like.execute [A.KeepsLines] (h : s.Like A t) {text text' : String}
    (hr : Source.ReadAlike A ⟨s.name, text⟩ ⟨t.name, text'⟩) :
    (s.execute text).1.Like (t.execute text').1 ∧
      (s.execute text).2.Like A (t.execute text').2 := by
  have hp := hr.program
  generalize hx : (⟨s.name, text⟩ : Source).program = r,
    hy : (⟨t.name, text'⟩ : Source).program = r' at hp
  cases hp with
  | error he =>
    rw [execute_of_error hx, execute_of_error hy, hr.events]
    exact ⟨⟨rfl, .some he⟩, h.told _⟩
  | ok hp =>
    rw [execute_of_ok hx, execute_of_ok hy]
    obtain ⟨hl, hm⟩ := executeFrom_like hp (h.ready hr).machine
    exact ⟨hl, h.name, hm⟩

end Session

end HotkeyScript
