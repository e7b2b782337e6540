import HotkeyScript.Proofs.Program.Objections
import HotkeyScript.Proofs.Provenance
import HotkeyScript.Proofs.Terminal.Report
/-!
# What painting without colours makes of a report

The report of an error that a session comes to has only two texts in it that may break with
a carriage return: the session's name and a value that could not be used
(`Session.tidyFor_of_failure?`). So painting it without colours leaves the report as it is
just if neither does, and otherwise takes the carriage returns out of these breaks
(`paintReport_failure`).
-/

namespace HotkeyScript

open Text

/-! ## Errors of scripts with a name -/

/-- What a report shows besides a name of scripts and a value has no break with a carriage
return. -/
structure Error.TidyFor (name : String) (e : Error) : Prop extends e.Tidy where
  nonempty : e.frames ≠ []
  script : ∀ f ∈ e.frames, f.script = name

namespace Error

variable {name : String} {e : Error}

theorem TidyFor.hasReturnBreak_report_iff (h : e.TidyFor name) :
    HasReturnBreak e.report.toList ↔
      HasReturnBreak name.toList ∨ ∃ shown ∈ e.cause.shown?, HasReturnBreak shown.toList := by
  rw [h.hasReturnBreak_report]
  refine or_congr_left ⟨fun ⟨f, hf, hb⟩ => h.script f hf ▸ hb, fun hb => ?_⟩
  obtain ⟨f, hf⟩ := List.exists_mem_of_ne_nil _ h.nonempty
  exact ⟨f, hf, (h.script f hf).symm ▸ hb⟩

theorem tidyFor_beforeRun (source : Source) {cause : Cause} (span : Span)
    (h : ∀ word ∈ cause.word?, ReturnFree word) :
    (beforeRun source cause span).TidyFor source.name where
  frames := List.forall_mem_singleton.2 (Frame.tidy_at source (by decide) _)
  word := h
  nonempty := List.cons_ne_nil _ _
  script := List.forall_mem_singleton.2 rfl

end Error

/-- A text that cannot be read has a tidy report: a number that is out of range is one of its
tokens. -/
theorem Source.tidyFor_of_program {source : Source} {e : Error}
    (h : source.program = .error e) : e.TidyFor source.name := by
  obtain ⟨fault, -, rfl⟩ | ⟨tokens, mistake, ht, hp, rfl⟩ := source.program_eq_error h
  · exact Error.tidyFor_beforeRun source _ nofun
  · refine Error.tidyFor_beforeRun source _ fun word hword => ?_
    have hne : tokens ≠ [] := by
      obtain ⟨sof, mid, eof, rfl, -⟩ := exists_ends_of_tokenize ht
      exact List.cons_ne_nil _ _
    obtain ⟨t, htokens, -, -, hnumber⟩ := Program.objects_ofTokens hne hp
    cases hm : mistake.mistake with
    | numberRange lexeme =>
      obtain ⟨hkind, rfl⟩ := hnumber lexeme hm
      rw [hm] at hword
      cases hword
      exact (numberText_of_tokenize ht t htokens hkind).return_notMem
    | _ =>
      rw [hm] at hword
      cases hword

/-! ## Errors at run time -/

theorem Entered.frames_ne_nil (script : Source) (p : Position) (es : List Entered) :
    frames script p es ≠ [] := by
  cases es <;> exact List.cons_ne_nil _ _

/-- What holds of the frames of the module and of each call holds of all frames. -/
theorem Entered.forall_mem_frames {script : Source} {P : Frame → Prop} {es : List Entered}
    (hmodule : ∀ q, P (.at script moduleName q))
    (hes : ∀ e ∈ es, ∀ q, P (.at e.function.source e.function.name q)) (p : Position) :
    ∀ f ∈ frames script p es, P f := by
  induction es generalizing p with
  | nil => exact List.forall_mem_singleton.2 (hmodule p)
  | cons e es ih =>
    obtain ⟨he, hes⟩ := List.forall_mem_cons.1 hes
    exact List.forall_mem_cons.2 ⟨he p, ih hes e.site.start⟩

namespace Session

variable {before ops : List Operation} {op : Operation} {script : Source}

/-- What a session declares has words for names. -/
theorem allMake_worded (s : Session) (ops : List Operation) : s.AllMake ops Function.Worded := by
  intro before op after script root program _ _ hp
  have hnames : Worded (Stmt.leavesOf program.statements) := Program.worded hp
  exact root.makes_worded fun d hd =>
    Stmt.worded_of_mem_declarationsOf program.statements d hd hnames

theorem Starts.worded {s : Session} {root : Point} (h : s.Starts before op script root) :
    root.plan.Worded := by
  obtain @⟨program, stmt, m, -, -, hp, hpass⟩ := h
  exact (Program.worded hp).mono (Stmt.leaves_subset hpass.mem)

variable {name : String} {settings : Settings} {accepts : Request → Bool} {e : Error}

theorem Starts.name_script {s : Session} {root : Point} (h : s.Starts before op script root) :
    script.name = s.name := by
  cases h with
  | mk _ hname => exact hname.symm

section

variable {root b : Point} (hr : (start name settings accepts).Starts before op script root)
  (hb : root.ComesTo b) (he : b.Raises e)

include hr

/-- A session starts from points where every function has words for names. -/
theorem Starts.exists_lawful_worded : ∃ module, root.Makes module Function.Worded ∧
    root.Lawful module Function.Worded root := by
  have hmake := allMake_worded (start name settings accepts) (before ++ [op])
  obtain ⟨program, hp, hl⟩ := hr.lawful (hr.functions hmake rfl rfl)
  exact ⟨_, hmake before op [] script root program rfl hr hp, hl⟩

include hb he

/-- The frame of a call is tidy: its function was declared under a word, in a script of the
session. -/
theorem Starts.tidy_of_live : ∀ entered ∈ b.live, ∀ q,
    (Frame.at entered.function.source entered.function.name q).Tidy ∧
      entered.function.source.name = name := by
  intro entered hmem q
  obtain ⟨module, hmakes, hl⟩ := hr.exists_lawful_worded
  have hworded : entered.function.Worded := (hl.comesTo hmakes hb).live entered hmem
  have hops : before ++ [op] = before ++ op :: [] := rfl
  obtain ⟨origin, hd⟩ := hr.exists_declared hops (hr.known hops rfl) hb he entered hmem
  exact ⟨Frame.tidy_at _ hworded.name.return_notMem q,
    (congrArg Source.name hd.source_eq).trans hd.run.1⟩

/-- **An error that is raised in a run has a tidy report.** -/
theorem Starts.tidyFor : e.TidyFor name := by
  have hframes : e.frames = (Entered.frames script e.span.start b.live).reverse :=
    (hb.sound hr.sound).frames_of_raises he
  have hall : ∀ f ∈ e.frames, f.Tidy ∧ f.script = name := by
    intro f hf
    rw [hframes, List.mem_reverse] at hf
    exact Entered.forall_mem_frames (P := fun f => f.Tidy ∧ f.script = name)
      (fun q => ⟨Frame.tidy_at script (by decide) q, hr.name_script⟩)
      (hr.tidy_of_live hb he) e.span.start f hf
  -- the name that its fault mentions stands in the code that runs
  obtain ⟨module, hmakes, hl⟩ := hr.exists_lawful_worded
  obtain ⟨fault, hfault, hword⟩ := he.exists_worded (hb.worded hmakes hl hr.worded)
  refine ⟨⟨fun f hf => (hall f hf).1, ?_⟩, ?_, fun f hf => (hall f hf).2⟩
  · rw [hfault]
    exact fun word hmem => (hword word hmem).return_notMem
  · rw [hframes, ne_eq, List.reverse_eq_nil_iff]
    exact Entered.frames_ne_nil script e.span.start b.live

end

/-- **Every error of a session has a tidy report.** -/
theorem tidyFor_of_failure?
    (h : ((start name settings accepts).performAll ops).failure? op = some e) :
    e.TidyFor name := by
  obtain ⟨script, -, rfl, hp | ⟨b, ⟨root, hr, hb⟩, he⟩⟩ := failure_cases h
  · exact script.tidyFor_of_program hp
  · exact hr.tidyFor hb he

end Session

/-! ## Painting -/

/-- **What painting without colours makes of the report of an error.** Each break with a
carriage return becomes a line feed; and the report stays as it is just if there is no such
break in the session's name nor in the value that the report shows. -/
theorem paintReport_failure (name : String) (settings : Settings) (accepts : Request → Bool)
    (ops : List Session.Operation) :
    let s := Session.start name settings accepts
    ∀ op e, (s.performAll ops).failure? op = some e →
      paintReport false e.report = String.ofList (plainBreaks e.report.toList) ∧
      (paintReport false e.report = e.report ↔ ¬ HasReturnBreak name.toList ∧
        ∀ shown ∈ e.cause.shown?, ¬ HasReturnBreak shown.toList) := by
  intro s op e hf
  have htidy : e.TidyFor name := Session.tidyFor_of_failure? hf
  have hlast : ∀ c ∈ e.report.toList.getLast?, c = '\n' := by
    rw [e.getLast?_report]
    exact fun c hc => (Option.some.inj hc).symm
  constructor
  · rw [← String.toList_inj, toList_paintReport hlast, String.toList_ofList]
  · rw [paintReport_eq_self_iff hlast, htidy.hasReturnBreak_report_iff, not_or]
    simp only [not_exists, not_and]

/-- A key with a plain line feed is shown as it is. -/
theorem paintReport_failure_lineFeed :
    let s := Session.start "script.ahk" {} fun _ => true
    let op := .execute "\x7b\x7d[\"a\x60nb\"]"
    ∃ e, (s.performAll []).failure? op = some e ∧ e.cause = .runtime (.keyNotFound "a\nb") ∧
      paintReport false e.report = e.report := by
  intro s op
  have hb : ((s.performAll []).failure? op).any
      (fun e => e.cause == .runtime (.keyNotFound "a\nb")) = true := by decide +kernel
  obtain ⟨e, hf, he⟩ := (Option.any_eq_true _ _).1 hb
  have he : e.cause = .runtime (.keyNotFound "a\nb") := eq_of_beq he
  have hpainted := paintReport_failure "script.ahk" {} (fun _ => true) [] op e hf
  refine ⟨e, hf, he, hpainted.2.2 ⟨by decide +kernel, fun shown hshown => ?_⟩⟩
  rw [he] at hshown
  cases hshown
  decide +kernel

/-- A key with a carriage return and a line feed is shown without the carriage return. -/
theorem paintReport_failure_ne_returnBreak :
    let s := Session.start "script.ahk" {} fun _ => true
    ∃ e, (s.performAll []).failure? (.execute "\x7b\x7d[\"a\x60r\x60nb\"]") = some e ∧
      e.cause = .runtime (.keyNotFound "a\r\nb") ∧ paintReport false e.report ≠ e.report := by
  intro s
  have hb : ((s.performAll []).failure? (.execute "\x7b\x7d[\"a\x60r\x60nb\"]")).any (fun e =>
      e.cause == .runtime (.keyNotFound "a\r\nb") &&
        paintReport false e.report != e.report) = true := by decide +kernel
  obtain ⟨e, hf, he⟩ := (Option.any_eq_true _ _).1 hb
  obtain ⟨he, hne⟩ := Bool.and_eq_true_iff.1 he
  exact ⟨e, hf, eq_of_beq he, bne_iff_ne.1 hne⟩

end HotkeyScript
