import HotkeyScript.Proofs.Plan.Level
/-!
# Plans — the machines that a run goes through

`Plan.Ends` says what carrying out a plan comes to. `Plan.Trail` says as well which
machines it goes through on the way, one behind every action and every call that is
entered or left, in the order of time. The two agree (`Plan.ends_iff_exists_trail`), and
what every action keeps of the heap is kept from each machine of a trail to every later
one (`Plan.Trail.path`).
-/

namespace HotkeyScript

/-! ## Paths -/

/-- Machines one after another, from a first to a last, where each one's heap is in a
relation to the next one's. -/
inductive Machine.Path (R : Heap → Heap → Prop) : Machine → List Machine → Machine → Prop where
  | nil {m : Machine} : Path R m [] m
  | cons {m m' n : Machine} {ms : List Machine} :
      R m.heap m'.heap → Path R m' ms n → Path R m (m' :: ms) n

namespace Machine.Path

variable {R : Heap → Heap → Prop} {m m' n : Machine} {ms ms' : List Machine}

theorem single (h : R m.heap n.heap) : Path R m [n] n := .cons h .nil

theorem append (h : Path R m ms m') (h' : Path R m' ms' n) : Path R m (ms ++ ms') n := by
  induction h with
  | nil => exact h'
  | cons hr _ ih => exact .cons hr (ih h')

theorem last_mem (h : Path R m ms n) : n ∈ m :: ms := by
  induction h with
  | nil => exact List.mem_singleton_self _
  | cons _ _ ih => exact List.mem_cons_of_mem _ ih

/-- Each heap of a path is in the relation to every later one, if the relation goes on. -/
theorem pairwise (htrans : ∀ a b c, R a b → R b c → R a c) (h : Path R m ms n) :
    (m :: ms).Pairwise fun a b => R a.heap b.heap := by
  induction h with
  | nil => exact List.pairwise_singleton _ _
  | @cons m m' n ms hr _ ih =>
    refine List.pairwise_cons.2 ⟨fun k hk => ?_, ih⟩
    rcases List.mem_cons.1 hk with rfl | hk
    · exact hr
    · exact htrans _ _ _ hr ((List.pairwise_cons.1 ih).1 k hk)

end Machine.Path

/-! ## Trails of plans -/

/-- **How plans are carried out**: `p.Trail m ms r` says that carrying out `p` on `m` goes
through the machines `ms` and comes to `r`. The rules are those of `Plan.Ends`. -/
inductive Plan.Trail : {α : Type} → Plan α → Machine → List Machine → Result α → Prop where
  | done {α : Type} {a : α} {m : Machine} : Trail (.done a) m [] (.ok a m)
  | act {α : Type} {op : Op α} {m : Machine} :
      Trail (.act op) m [Result.machine (op.run m)] (op.run m)
  | job {α : Type} {j : Job α} {m : Machine} {ms : List Machine} {r : Result α} :
      Trail j.plan m ms r → Trail (.job j) m ms r
  | next {α β : Type} {first : Plan β} {next : β → Plan α} {m m' : Machine}
      {ms ms' : List Machine} {b : β} {r : Result α} :
      Trail first m ms (.ok b m') → Trail (next b) m' ms' r →
      Trail (.andThen first next) m (ms ++ ms') r
  | stop {α β : Type} {first : Plan β} {next : β → Plan α} {m m' : Machine}
      {ms : List Machine} {e : Error} :
      Trail first m ms (.error e m') → Trail (.andThen first next) m ms (.error e m')
  | refused {f : Function} {args : List Value} {site : Span} {m : Machine} :
      m.settings.maxCallDepth ≤ m.stack.depth →
      Trail (.call f args site) m [] (Machine.fail (.callDepth m.settings.maxCallDepth) site m)
  | returned {f : Function} {args : List Value} {site : Span} {m m' : Machine}
      {ms : List Machine} {ending : Ending (List Outcome)} :
      m.stack.depth < m.settings.maxCallDepth →
      Trail (.job (.block f.body)) (m.entered f args site.start) ms (.ok ending m') →
      Trail (.call f args site) m (m.entered f args site.start :: ms ++ [m'.left])
        (.ok ending.value m'.left)
  | failed {f : Function} {args : List Value} {site : Span} {m m' : Machine}
      {ms : List Machine} {e : Error} :
      m.stack.depth < m.settings.maxCallDepth →
      Trail (.job (.block f.body)) (m.entered f args site.start) ms (.error e m') →
      Trail (.call f args site) m (m.entered f args site.start :: ms) (.error e m')

namespace Plan

variable {α : Type} {p : Plan α} {m : Machine} {ms : List Machine} {r : Result α}

theorem Trail.ends (h : p.Trail m ms r) : p.Ends m r := by
  induction h with
  | done => exact .done
  | act => exact .act
  | job _ ih => exact .job ih
  | next _ _ ih ih' => exact .next ih ih'
  | stop _ ih => exact .stop ih
  | refused hd => exact .refused hd
  | returned hd _ ih => exact .returned hd ih
  | failed hd _ ih => exact .failed hd ih

theorem Ends.exists_trail (h : p.Ends m r) : ∃ ms, p.Trail m ms r := by
  induction h with
  | done => exact ⟨_, .done⟩
  | act => exact ⟨_, .act⟩
  | job _ ih =>
    obtain ⟨ms, h⟩ := ih
    exact ⟨ms, .job h⟩
  | next _ _ ih ih' =>
    obtain ⟨ms, h⟩ := ih
    obtain ⟨ms', h'⟩ := ih'
    exact ⟨ms ++ ms', .next h h'⟩
  | stop _ ih =>
    obtain ⟨ms, h⟩ := ih
    exact ⟨ms, .stop h⟩
  | refused hd => exact ⟨_, .refused hd⟩
  | returned hd _ ih =>
    obtain ⟨ms, h⟩ := ih
    exact ⟨_, .returned hd h⟩
  | failed hd _ ih =>
    obtain ⟨ms, h⟩ := ih
    exact ⟨_, .failed hd h⟩

/-- **A plan ends with what its trail comes to**, and with nothing else. -/
theorem ends_iff_exists_trail : p.Ends m r ↔ ∃ ms, p.Trail m ms r :=
  ⟨Ends.exists_trail, fun ⟨_, h⟩ => h.ends⟩

/-- **What every action keeps of the heap is kept along a trail**: entering and leaving
calls does not touch it. -/
theorem Trail.path {R : Heap → Heap → Prop} (hrefl : ∀ h, R h h)
    (hact : ∀ {β : Type} (op : Op β) (m : Machine), R m.heap (Result.machine (op.run m)).heap)
    (h : p.Trail m ms r) : Machine.Path R m ms (Result.machine r) := by
  induction h with
  | done => exact .nil
  | act => exact .single (hact _ _)
  | job _ ih => exact ih
  | next _ _ ih ih' => exact ih.append ih'
  | stop _ ih => exact ih
  | refused => exact .nil
  | @returned f args site m m' ms ending _ _ ih =>
    have hleft : Machine.Path R m' [m'.left] m'.left := .single (m'.heap_left ▸ hrefl m'.heap)
    exact .cons (hrefl m.heap) (ih.append hleft)
  | @failed f args site m m' ms e _ _ ih => exact .cons (hrefl m.heap) ih

end Plan

end HotkeyScript
