import HotkeyScript.OrderedMap
/-!
# Maps after a change

A change of a map changes the entry with its key, in its place, or puts one at the end
where there is none (`OrderedMap.altered_alterEntries`). So the entry at a key is the
one that was changed, under the key it was first put under, or is as it was
(`OrderedMap.entry?_alter`). After any number of changes of an empty map the keys stand
in the order in which they were first met, and the value at each is what the changes
with that key made of it, one after another (`OrderedMap.Records`).
-/

namespace HotkeyScript

namespace OrderedMap

variable {κ α : Type} [BEq κ]

/-- **What a change does to entries**: it changes the one with its key in its place, or
there is none, and it puts one at the end. -/
inductive Altered (k : κ) (f : Option α → α) : List (κ × α) → List (κ × α) → Prop where
  | changed (before : List (κ × α)) (e : κ × α) (after : List (κ × α)) :
      (∀ d ∈ before, (d.1 == k) = false) → (e.1 == k) = true →
      Altered k f (before ++ e :: after) (before ++ (e.1, f (some e.2)) :: after)
  | added (es : List (κ × α)) :
      (∀ d ∈ es, (d.1 == k) = false) → Altered k f es (es ++ [(k, f none)])

theorem altered_alterEntries (k : κ) (f : Option α → α) (es : List (κ × α)) :
    Altered k f es (alterEntries k f es) := by
  induction es with
  | nil => exact .added [] fun _ hd => absurd hd List.not_mem_nil
  | cons e es ih =>
    rw [alterEntries]
    by_cases he : (e.1 == k) = true
    · rw [if_pos he]
      exact .changed [] e es (fun _ hd => absurd hd List.not_mem_nil) he
    · rw [if_neg he]
      have hfirst : (e.1 == k) = false := Bool.eq_false_iff.2 he
      generalize alterEntries k f es = es' at ih ⊢
      cases ih with
      | changed before d after hbefore hd =>
        exact .changed (e :: before) d after (List.forall_mem_cons.2 ⟨hfirst, hbefore⟩) hd
      | added _ hes => exact .added (e :: es) (List.forall_mem_cons.2 ⟨hfirst, hes⟩)

variable [PartialEquivBEq κ]

/-- An entry after a change: the one that was changed, under the key it was
first put under, or another one, as it was. -/
theorem find?_alterEntries (k k' : κ) (f : Option α → α) (es : List (κ × α)) :
    (alterEntries k f es).find? (fun e => e.1 == k') =
      if k == k' then
        let old := es.find? fun e => e.1 == k
        some ((old.map Prod.fst).getD k, f (old.map Prod.snd))
      else es.find? fun e => e.1 == k' := by
  induction es with
  | nil =>
    by_cases hk : k == k'
    · simp [alterEntries, hk]
    · simp [alterEntries, hk]
  | cons e es ih =>
    unfold alterEntries
    by_cases he : e.1 == k
    · rw [if_pos he]
      by_cases hk : k == k'
      · have he' : e.1 == k' := BEq.trans he hk
        simp [he, he', hk]
      · have he' : (e.1 == k') = false :=
          Bool.eq_false_iff.2 fun h => hk (BEq.trans (BEq.symm he) h)
        simp [he', hk]
    · rw [if_neg he, List.find?_cons, ih]
      by_cases hk : k == k'
      · have he' : (e.1 == k') = false :=
          Bool.eq_false_iff.2 fun h => he (BEq.trans h (BEq.symm hk))
        simp [he, he', hk]
      · simp [hk, List.find?_cons]

theorem entry?_alter (m : OrderedMap κ α) (k k' : κ) (f : Option α → α) :
    entry? (m.alter k f) k' =
      if k == k' then
        some (((m.entry? k).map Prod.fst).getD k, f ((m.entry? k).map Prod.snd))
      else m.entry? k' :=
  find?_alterEntries k k' f m.entries

/-! ## Many changes -/

/-- A key that is met again behind others has no new place. -/
theorem eraseDups_concat (ks : List κ) (k : κ) :
    (ks ++ [k]).eraseDups =
      if ks.any (fun j => j == k) then ks.eraseDups else ks.eraseDups ++ [k] := by
  induction hn : ks.length using Nat.strongRecOn generalizing ks with
  | ind n ih =>
    cases ks with
    | nil => rfl
    | cons a as =>
      rw [List.cons_append, List.eraseDups_cons, List.eraseDups_cons, List.filter_append]
      by_cases hka : (k == a) = true
      · have hak : (a == k) = true := BEq.symm hka
        simp [hka, hak]
      · have hak : (a == k) = false := Bool.eq_false_iff.2 fun h => hka (BEq.symm h)
        have hlength : (as.filter fun b => !b == a).length < n := by
          have hle := List.length_filter_le (fun b => !b == a) as
          rw [List.length_cons] at hn
          omega
        have hany : (as.filter fun b => !b == a).any (fun j => j == k) =
            (a :: as).any (fun j => j == k) := by
          rw [List.any_cons, hak, Bool.false_or, List.any_filter]
          refine List.any_congr rfl fun j => ?_
          by_cases hjk : (j == k) = true
          · have hja : (j == a) = false :=
              Bool.eq_false_iff.2 fun h => hka (BEq.trans (BEq.symm hjk) h)
            rw [hja, hjk]
            rfl
          · rw [Bool.eq_false_iff.2 hjk, Bool.and_false]
        have hk : ([k].filter fun b => !b == a) = [k] := by simp [hka]
        rw [hk, ih _ hlength _ rfl, hany]
        split <;> rfl

/-- What changes have made of the value at a key, one after another. -/
def outcome (changes : List (κ × (Option α → α))) (k : κ) : Option α :=
  (changes.filter fun c => c.1 == k).foldl (fun old c => some (c.2 old)) none

/-- **Entries that are what some changes made of none**: each key that was met has a
place, in the order in which it was first met, and the value that the changes with it
have made. -/
structure Records (es : List (κ × α)) (changes : List (κ × (Option α → α))) : Prop where
  keys : es.map Prod.fst = (changes.map Prod.fst).eraseDups
  find : ∀ k, (es.find? fun e => e.1 == k).map Prod.snd = outcome changes k

theorem outcome_concat (changes : List (κ × (Option α → α))) (k k' : κ) (f : Option α → α) :
    outcome (changes ++ [(k, f)]) k' =
      if k == k' then some (f (outcome changes k)) else outcome changes k' := by
  unfold outcome
  rw [List.filter_append, List.foldl_append]
  by_cases hk : (k == k') = true
  · have hfilter : (changes.filter fun c => c.1 == k') = changes.filter fun c => c.1 == k := by
      refine List.filter_congr fun c _ => ?_
      exact Bool.eq_iff_iff.2 ⟨fun h => BEq.trans h (BEq.symm hk), fun h => BEq.trans h hk⟩
    rw [hfilter, if_pos hk]
    simp [hk]
  · rw [if_neg hk]
    simp [hk]

omit [PartialEquivBEq κ] in
/-- A key has a value when a change with it was made. -/
theorem isSome_outcome (changes : List (κ × (Option α → α))) (k : κ) :
    (outcome changes k).isSome = changes.any fun c => c.1 == k := by
  have hfrom (old : Option α) :
      ((changes.filter fun c => c.1 == k).foldl (fun old c => some (c.2 old)) old).isSome =
        (old.isSome || changes.any fun c => c.1 == k) := by
    induction changes generalizing old with
    | nil => rw [List.any_nil, Bool.or_false]; rfl
    | cons c cs ih =>
      rw [List.filter_cons, List.any_cons]
      by_cases hc : (c.1 == k) = true
      · rw [if_pos hc, List.foldl_cons, ih, hc]
        simp
      · rw [if_neg hc, ih, Bool.eq_false_iff.2 hc, Bool.false_or]
  exact (hfrom none).trans (Bool.false_or _)

/-- **One change more.** -/
theorem Records.alterEntries {es : List (κ × α)} {changes : List (κ × (Option α → α))}
    (h : Records es changes) (k : κ) (f : Option α → α) :
    Records (alterEntries k f es) (changes ++ [(k, f)]) := by
  have hany : es.any (fun e => e.1 == k) = (changes.map Prod.fst).any fun j => j == k := by
    rw [List.any_map, ← List.isSome_find?, ← Option.isSome_map, h.find, isSome_outcome]
    rfl
  constructor
  · rw [keys_alterEntries, List.map_append, List.map_singleton, eraseDups_concat, h.keys, hany]
  · intro k'
    rw [find?_alterEntries, outcome_concat, ← h.find, ← h.find]
    split <;> rfl

omit [PartialEquivBEq κ] in
theorem records_nil : Records ([] : List (κ × α)) [] := ⟨rfl, fun _ => rfl⟩

/-! ## Many insertions -/

/-- A map into which some entries were inserted, one after another. -/
def insertAll (m : OrderedMap κ α) (puts : List (κ × α)) : OrderedMap κ α :=
  puts.foldl (fun m p => m.insert p.1 p.2) m

/-- The value that was inserted last at a key. -/
def lastAt (puts : List (κ × α)) (k : κ) : Option α :=
  ((puts.filter fun p => p.1 == k).getLast?).map Prod.snd

/-- The changes that insertions are. -/
def changesOf (puts : List (κ × α)) : List (κ × (Option α → α)) :=
  puts.map fun p => (p.1, fun _ => p.2)

omit [PartialEquivBEq κ] in
/-- Of insertions the last one counts. -/
theorem outcome_changesOf (puts : List (κ × α)) (k : κ) :
    outcome (changesOf puts) k = lastAt puts k := by
  have hlast (old : Option α) (ps : List (κ × α)) :
      (ps.map fun p => (p.1, fun _ => p.2)).foldl
          (fun old (c : κ × (Option α → α)) => some (c.2 old)) old =
        (ps.getLast?.map Prod.snd).or old := by
    induction ps generalizing old with
    | nil => rfl
    | cons p ps ih =>
      rw [List.map_cons, List.foldl_cons, ih, List.getLast?_cons]
      cases ps.getLast? <;> rfl
  rw [outcome, changesOf, List.filter_map, hlast, Option.or_none]
  rfl

theorem records_insertAll {m : OrderedMap κ α} {changes : List (κ × (Option α → α))}
    (h : Records m.entries changes) (puts : List (κ × α)) :
    Records (m.insertAll puts).entries (changes ++ changesOf puts) := by
  induction puts generalizing m changes with
  | nil => rwa [changesOf, List.map_nil, List.append_nil]
  | cons p puts ih =>
    have hone := ih (m := m.insert p.1 p.2) (h.alterEntries p.1 fun _ => p.2)
    rwa [List.append_assoc] at hone

/-- **A map into which entries were inserted**, where there was none before: its keys in
the order in which they were first inserted, and at each the value that was inserted
last. -/
theorem insertAll_of_entries_eq_nil {m : OrderedMap κ α} (hm : m.entries = []) (puts : List (κ × α)) :
    (m.insertAll puts).keys = (puts.map Prod.fst).eraseDups ∧
      ∀ k, (m.insertAll puts).get? k = lastAt puts k := by
  have h := records_insertAll (m := m) (hm.symm ▸ records_nil) puts
  rw [List.nil_append] at h
  refine ⟨?_, fun k => (h.find k).trans (outcome_changesOf puts k)⟩
  rw [keys, h.keys, changesOf, List.map_map]
  rfl

omit [PartialEquivBEq κ] in
/-- An entry is the one at its key. -/
theorem entry?_of_mem [EquivBEq κ] {m : OrderedMap κ α} {e : κ × α} (he : e ∈ m.entries) :
    m.entry? e.1 = some e := by
  obtain ⟨before, after, hm⟩ := List.append_of_mem he
  have hdistinct := m.distinct
  rw [hm, List.map_append, List.map_cons] at hdistinct
  have hbefore : ∀ d ∈ before, ¬ (d.1 == e.1) = true := by
    intro d hd
    have hne := (List.pairwise_append.1 hdistinct).2.2 d.1 (List.mem_map_of_mem hd) e.1
      List.mem_cons_self
    exact Bool.eq_false_iff.1 hne
  have hself : (e.1 == e.1) = true := BEq.rfl
  unfold entry?
  rw [hm, List.find?_append, List.find?_eq_none.2 hbefore, Option.none_or, List.find?_cons,
    hself]

omit [PartialEquivBEq κ] in
/-- The value of an entry is the value at its key. -/
theorem get?_of_mem [EquivBEq κ] {m : OrderedMap κ α} {e : κ × α} (he : e ∈ m.entries) :
    m.get? e.1 = some e.2 :=
  congrArg (Option.map Prod.snd) (entry?_of_mem he)

/-! ## Two maps

Keys that are pairwise different have different partners in another map. So a map that
has the keys of another is at least as large, and if it is no larger it has no others. -/

/-- Keys that are equal have one entry. -/
theorem entry?_congr (m : OrderedMap κ α) {j k : κ} (h : (j == k) = true) :
    m.entry? j = m.entry? k := by
  unfold entry?
  refine congrArg (fun p => m.entries.find? p) (funext fun e => ?_)
  exact Bool.eq_iff_iff.2 ⟨fun he => BEq.trans he h, fun he => BEq.trans he (BEq.symm h)⟩

/-- And one value. -/
theorem get?_congr (m : OrderedMap κ α) {j k : κ} (h : (j == k) = true) : m.get? j = m.get? k :=
  congrArg (Option.map Prod.snd) (m.entry?_congr h)

omit [PartialEquivBEq κ] in
/-- The value at a key is that of the entry whose key is equal to it. -/
theorem get?_eq_some_iff [EquivBEq κ] {m : OrderedMap κ α} {k : κ} {v : α} :
    m.get? k = some v ↔ ∃ e ∈ m.entries, (e.1 == k) = true ∧ e.2 = v := by
  constructor
  · intro h
    obtain ⟨e, he, hv⟩ := Option.map_eq_some_iff.1 h
    exact ⟨e, List.mem_of_find?_eq_some he, (List.find?_eq_some_iff_append.1 he).1, hv⟩
  · rintro ⟨e, he, hk, rfl⟩
    exact (m.get?_congr hk).symm.trans (get?_of_mem he)

omit [PartialEquivBEq κ] in
theorem contains_iff {m : OrderedMap κ α} {k : κ} :
    m.contains k = true ↔ ∃ e ∈ m.entries, (e.1 == k) = true :=
  List.find?_isSome

omit [PartialEquivBEq κ] in
theorem contains_of_mem [EquivBEq κ] {m : OrderedMap κ α} {e : κ × α} (he : e ∈ m.entries) :
    m.contains e.1 = true :=
  contains_iff.2 ⟨e, he, BEq.rfl⟩

omit [PartialEquivBEq κ] in
theorem isSome_get? (m : OrderedMap κ α) (k : κ) : (m.get? k).isSome = m.contains k :=
  Option.isSome_map

/-- Different keys have different partners. -/
theorem length_le_of_forall_exists_beq {ks ls : List κ}
    (hks : ks.Pairwise fun a b => (a == b) = false) (h : ∀ k ∈ ks, ∃ l ∈ ls, (l == k) = true) :
    ks.length ≤ ls.length := by
  induction ks generalizing ls with
  | nil => exact Nat.zero_le _
  | cons k ks ih =>
    obtain ⟨hk, hks⟩ := List.pairwise_cons.1 hks
    obtain ⟨l, hl, hlk⟩ := h k List.mem_cons_self
    obtain ⟨before, after, rfl⟩ := List.append_of_mem hl
    have hrest : ∀ j ∈ ks, ∃ m ∈ before ++ after, (m == j) = true := by
      intro j hj
      obtain ⟨m, hm, hmj⟩ := h j (List.mem_cons_of_mem k hj)
      obtain hm | rfl | hm : m ∈ before ∨ m = l ∨ m ∈ after := by simpa using hm
      · exact ⟨m, List.mem_append_left _ hm, hmj⟩
      · -- the partner of `k` is not the partner of another key
        have hkj : (k == j) = true := BEq.trans (BEq.symm hlk) hmj
        rw [hk j hj] at hkj
        cases hkj
      · exact ⟨m, List.mem_append_right _ hm, hmj⟩
    have hlength := ih hks hrest
    rw [List.length_append] at hlength
    rw [List.length_append, List.length_cons, List.length_cons]
    omega

/-- Where there are no more of them, each is a partner. -/
theorem exists_beq_of_length_le {ks ls : List κ}
    (hks : ks.Pairwise fun a b => (a == b) = false) (h : ∀ k ∈ ks, ∃ l ∈ ls, (l == k) = true)
    (hlength : ls.length ≤ ks.length) {l : κ} (hl : l ∈ ls) : ∃ k ∈ ks, (l == k) = true := by
  refine Classical.byContradiction fun hnone => ?_
  obtain ⟨before, after, rfl⟩ := List.append_of_mem hl
  have hrest : ∀ k ∈ ks, ∃ m ∈ before ++ after, (m == k) = true := by
    intro k hk
    obtain ⟨m, hm, hmk⟩ := h k hk
    obtain hm | rfl | hm : m ∈ before ∨ m = l ∨ m ∈ after := by simpa using hm
    · exact ⟨m, List.mem_append_left _ hm, hmk⟩
    · exact (hnone ⟨k, hk, hmk⟩).elim
    · exact ⟨m, List.mem_append_right _ hm, hmk⟩
  have hle := length_le_of_forall_exists_beq hks hrest
  rw [List.length_append] at hle
  rw [List.length_append, List.length_cons] at hlength
  omega

variable {m n : OrderedMap κ α}

omit [PartialEquivBEq κ] in
/-- The keys of a map that has those of another. -/
theorem exists_key_of_contains (h : ∀ e ∈ m.entries, n.contains e.1 = true) :
    ∀ k ∈ m.keys, ∃ l ∈ n.keys, (l == k) = true := by
  intro k hk
  obtain ⟨e, he, rfl⟩ := List.mem_map.1 hk
  obtain ⟨d, hd, hde⟩ := contains_iff.1 (h e he)
  exact ⟨d.1, List.mem_map_of_mem hd, hde⟩

/-- **A map that has the keys of another** is at least as large. -/
theorem size_le_of_contains (h : ∀ e ∈ m.entries, n.contains e.1 = true) : m.size ≤ n.size := by
  have hle := length_le_of_forall_exists_beq m.distinct (exists_key_of_contains h)
  rwa [keys, List.length_map, List.length_map] at hle

/-- **If it is no larger, it has no others.** -/
theorem contains_of_size_le (h : ∀ e ∈ m.entries, n.contains e.1 = true)
    (hsize : n.size ≤ m.size) {k : κ} (hk : n.contains k = true) : m.contains k = true := by
  obtain ⟨d, hd, hdk⟩ := contains_iff.1 hk
  have hlength : n.keys.length ≤ m.keys.length := by
    rwa [keys, keys, List.length_map, List.length_map]
  obtain ⟨j, hj, hdj⟩ := exists_beq_of_length_le m.distinct (exists_key_of_contains h) hlength
    (List.mem_map_of_mem hd)
  obtain ⟨e, he, rfl⟩ := List.mem_map.1 hj
  exact contains_iff.2 ⟨e, he, BEq.trans (BEq.symm hdj) hdk⟩

end OrderedMap

end HotkeyScript
