import AdaptiveRadix.Proofs.Node.Insertion
import AdaptiveRadix.Proofs.Node.Removal
import AdaptiveRadix.Proofs.Node.Search
import AdaptiveRadix.Proofs.Run
import AdaptiveRadix.Tree.Step

/-!
The operations of a tree act on its entries as those of a dictionary. They keep it sound and keep
every stable rule on how full its nodes are, and the only fault is a hit counter that is full.
-/

namespace AdaptiveRadix

namespace Dictionary

variable {V : Type}

def treeStep (d : Dictionary V) : Tree.Step V → Reply V × Dictionary V
  | .insert key value depth =>
    match key.advance depth with
    | .error e => (.error e, d)
    | .ok key => (d.upsert .refused key.rest value).map (.ofExcept fun _ => .done) id
  | .record key value depth =>
    match key.advance depth with
    | .error e => (.error e, d)
    | .ok key => (d.upsert .counted key.rest value).map (.ofExcept (.hits <| some ·)) id
  | .lookup key =>
    ((d.entry? key.rest).elim (.error .notFound) fun e => .value (some e.value), d)
  | .assign key value =>
    ((d.entry? key.rest).elim (.error .notFound) fun e => .value (some e.value),
      d.update key.rest fun e => { e with value })
  | .hits key =>
    ((d.entry? key.rest).elim (.error .notFound) fun e => .hits (some e.hits), d)
  | .delete key =>
    ((d.entry? key.rest).elim (.error .notFound) fun e => .value (some e.value),
      d.filter fun e => e.key ≠ key.rest)

def TreeStepFits (d : Dictionary V) : Tree.Step V → Prop
  | .record key _ depth => ∀ c, key.advance depth = .ok c → d.HitFits c.rest
  | _ => True

end Dictionary

namespace Tree

open Dictionary

variable {V : Type} {t : Tree V} {rule : Layout → Nat → Prop}

def Sound (t : Tree V) : Prop :=
  ∀ n ∈ t.root, n.Sound

def Filled (rule : Layout → Nat → Prop) (t : Tree V) : Prop :=
  ∀ n ∈ t.root, n.Filled rule

def Built (t : Tree V) : Prop :=
  ∀ n ∈ t.root, n.Built

def Forked (t : Tree V) : Prop :=
  t.Filled fun _ n => 2 ≤ n

/-- What every operation on `t` leaves is sound and as full as `t` was, and built if `t` was. -/
structure Keeps (t u : Tree V) : Prop where
  sound : u.Sound
  filled : ∀ rule, Layout.Stable rule → t.Filled rule → u.Filled rule
  built : t.Built → u.Built

theorem sound_empty : (empty : Tree V).Sound :=
  fun _ hn => nomatch hn

theorem filled_empty : (empty : Tree V).Filled rule :=
  fun _ hn => nomatch hn

theorem built_empty : (empty : Tree V).Built :=
  fun _ hn => nomatch hn

theorem sound_some {n : Node V} : (⟨some n⟩ : Tree V).Sound ↔ n.Sound := by
  simp [Sound]

theorem filled_some {n : Node V} : (⟨some n⟩ : Tree V).Filled rule ↔ n.Filled rule := by
  simp [Filled]

theorem built_some {n : Node V} : (⟨some n⟩ : Tree V).Built ↔ n.Built := by
  simp [Built]

theorem entries_some (n : Node V) : (⟨some n⟩ : Tree V).entries = n.entries := rfl

theorem keeps_refl (h : t.Sound) : Keeps t t :=
  ⟨h, fun _ _ filled => filled, id⟩

theorem keeps_empty : Keeps t empty :=
  ⟨sound_empty, fun _ _ _ => filled_empty, fun _ => built_empty⟩

theorem ordered_entries (h : t.Sound) : Ordered t.entries := by
  obtain ⟨_ | n⟩ := t
  · exact List.Pairwise.nil
  · exact Node.ordered_entries (sound_some.1 h)

theorem not_nested_of_mem (h : t.Sound) {e f : Entry V} (he : e ∈ t.entries) (hf : f ∈ t.entries) :
    ¬ Nested e.key f.key := by
  obtain ⟨_ | n⟩ := t
  · exact absurd he List.not_mem_nil
  · exact Node.not_nested_of_mem (sound_some.1 h) he hf

theorem root_eq_none_iff (h : t.Sound) (forked : t.Forked) : t.root = none ↔ t.entries = [] := by
  obtain ⟨_ | n⟩ := t
  · exact iff_of_true rfl rfl
  · obtain ⟨e, he⟩ := Node.exists_entry (sound_some.1 h) (filled_some.1 forked)
    exact iff_of_false (fun none => nomatch none) (List.ne_nil_of_mem he)

/-- What storing a key does to a tree, once the front of the key is skipped. -/
inductive Upsertion (repetition : Repetition) (value : V) (t : Tree V) (key : Bytes) :
    Outcome (Tree V) (Except KeyError UInt64) → Prop
  | first (bare : t.root = none) :
    Upsertion repetition value t key ⟨.ok 1, ⟨some (Node.newLeaf key value)⟩, []⟩
  | below {n : Node V} {o : Outcome (Node V) (Except KeyError UInt64)} (root : t.root = some n)
    (insertion : Node.Insertion repetition value n key o) :
    Upsertion repetition value t key (o.mapAfter (⟨some ·⟩))

theorem upsertion_cases (h : t.Sound) (repetition : Repetition) (key : Cursor) (value : V)
    (depth : UInt64) :
    (∃ e, key.advance depth = .error e ∧
      t.upsert repetition key value depth = .ok (.unchanged t (.error e))) ∨
    ∃ c, key.advance depth = .ok c ∧
      ((∃ o, t.upsert repetition key value depth = .ok o ∧
        Upsertion repetition value t c.rest o) ∨
      t.upsert repetition key value depth = .error .counterOverflow ∧ repetition = .counted ∧
        ¬ HitFits t.entries c.rest) := by
  cases advanced : key.advance depth with
  | error e => exact .inl ⟨e, rfl, by simp only [upsert, advanced]; rfl⟩
  | ok c =>
    refine .inr ⟨c, rfl, ?_⟩
    obtain ⟨_ | n⟩ := t
    · exact .inl ⟨_, by simp only [upsert, advanced]; rfl, .first rfl⟩
    · rcases Node.insert_cases (sound_some.1 h) repetition value c.rest with
        ⟨o, done, insertion⟩ | ⟨fault, counted, e, he, same, full⟩
      · refine .inl ⟨_, ?_, .below rfl insertion⟩
        simp only [upsert, advanced, done]
        rfl
      · refine .inr ⟨?_, counted, fun fits => full (fits e he same)⟩
        simp only [upsert, advanced, fault]
        rfl

section Upsertion

variable {repetition : Repetition} {value : V} {key : Bytes}
  {o : Outcome (Tree V) (Except KeyError UInt64)}

theorem Upsertion.keeps (h : Upsertion repetition value t key o) (ht : t.Sound) :
    Keeps t o.after := by
  cases h with
  | first bare => exact ⟨sound_some.2 (Node.sound_leaf ..),
      fun _ _ _ => filled_some.2 (Node.filled_leaf ..),
      fun _ => built_some.2 (Node.built_leaf ..)⟩
  | @below n o root insertion =>
    have sound := ht n root
    exact ⟨sound_some.2 (insertion.sound sound),
      fun rule stable filled => filled_some.2 (insertion.filled stable sound (filled n root)),
      fun built => built_some.2 (insertion.built (built n root))⟩

theorem Upsertion.upserted (h : Upsertion repetition value t key o) (ht : t.Sound)
    (forked : t.Forked) : Upserted repetition key value t.entries o.after.entries o.answer := by
  obtain ⟨root?⟩ := t
  cases h with
  | first bare =>
    obtain rfl : root? = none := bare
    refine .added (fun f hf => absurd hf List.not_mem_nil)
      (fun f hf => absurd hf List.not_mem_nil) fun f => ?_
    rw [entries_some, Node.newLeaf, Node.entries_leaf, List.mem_singleton]
    exact (or_iff_left List.not_mem_nil).symm
  | @below n o root insertion =>
    obtain rfl : root? = some n := root
    exact insertion.upserted (sound_some.1 ht) (filled_some.1 forked)

theorem Upsertion.hitFits (h : Upsertion .counted value t key o) (ht : t.Sound) :
    HitFits t.entries key := by
  obtain ⟨root?⟩ := t
  cases h with
  | first bare =>
    obtain rfl : root? = none := bare
    exact fun f hf => absurd hf List.not_mem_nil
  | @below n o root insertion =>
    obtain rfl : root? = some n := root
    exact insertion.hitFits (sound_some.1 ht)

end Upsertion

theorem upsert_cases (h : t.Sound) (forked : t.Forked) (repetition : Repetition) (key : Cursor)
    (value : V) (depth : UInt64) :
    (∃ e, key.advance depth = .error e ∧
      t.upsert repetition key value depth = .ok (.unchanged t (.error e))) ∨
    ∃ c, key.advance depth = .ok c ∧
      ((∃ o, t.upsert repetition key value depth = .ok o ∧ Keeps t o.after ∧
        Upserted repetition c.rest value t.entries o.after.entries o.answer) ∨
      t.upsert repetition key value depth = .error .counterOverflow ∧ repetition = .counted ∧
        ¬ HitFits t.entries c.rest) := by
  rcases upsertion_cases h repetition key value depth with
    refused | ⟨c, advanced, ⟨o, done, upsertion⟩ | full⟩
  · exact .inl refused
  · exact .inr ⟨c, advanced, .inl ⟨o, done, upsertion.keeps h, upsertion.upserted h forked⟩⟩
  · exact .inr ⟨c, advanced, .inr full⟩

theorem upsert_zero_cases (h : t.Sound) (forked : t.Forked) (repetition : Repetition)
    (key : Cursor) (value : V) :
    (∃ o, t.upsert repetition key value 0 = .ok o ∧ Keeps t o.after ∧
      Upserted repetition key.rest value t.entries o.after.entries o.answer) ∨
    t.upsert repetition key value 0 = .error .counterOverflow ∧ repetition = .counted ∧
      ¬ HitFits t.entries key.rest := by
  rcases upsert_cases h forked repetition key value 0 with ⟨e, refused, -⟩ | ⟨c, advanced, cases⟩
  · rw [Cursor.advance_zero] at refused
    cases refused
  · rw [Cursor.advance_zero] at advanced
    obtain rfl := Except.ok.inj advanced
    exact cases

theorem find?_eq (h : t.Sound) (key : Cursor) :
    t.find? key = .ok ((Dictionary.entry? t.entries key.rest).map fun e => (e.value, e.hits)) := by
  obtain ⟨_ | n⟩ := t
  · rfl
  · exact Node.find?_eq (sound_some.1 h) key.rest

theorem assign_eq (h : t.Sound) (key : Cursor) (value : V) :
    ∃ o, t.assign key value = .ok o ∧ Keeps t o.after ∧
      Assigned key.rest value t.entries o.after.entries o.answer := by
  obtain ⟨_ | n⟩ := t
  · exact ⟨_, rfl, keeps_refl h, .absent (fun f hf => absurd hf List.not_mem_nil) fun f => Iff.rfl⟩
  · have sound := sound_some.1 h
    obtain ⟨o, done, assignment⟩ := Node.assign_cases sound value key.rest
    refine ⟨o.mapAfter (⟨some ·⟩), ?_, ⟨sound_some.2 (assignment.sound sound),
      fun rule _ filled => filled_some.2 (assignment.filled sound (filled_some.1 filled)),
      fun built => built_some.2 (assignment.built (built_some.1 built))⟩,
      assignment.assigned sound⟩
    simp only [assign, done]
    rfl

theorem delete_eq (h : t.Sound) (key : Cursor) :
    ∃ o, t.delete key = .ok o ∧ Keeps t o.after ∧
      Removed key.rest t.entries o.after.entries o.answer := by
  obtain ⟨_ | ⟨suffix, value, hits⟩ | ⟨stem, s⟩⟩ := t
  · exact ⟨_, rfl, keeps_refl h, .absent (fun f hf => absurd hf List.not_mem_nil) fun f => Iff.rfl⟩
  · by_cases same : suffix = key.rest
    · refine ⟨⟨.ok value, empty, []⟩, if_pos same, keeps_empty,
        .taken (e := ⟨suffix, value, hits⟩) ?_ same fun f => ?_⟩
      · rw [entries_some, Node.entries_leaf]
        exact List.mem_singleton_self _
      · rw [entries_some, Node.entries_leaf, List.mem_singleton]
        refine iff_of_false List.not_mem_nil ?_
        rintro ⟨rfl, different⟩
        exact different same
    · refine ⟨_, if_neg same, keeps_refl h, .absent (fun f hf => ?_) fun f => Iff.rfl⟩
      rw [entries_some, Node.entries_leaf, List.mem_singleton] at hf
      exact hf ▸ same
  · have sound := sound_some.1 h
    obtain ⟨o, done, removal⟩ := Node.remove_cases sound rfl key.rest
    refine ⟨o.mapAfter (⟨some ·⟩), ?_, ⟨sound_some.2 (removal.sound sound),
      fun rule stable filled => filled_some.2 (removal.filled stable sound
        (filled_some.1 filled)),
      fun built => built_some.2 (removal.built (built_some.1 built))⟩, removal.removed sound⟩
    simp only [delete, done]
    rfl

/-- A sound tree with these entries whose nodes are as full as a rule asks. -/
structure Holds (rule : Layout → Nat → Prop) (t : Tree V) (d : Dictionary V) : Prop where
  sound : t.Sound
  filled : t.Filled rule
  entries : t.entries = d

theorem Filled.forked (h : t.Sound) (stable : Layout.Stable rule) (filled : t.Filled rule) :
    t.Forked :=
  fun n hn => Node.Filled.forked (h n hn) stable (filled n hn)

theorem Keeps.holds {u : Tree V} {d : Dictionary V} (h : Keeps t u) (stable : Layout.Stable rule)
    (filled : t.Filled rule) (entries : u.entries = d) : Holds rule u d :=
  ⟨h.sound, h.filled rule stable filled, entries⟩

variable {d : Dictionary V} (stable : Layout.Stable rule)

include stable

section Steps

variable (h : Holds rule t d)

include h

theorem simulates_insert (key : Cursor) (value : V) (depth : UInt64) :
    Outcome.Simulates (Holds rule) .counterOverflow (TreeStepFits d (.insert key value depth))
      (treeStep d (.insert key value depth)) (t.step (.insert key value depth)) := by
  obtain ⟨sound, filled, rfl⟩ := h
  have forked := Filled.forked sound stable filled
  rcases upsert_cases sound forked .refused key value depth with
    ⟨e, advanced, done⟩ | ⟨c, advanced, ⟨o, done, keeps, upserted⟩ | ⟨-, counted, -⟩⟩
  · refine .inl ⟨trivial, .unchanged t (.error e), ?_, ?_, ?_⟩
    · simp only [step, insert, done]
      rfl
    · exact (keeps_refl sound).holds stable filled (by simp only [treeStep, advanced])
    · simp only [treeStep, advanced]
      rfl
  · have same := upserted.eq_upsert (ordered_entries sound) (ordered_entries keeps.sound)
    refine .inl ⟨trivial, ⟨.ofExcept (fun _ => .done) o.answer, o.after, o.events⟩, ?_, ?_, ?_⟩
    · simp only [step, insert, done]
      obtain ⟨_ | _, _, _⟩ := o <;> rfl
    · exact keeps.holds stable filled (by simp only [treeStep, advanced, same]; rfl)
    · simp only [treeStep, advanced, same]
      rfl
  · cases counted

theorem simulates_record (key : Cursor) (value : V) (depth : UInt64) :
    Outcome.Simulates (Holds rule) .counterOverflow (TreeStepFits d (.record key value depth))
      (treeStep d (.record key value depth)) (t.step (.record key value depth)) := by
  obtain ⟨sound, filled, rfl⟩ := h
  have ordered := ordered_entries sound
  have forked := Filled.forked sound stable filled
  rcases upsert_cases sound forked .counted key value depth with
    ⟨e, advanced, done⟩ | ⟨c, advanced, ⟨o, done, keeps, upserted⟩ | ⟨fault, -, full⟩⟩
  · refine .inl ⟨fun c other => ?_, .unchanged t (.error e), ?_, ?_, ?_⟩
    · rw [advanced] at other
      cases other
    · simp only [step, record, done]
      rfl
    · exact (keeps_refl sound).holds stable filled (by simp only [treeStep, advanced])
    · simp only [treeStep, advanced]
      rfl
  · have same := upserted.eq_upsert ordered (ordered_entries keeps.sound)
    refine .inl ⟨fun c' other => ?_, o.mapAnswer (.ofExcept (.hits <| some ·)), ?_, ?_, ?_⟩
    · rw [advanced] at other
      cases other
      exact upserted.hitFits ordered
    · simp only [step, record, done]
      rfl
    · exact keeps.holds stable filled (by simp only [treeStep, advanced, same]; rfl)
    · simp only [treeStep, advanced, same]
      rfl
  · refine .inr ⟨fun fits => full (fits c advanced), ?_⟩
    simp only [step, record, fault]
    rfl

theorem simulates_assign (key : Cursor) (value : V) :
    Outcome.Simulates (Holds rule) .counterOverflow (TreeStepFits d (.assign key value))
      (treeStep d (.assign key value)) (t.step (.assign key value)) := by
  obtain ⟨sound, filled, rfl⟩ := h
  obtain ⟨o, done, keeps, assigned⟩ := assign_eq sound key value
  obtain ⟨answer, after⟩ :=
    assigned.eq_update (ordered_entries sound) (ordered_entries keeps.sound)
  refine .inl ⟨trivial, o.mapAnswer (.ofExcept (.value <| some ·)), ?_,
    keeps.holds stable filled after.symm, ?_⟩
  · simp only [step, done]
    rfl
  · simp only [treeStep, Outcome.mapAnswer, answer]
    cases entry? t.entries key.rest <;> rfl

theorem simulates_delete (key : Cursor) :
    Outcome.Simulates (Holds rule) .counterOverflow (TreeStepFits d (.delete key))
      (treeStep d (.delete key)) (t.step (.delete key)) := by
  obtain ⟨sound, filled, rfl⟩ := h
  obtain ⟨o, done, keeps, removed⟩ := delete_eq sound key
  obtain ⟨answer, after⟩ := removed.eq_filter (ordered_entries sound) (ordered_entries keeps.sound)
  refine .inl ⟨trivial, o.mapAnswer (.ofExcept (.value <| some ·)), ?_,
    keeps.holds stable filled after.symm, ?_⟩
  · simp only [step, done]
    rfl
  · simp only [treeStep, Outcome.mapAnswer, answer]
    cases entry? t.entries key.rest <;> rfl

theorem simulates_step (s : Step V) :
    Outcome.Simulates (Holds rule) .counterOverflow (TreeStepFits d s) (treeStep d s)
      (t.step s) := by
  cases s with
  | insert key value depth => exact simulates_insert stable h key value depth
  | record key value depth => exact simulates_record stable h key value depth
  | assign key value => exact simulates_assign stable h key value
  | delete key => exact simulates_delete stable h key
  | lookup key =>
    obtain ⟨sound, filled, rfl⟩ := h
    refine .inl ⟨trivial, .unchanged t _, ?_, (keeps_refl sound).holds stable filled rfl, rfl⟩
    simp only [step, lookup, find?_eq sound]
    cases entry? t.entries key.rest <;> rfl
  | hits key =>
    obtain ⟨sound, filled, rfl⟩ := h
    refine .inl ⟨trivial, .unchanged t _, ?_, (keeps_refl sound).holds stable filled rfl, rfl⟩
    simp only [step, hits, find?_eq sound]
    cases entry? t.entries key.rest <;> rfl

end Steps

theorem simulates_run (h : Holds rule t d) (steps : List (Step V)) :
    Outcome.Simulates (Holds rule) .counterOverflow (Outcome.AllFit treeStep TreeStepFits d steps)
      (Outcome.replay treeStep d steps) (t.run steps) :=
  Outcome.simulates_runAll (fun _ _ i h => simulates_step stable h i) h steps

end Tree

end AdaptiveRadix
