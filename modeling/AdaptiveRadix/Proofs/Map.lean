import AdaptiveRadix.Map.Step
import AdaptiveRadix.Proofs.Tree

/-!
A map and the dictionary it represents. Every step answers what the dictionary answers, or faults
because a hit counter or the number of entries would overflow.
-/

namespace AdaptiveRadix

namespace Dictionary

variable {V : Type}

def StepHitsFit (d : Dictionary V) : Map.Step V → Prop
  | .record key _ => d.HitFits key
  | _ => True

/-- Neither the number of entries nor a hit counter overflows in a step of a map. -/
def StepFits (d : Dictionary V) (s : Map.Step V) : Prop :=
  (d.step s).2.length < UInt64.size ∧ d.StepHitsFit s

theorem run_eq_replay (d : Dictionary V) (steps : List (Map.Step V)) :
    d.run steps = Outcome.replay step d steps := by
  induction steps generalizing d with
  | nil => rfl
  | cons s rest ih => rw [run, Outcome.replay, ih]

def RunFits (d : Dictionary V) (steps : List (Map.Step V)) : Prop :=
  Outcome.AllFit step StepFits d steps

theorem length_upsert_le (d : Dictionary V) (repetition : Repetition) (key : Bytes) (value : V) :
    (d.upsert repetition key value).2.length ≤ d.length + 1 := by
  unfold upsert
  split
  · split
    · exact Nat.le_succ _
    · simp [update]
  · split
    · exact Nat.le_succ _
    · exact Nat.le_of_eq (length_add d _)

theorem length_step_le (d : Dictionary V) (s : Map.Step V) :
    (d.step s).2.length ≤ d.length + 1 := by
  cases s with
  | insert key value => exact length_upsert_le d .refused key value
  | record key value => exact length_upsert_le d .counted key value
  | set key value => simp [step, update]
  | remove key => exact Nat.le_succ_of_le (List.length_filter_le ..)
  | clear => exact Nat.zero_le _
  | _ => exact Nat.le_succ _

/-- In fewer steps than `UInt64.size` only the hit counters can overflow. -/
theorem runFits_iff_of_length_lt {d : Dictionary V} {steps : List (Map.Step V)}
    (short : d.length + steps.length < UInt64.size) :
    d.RunFits steps ↔ Outcome.AllFit step StepHitsFit d steps := by
  induction steps generalizing d with
  | nil => exact Iff.rfl
  | cons s rest ih =>
    have more := length_step_le d s
    rw [List.length_cons] at short
    have room : (d.step s).2.length < UInt64.size := by omega
    exact and_congr (and_iff_right room) (ih (by omega))

end Dictionary

namespace Map

open Dictionary

variable {V : Type} {m : Map V} {d : Dictionary V}

/-- The tree holds the entries and is as compact as it can be, and they are counted. -/
structure Represents (m : Map V) (d : Dictionary V) : Prop where
  holds : m.tree.Holds (fun l n => l.minimum ≤ n) d
  built : m.tree.Built
  size : m.size = d.length
  positive : ∀ f ∈ d, f.hits ≠ 0
  bounded : d.length < UInt64.size

theorem represents_empty : Represents (empty : Map V) [] where
  holds := ⟨Tree.sound_empty, Tree.filled_empty, rfl⟩
  built := Tree.built_empty
  size := rfl
  positive _ hf := absurd hf List.not_mem_nil
  bounded := (by decide : 0 < UInt64.size)

theorem increment_size_eq_ok {n : Nat} (fits : n + 1 < UInt64.size) :
    Checked.increment sizeLimit n = .ok (n + 1) :=
  Checked.increment_eq_ok (Nat.lt_sub_of_add_lt fits)

theorem increment_size_eq_error {n : Nat} (full : ¬ n + 1 < UInt64.size) :
    Checked.increment sizeLimit n = .error .counterOverflow :=
  if_neg fun room => full (Nat.add_lt_of_lt_sub room)

section Represents

variable (h : Represents m d)

include h

theorem Represents.ordered : Ordered d :=
  h.holds.entries ▸ Tree.ordered_entries h.holds.sound

theorem Represents.find?_eq (key : Bytes) :
    m.tree.find? (.ofBytes key) = .ok ((d.entry? key).map fun e => (e.value, e.hits)) := by
  rw [Tree.find?_eq h.holds.sound, h.holds.entries, Cursor.rest_ofBytes]

theorem Represents.get?_eq (key : Bytes) : m.get? key = .ok ((d.entry? key).map (·.value)) := by
  simp only [get?, Tree.lookup, h.find?_eq]
  cases d.entry? key <;> rfl

theorem Represents.hits?_eq (key : Bytes) : m.hits? key = .ok ((d.entry? key).map (·.hits)) := by
  simp only [hits?, Tree.hits, h.find?_eq]
  cases d.entry? key <;> rfl

theorem upsert_cases (repetition : Repetition) (key : Bytes) (value : V) :
    (∃ o, m.tree.upsert repetition (.ofBytes key) value 0 = .ok o ∧ Tree.Keeps m.tree o.after ∧
      Upserted repetition key value d o.after.entries o.answer) ∨
    m.tree.upsert repetition (.ofBytes key) value 0 = .error .counterOverflow ∧
      repetition = .counted ∧ ¬ HitFits d key := by
  obtain ⟨⟨sound, filled, rfl⟩, -⟩ := h
  have forked := Tree.Filled.forked sound Layout.stable_minimum filled
  exact Tree.upsert_zero_cases sound forked repetition (.ofBytes key) value

theorem Represents.upserted {repetition : Repetition} {key : Bytes} {value : V} {u : Tree V}
    {answer : Except KeyError UInt64} (keeps : Tree.Keeps m.tree u)
    (upserted : Upserted repetition key value d u.entries answer) :
    answer = .ok 1 ∧ u.entries.length = m.size + 1 ∧
        (m.size + 1 < UInt64.size → Represents ⟨u, m.size + 1⟩ u.entries) ∨
      answer ≠ .ok 1 ∧ (repetition = .counted ∨ ∃ e, answer = .error e) ∧
        Represents ⟨u, m.size⟩ u.entries := by
  have holds := keeps.holds Layout.stable_minimum h.holds.filled rfl
  have built := keeps.built h.built
  obtain ⟨positive, ⟨first, length⟩ | ⟨other, length, refused⟩⟩ :=
    upserted.length h.ordered (Tree.ordered_entries keeps.sound) h.positive
  · rw [← h.size] at length
    exact .inl ⟨first, length, fun room => ⟨holds, built, length.symm, positive, length ▸ room⟩⟩
  · exact .inr ⟨other, refused, holds, built, h.size.trans length.symm, positive,
      length ▸ h.bounded⟩

theorem simulates_insert (key : Bytes) (value : V) :
    Outcome.Simulates Represents .counterOverflow (StepFits d (.insert key value))
      (d.step (.insert key value)) (m.step (.insert key value)) := by
  rcases upsert_cases h .refused key value with ⟨o, done, keeps, upserted⟩ | ⟨-, counted, -⟩
  · have same := upserted.eq_upsert h.ordered (Tree.ordered_entries keeps.sound)
    have expected : d.step (.insert key value) =
        (.ofExcept (fun _ => .done) o.answer, o.after.entries) := by
      simp only [Dictionary.step, same]
      rfl
    simp only [Outcome.Simulates, StepFits, expected]
    obtain ⟨answer, after, events⟩ := o
    rcases h.upserted keeps upserted with ⟨rfl, length, room⟩ | ⟨-, counted | ⟨e, rfl⟩, represents⟩
    · by_cases fits : m.size + 1 < UInt64.size
      · refine .inl ⟨⟨length ▸ fits, trivial⟩, ⟨.done, ⟨after, m.size + 1⟩, events⟩, ?_, room fits,
          rfl⟩
        simp only [Map.step, insert, Tree.insert, done, Checked.ok_bind, Checked.pure_eq_ok,
          Outcome.mapAnswer, Except.map, increment_size_eq_ok fits]
        rfl
      · refine .inr ⟨fun both => fits (length ▸ both.1), ?_⟩
        simp only [Map.step, insert, Tree.insert, done, Checked.ok_bind, Checked.pure_eq_ok,
          Outcome.mapAnswer, Except.map, increment_size_eq_error fits]
        rfl
    · cases counted
    · refine .inl ⟨⟨represents.bounded, trivial⟩, ⟨.error e, ⟨after, m.size⟩, events⟩, ?_,
        represents, rfl⟩
      simp only [Map.step, insert, Tree.insert, done, Checked.ok_bind, Checked.pure_eq_ok,
        Outcome.mapAnswer, Except.map]
      rfl
  · cases counted

theorem simulates_record (key : Bytes) (value : V) :
    Outcome.Simulates Represents .counterOverflow (StepFits d (.record key value))
      (d.step (.record key value)) (m.step (.record key value)) := by
  rcases upsert_cases h .counted key value with ⟨o, done, keeps, upserted⟩ | ⟨fault, -, full⟩
  · have same := upserted.eq_upsert h.ordered (Tree.ordered_entries keeps.sound)
    have hits := upserted.hitFits h.ordered
    have expected : d.step (.record key value) =
        (.ofExcept (.hits <| some ·) o.answer, o.after.entries) := by
      simp only [Dictionary.step, same]
      rfl
    simp only [Outcome.Simulates, StepFits, expected]
    obtain ⟨answer, after, events⟩ := o
    rcases h.upserted keeps upserted with ⟨rfl, length, room⟩ | ⟨other, -, represents⟩
    · by_cases fits : m.size + 1 < UInt64.size
      · refine .inl ⟨⟨length ▸ fits, hits⟩, ⟨.hits (some 1), ⟨after, m.size + 1⟩, events⟩, ?_,
          room fits, rfl⟩
        simp only [Map.step, record, Tree.record, done, Checked.ok_bind, Checked.pure_eq_ok,
          if_true, increment_size_eq_ok fits]
        rfl
      · refine .inr ⟨fun both => fits (length ▸ both.1), ?_⟩
        simp only [Map.step, record, Tree.record, done, Checked.ok_bind, if_true,
          increment_size_eq_error fits]
        rfl
    · refine .inl ⟨⟨represents.bounded, hits⟩, ⟨.ofExcept (.hits <| some ·) answer,
        ⟨after, m.size⟩, events⟩, ?_, represents, rfl⟩
      simp only [Map.step, record, Tree.record, done, Checked.ok_bind]
      cases answer with
      | error e => rfl
      | ok hits =>
        have several : hits ≠ 1 := fun one => other (congrArg _ one)
        simp only [if_neg several]
        rfl
  · refine .inr ⟨fun fits => full fits.2, ?_⟩
    simp only [Map.step, record, Tree.record, fault]
    rfl

theorem simulates_set (key : Bytes) (value : V) :
    Outcome.Simulates Represents .counterOverflow (StepFits d (.set key value))
      (d.step (.set key value)) (m.step (.set key value)) := by
  obtain ⟨o, done, keeps, assigned⟩ := Tree.assign_eq h.holds.sound (.ofBytes key) value
  rw [h.holds.entries, Cursor.rest_ofBytes] at assigned
  obtain ⟨answer, after⟩ := assigned.eq_update h.ordered (Tree.ordered_entries keeps.sound)
  have length : (d.update key fun e => { e with value }).length = d.length := List.length_map _
  refine .inl ⟨⟨length ▸ h.bounded, trivial⟩, ⟨.value o.answer.toOption, ⟨o.after, m.size⟩,
    o.events⟩, ?_, ⟨keeps.holds Layout.stable_minimum h.holds.filled after.symm,
    keeps.built h.built, h.size.trans length.symm, fun f hf => ?_, length ▸ h.bounded⟩, ?_⟩
  · simp only [Map.step, set, done]
    rfl
  · obtain ⟨e, he, rfl⟩ := List.mem_map.1 hf
    have := h.positive e he
    split <;> exact this
  · simp only [Dictionary.step, answer]
    cases d.entry? key <;> rfl

theorem simulates_remove (key : Bytes) :
    Outcome.Simulates Represents .counterOverflow (StepFits d (.remove key))
      (d.step (.remove key)) (m.step (.remove key)) := by
  obtain ⟨o, done, keeps, removed⟩ := Tree.delete_eq h.holds.sound (.ofBytes key)
  rw [h.holds.entries, Cursor.rest_ofBytes] at removed
  have ordered' := Tree.ordered_entries keeps.sound
  obtain ⟨answer, after⟩ := removed.eq_filter h.ordered ordered'
  have length : (d.filter fun e => e.key ≠ key).length ≤ d.length := List.length_filter_le ..
  have bounded := Nat.lt_of_le_of_lt length h.bounded
  have expected : (d.step (.remove key)).1 = .value o.answer.toOption := by
    simp only [Dictionary.step, answer]
    cases d.entry? key <;> rfl
  refine .inl ⟨⟨bounded, trivial⟩, ⟨.value o.answer.toOption, ⟨o.after, o.after.entries.length⟩,
    o.events⟩, ?_, ⟨keeps.holds Layout.stable_minimum h.holds.filled after.symm,
    keeps.built h.built, congrArg _ after.symm, fun f hf => h.positive f (List.mem_filter.1 hf).1,
    bounded⟩, expected.symm⟩
  simp only [Map.step, remove, done, Checked.ok_bind]
  obtain ⟨answer', after', events⟩ := o
  rcases removed.length h.ordered ordered' with ⟨⟨v, rfl⟩, shorter⟩ | ⟨⟨e, rfl⟩, same⟩
  · have smaller : Checked.decrement m.size = .ok after'.entries.length := by
      rw [h.size, shorter]
      rfl
    simp only [smaller]
    rfl
  · have size : m.size = after'.entries.length := h.size.trans (congrArg _ same)
    simp only [← size]
    rfl

theorem simulates_step (s : Step V) :
    Outcome.Simulates Represents .counterOverflow (StepFits d s) (d.step s) (m.step s) := by
  cases s with
  | insert key value => exact simulates_insert h key value
  | record key value => exact simulates_record h key value
  | set key value => exact simulates_set h key value
  | remove key => exact simulates_remove h key
  | get key =>
    refine .inl ⟨⟨h.bounded, trivial⟩, .unchanged m _, ?_, h, rfl⟩
    simp only [Map.step, h.get?_eq]
    rfl
  | contains key =>
    refine .inl ⟨⟨h.bounded, trivial⟩, .unchanged m _, ?_, h, rfl⟩
    simp only [Map.step, contains, h.get?_eq]
    cases d.entry? key <;> rfl
  | hits key =>
    refine .inl ⟨⟨h.bounded, trivial⟩, .unchanged m _, ?_, h, rfl⟩
    simp only [Map.step, h.hits?_eq]
    rfl
  | len => exact .inl ⟨⟨h.bounded, trivial⟩, .unchanged m _, rfl, h, congrArg _ h.size⟩
  | isEmpty =>
    refine .inl ⟨⟨h.bounded, trivial⟩, .unchanged m _, rfl, h, ?_⟩
    simp only [Outcome.unchanged, isEmpty, h.size, Dictionary.step]
    cases d <;> rfl
  | clear =>
    exact .inl ⟨⟨represents_empty.bounded, trivial⟩, .unchanged .empty _, rfl, represents_empty,
      rfl⟩

end Represents

theorem simulates_run (h : Represents m d) (steps : List (Step V)) :
    Outcome.Simulates Represents .counterOverflow (RunFits d steps) (d.run steps) (m.run steps) :=
  run_eq_replay d steps ▸ Outcome.simulates_runAll (fun _ _ s h => simulates_step h s) h steps

/-- A run from the empty map answers step by step what the dictionary answers, and ends with its
entries. The only other outcome is the fault of a counter, and it occurs exactly if a hit counter or
the number of entries would reach `UInt64.size`. -/
theorem run_empty_refines_dictionary (steps : List (Step V)) :
    (RunFits [] steps ∧ ∃ o, run empty steps = .ok o ∧ o.answer = (Dictionary.run [] steps).1 ∧
      o.after.tree.entries = (Dictionary.run [] steps).2 ∧
      o.after.size = (Dictionary.run [] steps).2.length) ∨
    ¬ RunFits [] steps ∧ run empty steps = .error .counterOverflow := by
  rcases simulates_run represents_empty steps with ⟨fits, o, done, represents, same⟩ | faulted
  · exact .inl ⟨fits, o, done, same, represents.holds.entries, represents.size⟩
  · exact .inr faulted

end Map

end AdaptiveRadix
