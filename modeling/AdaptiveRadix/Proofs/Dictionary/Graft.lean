import AdaptiveRadix.Proofs.Dictionary

/-!
Entries below an edge. Seen from above a stem and an edge they have longer keys, and keys that take
another edge cannot be confused with them; so whatever an operation does to the entries below, it
does to all of them.
-/

namespace AdaptiveRadix

variable {V : Type}

/-- An entry as it is seen from above a stem and an edge. -/
def Entry.under (stem : Bytes) (b : UInt8) (e : Entry V) : Entry V :=
  { e with key := stem ++ b :: e.key }

namespace Dictionary

variable {stem key : Bytes} {b : UInt8} {value : V} {rest : Entry V → Prop}
  {d d' D D' : Dictionary V} {e : Entry V}

/-- The members of `whole` are those of `below` under an edge, and the rest, whose keys take
another edge. -/
structure Graft (stem : Bytes) (b : UInt8) (rest : Entry V → Prop) (below whole : Dictionary V) :
    Prop where
  mem_iff : ∀ f, f ∈ whole ↔ (∃ g ∈ below, f = g.under stem b) ∨ rest f
  apart : ∀ f, rest f → ∃ a, a ≠ b ∧ stem ++ [a] <+: f.key

theorem key_under_eq_iff : (e.under stem b).key = stem ++ b :: key ↔ e.key = key := by
  simp [Entry.under]

theorem under_inj {f : Entry V} : e.under stem b = f.under stem b ↔ e = f := by
  cases e
  cases f
  simp [Entry.under]

theorem nested_under_iff : Nested (stem ++ b :: key) (e.under stem b).key ↔ Nested key e.key := by
  simp [Nested, Entry.under, List.prefix_append_right_inj]

theorem edge_prefix_under (stem : Bytes) (b : UInt8) (e : Entry V) :
    stem ++ [b] <+: (e.under stem b).key :=
  ⟨e.key, by simp [Entry.under]⟩

theorem not_prefix_of_edge_ne {a : UInt8} {x y : Bytes} (different : a ≠ b)
    (hx : stem ++ [a] <+: x) (hy : stem ++ [b] <+: y) : ¬ x <+: y := by
  intro nested
  have := List.prefix_of_prefix_length_le (hx.trans nested) hy (by simp)
  simp [List.prefix_append_right_inj, different] at this

section Graft

variable (h : Graft stem b rest d D) (h' : Graft stem b rest d' D')

include h

theorem Graft.mem_under {g : Entry V} (hg : g ∈ d) : g.under stem b ∈ D :=
  (h.mem_iff _).2 (.inl ⟨g, hg, rfl⟩)

theorem Graft.rest_ne {f : Entry V} (hf : rest f) : f.key ≠ stem ++ b :: key := by
  obtain ⟨a, different, hx⟩ := h.apart f hf
  intro same
  refine not_prefix_of_edge_ne different hx (y := stem ++ b :: key) ?_ (same ▸ List.prefix_rfl)
  exact ⟨key, by simp⟩

theorem Graft.rest_not_nested {f : Entry V} (hf : rest f) : ¬ Nested (stem ++ b :: key) f.key := by
  obtain ⟨a, different, hx⟩ := h.apart f hf
  have hy : stem ++ [b] <+: stem ++ b :: key := ⟨key, by simp⟩
  rintro ⟨-, nested | nested⟩
  · exact not_prefix_of_edge_ne different.symm hy hx nested
  · exact not_prefix_of_edge_ne different hx hy nested

theorem Graft.absent (absent : ∀ f ∈ d, f.key ≠ key) : ∀ f ∈ D, f.key ≠ stem ++ b :: key := by
  intro f hf
  rcases (h.mem_iff f).1 hf with ⟨g, hg, rfl⟩ | other
  · exact mt key_under_eq_iff.1 (absent g hg)
  · exact h.rest_ne other

include h'

theorem Graft.unchanged (after : ∀ f, f ∈ d' ↔ f ∈ d) (f : Entry V) : f ∈ D' ↔ f ∈ D := by
  simp only [h.mem_iff, h'.mem_iff, after]

theorem Graft.changed (changed : Changed e d d') : Changed (e.under stem b) D D' := by
  intro f
  rw [h.mem_iff, h'.mem_iff]
  constructor
  · rintro (⟨g, hg, rfl⟩ | other)
    · rcases (changed g).1 hg with rfl | ⟨hg, different⟩
      · exact .inl rfl
      · exact .inr ⟨.inl ⟨g, hg, rfl⟩, mt key_under_eq_iff.1 different⟩
    · exact .inr ⟨.inr other, h.rest_ne other⟩
  · rintro (rfl | ⟨⟨g, hg, rfl⟩ | other, different⟩)
    · exact .inl ⟨e, (changed e).2 (.inl rfl), rfl⟩
    · exact .inl ⟨g, (changed g).2 (.inr ⟨hg, mt key_under_eq_iff.2 different⟩), rfl⟩
    · exact .inr other

theorem Upserted.graft {repetition : Repetition} {answer : Except KeyError UInt64}
    (op : Upserted repetition key value d d' answer) :
    Upserted repetition (stem ++ b :: key) value D D' answer := by
  cases op with
  | duplicate mem same refused after =>
    exact .duplicate (h.mem_under mem) (key_under_eq_iff.2 same) refused (h.unchanged h' after)
  | @counted e mem same counted fits after =>
    exact .counted (e := e.under stem b) (h.mem_under mem) (key_under_eq_iff.2 same) counted fits
      (h.changed h' after)
  | conflict absent mem nested after =>
    exact .conflict (h.absent absent) (h.mem_under mem) (nested_under_iff.2 nested)
      (h.unchanged h' after)
  | added absent apart after =>
    refine .added (h.absent absent) (fun f hf => ?_) fun f => ?_
    · rcases (h.mem_iff f).1 hf with ⟨g, hg, rfl⟩ | other
      · exact mt nested_under_iff.1 (apart g hg)
      · exact h.rest_not_nested other
    · rw [h.mem_iff, h'.mem_iff]
      constructor
      · rintro (⟨g, hg, rfl⟩ | other)
        · rcases (after g).1 hg with rfl | hg
          · exact .inl rfl
          · exact .inr (.inl ⟨g, hg, rfl⟩)
        · exact .inr (.inr other)
      · rintro (rfl | ⟨g, hg, rfl⟩ | other)
        · exact .inl ⟨⟨key, value, 1⟩, (after _).2 (.inl rfl), rfl⟩
        · exact .inl ⟨g, (after g).2 (.inr hg), rfl⟩
        · exact .inr other

theorem Assigned.graft {answer : Except KeyError V} (op : Assigned key value d d' answer) :
    Assigned (stem ++ b :: key) value D D' answer := by
  cases op with
  | absent absent after => exact .absent (h.absent absent) (h.unchanged h' after)
  | @replaced e mem same after =>
    exact .replaced (e := e.under stem b) (h.mem_under mem) (key_under_eq_iff.2 same)
      (h.changed h' after)

theorem Removed.graft {answer : Except KeyError V} (op : Removed key d d' answer) :
    Removed (stem ++ b :: key) D D' answer := by
  cases op with
  | absent absent after => exact .absent (h.absent absent) (h.unchanged h' after)
  | @taken e mem same after =>
    refine .taken (e := e.under stem b) (h.mem_under mem) (key_under_eq_iff.2 same) fun f => ?_
    rw [h.mem_iff, h'.mem_iff]
    constructor
    · rintro (⟨g, hg, rfl⟩ | other)
      · obtain ⟨hg, different⟩ := (after g).1 hg
        exact ⟨.inl ⟨g, hg, rfl⟩, mt key_under_eq_iff.1 different⟩
      · exact ⟨.inr other, h.rest_ne other⟩
    · rintro ⟨⟨g, hg, rfl⟩ | other, different⟩
      · exact .inl ⟨g, (after g).2 ⟨hg, mt key_under_eq_iff.2 different⟩, rfl⟩
      · exact .inr other

end Graft

end Dictionary

end AdaptiveRadix
