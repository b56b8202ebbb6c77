import AdaptiveRadix.Node.Descent
import AdaptiveRadix.Proofs.Cursor
import AdaptiveRadix.Proofs.Node.Insertion
import AdaptiveRadix.Proofs.Node.Removal
import AdaptiveRadix.Proofs.Node.Search

/-!
The ways down with the cursor in hand are the ways down with the bytes that it has left: at every
node the cursor stands where the stems above it end, and no request on the way is out of range.
-/

namespace AdaptiveRadix

variable {V : Type}

namespace Cursor

variable {c : Cursor} {stem tail : Bytes} {b : UInt8}

section Within

variable (h : c.Within)

include h

theorem Within.at_edge (starts : c.rest = stem ++ b :: tail) :
    ∃ d e, c.advance stem.length.toUInt64 = .ok d ∧ d.isExhausted = false ∧ d.peek 0 = .ok b ∧
      d.advance 1 = .ok e ∧ e.Within ∧ e.rest = tail := by
  obtain ⟨d, moved, within, left⟩ := h.advance_past stem starts
  obtain ⟨e, passed, within', rest⟩ := within.advance_past [b] left
  refine ⟨d, e, moved, ?_, ?_, passed, within', rest⟩
  · rw [← Bool.not_eq_true, within.isExhausted_iff, left]
    exact List.cons_ne_nil b tail
  · rw [within.peek_eq, left]
    rfl

theorem Within.at_end (ends : c.rest = stem) :
    ∃ d, c.advance stem.length.toUInt64 = .ok d ∧ d.isExhausted = true ∧
      d.peek 0 = .error (.outOfRange 0 0) := by
  obtain ⟨d, moved, within, left⟩ := h.advance_past stem (ends.trans (List.append_nil stem).symm)
  refine ⟨d, moved, within.isExhausted_iff.2 left, ?_⟩
  rw [within.peek_eq, left]
  rfl

theorem Within.takeToInsert_edge (starts : c.rest = stem ++ b :: tail) :
    ∃ d, c.takeToInsert stem = .ok (b, d) ∧ d.Within ∧ d.rest = tail := by
  obtain ⟨d, e, moved, more, read, passed, within, rest⟩ := h.at_edge starts
  refine ⟨e, ?_, within, rest⟩
  simp only [takeToInsert, moved, bind, Except.bind, more, read, passed]
  rfl

theorem Within.takeToInsert_end (ends : c.rest = stem) :
    c.takeToInsert stem = .error .prefixConflict := by
  obtain ⟨d, moved, done, -⟩ := h.at_end ends
  simp only [takeToInsert, moved, bind, Except.bind, done]
  rfl

theorem Within.takeToFind_edge (starts : c.rest = stem ++ b :: tail) :
    ∃ d, c.takeToFind stem = some (b, d) ∧ d.Within ∧ d.rest = tail := by
  obtain ⟨d, e, moved, -, read, passed, within, rest⟩ := h.at_edge starts
  refine ⟨e, ?_, within, rest⟩
  simp only [takeToFind, moved, bind, Except.bind, read, passed]
  rfl

theorem Within.takeToFind_end (ends : c.rest = stem) : c.takeToFind stem = none := by
  obtain ⟨d, moved, -, unread⟩ := h.at_end ends
  simp only [takeToFind, moved, bind, Except.bind, unread]
  rfl

theorem Within.takeToRemove_edge (starts : c.rest = stem ++ b :: tail) :
    ∃ d, c.takeToRemove stem = .ok (b, d) ∧ d.Within ∧ d.rest = tail := by
  obtain ⟨d, e, moved, -, read, passed, within, rest⟩ := h.at_edge starts
  refine ⟨e, ?_, within, rest⟩
  simp only [takeToRemove, moved, bind, Except.bind, read, passed]
  rfl

theorem Within.takeToRemove_end (ends : c.rest = stem) :
    c.takeToRemove stem = .error .notFound := by
  obtain ⟨d, moved, -, unread⟩ := h.at_end ends
  simp only [takeToRemove, moved, bind, Except.bind, unread]
  rfl

end Within

end Cursor

namespace Node

theorem insertAlong_eq (repetition : Repetition) (value : V) (n : Node V) {key : Cursor}
    (h : key.Within) :
    n.insertAlong repetition value key = n.insert repetition value key.rest := by
  induction n using induct_find? generalizing key with
  | leaf suffix old hits =>
    rw [insertAlong.eq_def]
    exact (insert.eq_def repetition value (leaf suffix old hits) key.rest).symm
  | inner stem s ih =>
    rw [insertAlong.eq_def]
    rcases Stem.short_or_past stem key.rest with cut | ⟨whole, ends | ⟨b, tail, starts⟩⟩
    · rw [insert.eq_def]
      exact (if_pos cut).trans (if_pos cut).symm
    · refine (if_neg (Nat.not_lt.2 (Nat.le_of_eq whole.symm))).trans ?_
      rw [h.takeToInsert_end ends, ends, insert_inner_ends List.prefix_rfl]
      rfl
    · refine (if_neg (Nat.not_lt.2 (Nat.le_of_eq whole.symm))).trans ?_
      obtain ⟨d, taken, within, left⟩ := h.takeToInsert_edge starts
      rw [taken, starts, insert_edge]
      simp only
      cases found : s.find? b with
      | error e => rfl
      | ok child? =>
        cases child? with
        | none => rw [left]; rfl
        | some child => simp only [ih b child found within, left]; rfl

theorem findAlong_eq (n : Node V) {key : Cursor} (h : key.Within) :
    n.findAlong key = n.find? key.rest := by
  induction n using induct_find? generalizing key with
  | leaf suffix value hits => rw [findAlong, find?]
  | inner stem s ih =>
    rw [findAlong.eq_def]
    rcases Stem.short_or_past stem key.rest with cut | ⟨whole, ends | ⟨b, tail, starts⟩⟩
    · rw [find?_no_edge s (if_neg (Nat.ne_of_lt cut))]
      exact if_neg (Nat.ne_of_lt cut)
    · refine (if_pos whole).trans ?_
      rw [h.takeToFind_end ends, ends, find?_no_edge s (Stem.edge?_self stem)]
      rfl
    · refine (if_pos whole).trans ?_
      obtain ⟨d, taken, within, left⟩ := h.takeToFind_edge starts
      rw [taken, starts, find?_edge]
      simp only
      cases found : s.find? b with
      | error e => rfl
      | ok child? =>
        cases child? with
        | none => rfl
        | some child => simp only [ih b child found within, left]; rfl

theorem assignAlong_eq (value : V) (n : Node V) {key : Cursor} (h : key.Within) :
    n.assignAlong value key = n.assign value key.rest := by
  induction n using induct_find? generalizing key with
  | leaf suffix old hits => rw [assignAlong, assign]
  | inner stem s ih =>
    rw [assignAlong.eq_def]
    rcases Stem.short_or_past stem key.rest with cut | ⟨whole, ends | ⟨b, tail, starts⟩⟩
    · rw [assign_no_edge value s (if_neg (Nat.ne_of_lt cut))]
      exact if_neg (Nat.ne_of_lt cut)
    · refine (if_pos whole).trans ?_
      rw [h.takeToFind_end ends, ends, assign_no_edge value s (Stem.edge?_self stem)]
      rfl
    · refine (if_pos whole).trans ?_
      obtain ⟨d, taken, within, left⟩ := h.takeToFind_edge starts
      rw [taken, starts, assign_edge]
      simp only
      cases found : s.find? b with
      | error e => rfl
      | ok child? =>
        cases child? with
        | none => rfl
        | some child => simp only [ih b child found within, left]; rfl

theorem removeAlong_eq (n : Node V) {key : Cursor} (h : key.Within) :
    n.removeAlong key = n.remove key.rest := by
  induction n using induct_find? generalizing key with
  | leaf suffix value hits => rw [removeAlong, remove]
  | inner stem s ih =>
    rw [removeAlong.eq_def]
    rcases Stem.short_or_past stem key.rest with cut | ⟨whole, ends | ⟨b, tail, starts⟩⟩
    · rw [remove_no_edge s (if_neg (Nat.ne_of_lt cut))]
      exact if_neg (Nat.ne_of_lt cut)
    · refine (if_pos whole).trans ?_
      rw [h.takeToRemove_end ends, ends, remove_no_edge s (Stem.edge?_self stem)]
      rfl
    · refine (if_pos whole).trans ?_
      obtain ⟨d, taken, within, left⟩ := h.takeToRemove_edge starts
      rw [taken, starts, remove_edge]
      simp only
      cases found : s.find? b with
      | error e => rfl
      | ok child? =>
        cases child? with
        | none => rfl
        | some child =>
          cases child with
          | leaf suffix value hits => simp only [left]; rfl
          | inner stem' s' => simp only [ih b _ found within, left]; rfl

end Node

end AdaptiveRadix
