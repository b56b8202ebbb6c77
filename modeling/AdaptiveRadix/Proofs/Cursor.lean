import AdaptiveRadix.Cursor
import AdaptiveRadix.Fault
import Mathlib.Tactic.Common

/-!
A cursor that starts at the front of a key never leaves it: what it has consumed and what remains
are together the length of the key, and no sum or difference wraps around.
-/

namespace AdaptiveRadix.Cursor

variable {c d : Cursor} {n : UInt64}

/-- The position lies in the key, and the key's length is a word. -/
structure Within (c : Cursor) : Prop where
  position_le : c.position.toNat ≤ c.bytes.length
  length_lt : c.bytes.length < UInt64.size

theorem within_ofBytes {bytes : Bytes} (h : bytes.length < UInt64.size) : (ofBytes bytes).Within :=
  ⟨Nat.zero_le _, h⟩

theorem Within.toNat_length (h : c.Within) : c.length.toNat = c.bytes.length :=
  Nat.mod_eq_of_lt h.length_lt

theorem Within.toNat_remaining (h : c.Within) :
    c.remaining.toNat = c.bytes.length - c.position.toNat := by
  have le : c.position ≤ c.length := by
    rw [UInt64.le_iff_toNat_le, h.toNat_length]
    exact h.position_le
  rw [remaining, UInt64.toNat_sub_of_le _ _ le, h.toNat_length]

theorem Within.toNat_position (h : c.Within) (moved : c.advance n = .ok d) :
    d.position.toNat = c.position.toNat + n.toNat ∧ n.toNat ≤ c.remaining.toNat := by
  rw [advance] at moved
  split at moved
  · cases moved
  · next fits =>
    cases moved
    rw [UInt64.not_lt, UInt64.le_iff_toNat_le] at fits
    have bound := h.position_le
    have size := h.length_lt
    have left := h.toNat_remaining
    exact ⟨Checked.toNat_add (by omega), fits⟩

theorem bytes_of_advance (moved : c.advance n = .ok d) : d.bytes = c.bytes := by
  rw [Cursor.advance] at moved
  split at moved <;> cases moved
  rfl

theorem Within.advance (h : c.Within) (moved : c.advance n = .ok d) : d.Within := by
  obtain ⟨position, fits⟩ := h.toNat_position moved
  have same := bytes_of_advance moved
  have bound := h.position_le
  rw [h.toNat_remaining] at fits
  exact ⟨by rw [position, same]; omega, same ▸ h.length_lt⟩

theorem length_rest (c : Cursor) : c.rest.length = c.bytes.length - c.position.toNat :=
  List.length_drop ..

theorem toNat_toUInt64 {k : Nat} (h : k < UInt64.size) : k.toUInt64.toNat = k :=
  Nat.mod_eq_of_lt h

section Within

variable (h : c.Within)

include h

theorem Within.remaining_eq : c.remaining = c.rest.length.toUInt64 := by
  have size := h.length_lt
  rw [← UInt64.toNat_inj, h.toNat_remaining, length_rest, toNat_toUInt64 (by omega)]

theorem Within.advance_eq_ok (fits : n.toNat ≤ c.rest.length) :
    ∃ d, c.advance n = .ok d ∧ d.Within ∧ d.rest = c.rest.drop n.toNat := by
  have enough : ¬c.remaining < n := by
    rw [UInt64.not_lt, UInt64.le_iff_toNat_le, h.toNat_remaining, ← length_rest]
    exact fits
  have moved : c.advance n = .ok { c with position := c.position + n } := if_neg enough
  refine ⟨_, moved, h.advance moved, ?_⟩
  rw [rest, (h.toNat_position moved).1, rest, List.drop_drop]

theorem Within.advance_eq_error (far : c.rest.length < n.toNat) :
    c.advance n = .error (.outOfRange n c.rest.length.toUInt64) := by
  have short : c.remaining < n := by
    rw [UInt64.lt_iff_toNat_lt, h.toNat_remaining, ← length_rest]
    exact far
  rw [← h.remaining_eq]
  exact if_pos short

theorem Within.advance_past (stem : Bytes) {tail : Bytes} (starts : c.rest = stem ++ tail) :
    ∃ d, c.advance stem.length.toUInt64 = .ok d ∧ d.Within ∧ d.rest = tail := by
  have bound : c.rest.length = stem.length + tail.length := by rw [starts, List.length_append]
  have size := h.length_lt
  have whole := c.length_rest
  have length : stem.length.toUInt64.toNat = stem.length := toNat_toUInt64 (by omega)
  obtain ⟨d, moved, within, rest⟩ := h.advance_eq_ok (n := stem.length.toUInt64) (by omega)
  refine ⟨d, moved, within, ?_⟩
  rw [rest, length, starts, List.drop_left]

theorem Within.isExhausted_iff : c.isExhausted = true ↔ c.rest = [] := by
  rw [isExhausted, decide_eq_true_iff, UInt64.le_iff_toNat_le, h.toNat_length, rest,
    List.drop_eq_nil_iff]

theorem Within.peek_eq (offset : UInt64) : c.peek offset =
    match c.rest[offset.toNat]? with
    | some b => .ok b
    | none => .error (.outOfRange offset c.rest.length.toUInt64) := by
  have same : ((sum? c.position offset).bind fun i => c.bytes[i.toNat]?) =
      c.rest[offset.toNat]? := by
    rw [rest, List.getElem?_drop, sum?]
    split
    · next fits =>
      exact congrArg (c.bytes[·]?) (Checked.toNat_add fits)
    · next wraps =>
      have size := h.length_lt
      rw [List.getElem?_eq_none (by omega), Option.bind_none]
  rw [peek, same]
  cases c.rest[offset.toNat]? with
  | some b => rfl
  | none => simp only [h.remaining_eq]

end Within

end AdaptiveRadix.Cursor
