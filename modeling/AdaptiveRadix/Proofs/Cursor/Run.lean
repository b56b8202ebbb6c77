import AdaptiveRadix.Cursor.Step
import AdaptiveRadix.Proofs.Cursor

/-!
Any number of moves and readings, with offsets of any size, keep a cursor inside its key. What was
consumed and what remains are together the key, a request is refused exactly if it asks for more
than remains, and then the cursor stays where it is.
-/

namespace AdaptiveRadix.Cursor

variable {c d : Cursor} {bytes : Bytes} {k : Nat} {n : UInt64}

/-- The first `k` bytes of the key are consumed, and no counter has wrapped around. -/
structure Placed (bytes : Bytes) (k : Nat) (c : Cursor) : Prop where
  bytes_eq : c.bytes = bytes
  length_eq : c.length.toNat = bytes.length
  position_eq : c.position.toNat = k
  position_le : c.position.toNat ≤ bytes.length
  position_add_remaining : c.position.toNat + c.remaining.toNat = bytes.length
  rest_eq : c.rest = bytes.drop k

structure Answers (c : Cursor) (n : UInt64) : Prop where
  moves : n ≤ c.remaining → ∃ d, c.step (.advance n) = (.ok .moved, d) ∧
    d.rest = c.rest.drop n.toNat ∧ d.position.toNat = c.position.toNat + n.toNat
  stays : c.remaining < n → c.step (.advance n) = (.error (.outOfRange n c.remaining), c)
  reads : n < c.remaining → ∃ b, c.rest[n.toNat]? = some b ∧
    c.step (.peek n) = (.ok (.byte b), c)
  misses : c.remaining ≤ n → c.step (.peek n) = (.error (.outOfRange n c.remaining), c)
  sum_eq : ∀ i, sum? c.position n = some i → i.toNat = c.position.toNat + n.toNat

theorem toNat_of_sum? {a b i : UInt64} (h : sum? a b = some i) :
    i.toNat = a.toNat + b.toNat := by
  rw [sum?] at h
  split at h
  · next fits =>
    cases h
    exact Checked.toNat_add fits
  · cases h

theorem Within.placed (h : c.Within) : c.Placed c.bytes c.position.toNat where
  bytes_eq := rfl
  length_eq := h.toNat_length
  position_eq := rfl
  position_le := h.position_le
  position_add_remaining := by
    rw [h.toNat_remaining]
    exact Nat.add_sub_cancel' h.position_le
  rest_eq := rfl

theorem Within.le_remaining_iff (h : c.Within) : n ≤ c.remaining ↔ n.toNat ≤ c.rest.length := by
  rw [UInt64.le_iff_toNat_le, h.toNat_remaining, length_rest]

theorem Within.lt_remaining_iff (h : c.Within) : n < c.remaining ↔ n.toNat < c.rest.length := by
  rw [UInt64.lt_iff_toNat_lt, h.toNat_remaining, length_rest]

theorem Within.answers (h : c.Within) (n : UInt64) : c.Answers n where
  moves fits := by
    obtain ⟨d, moved, -, rest⟩ := h.advance_eq_ok (h.le_remaining_iff.1 fits)
    refine ⟨d, ?_, rest, (h.toNat_position moved).1⟩
    rw [step, moved]
  stays far := by
    have beyond : c.rest.length < n.toNat := by
      rw [← Nat.not_le, ← h.le_remaining_iff, UInt64.not_le]
      exact far
    rw [step, h.advance_eq_error beyond, h.remaining_eq]
  reads inside := by
    have found := List.getElem?_eq_getElem (h.lt_remaining_iff.1 inside)
    refine ⟨_, found, ?_⟩
    rw [step, h.peek_eq, found]
    rfl
  misses outside := by
    have beyond : c.rest.length ≤ n.toNat := by
      rw [← Nat.not_lt, ← h.lt_remaining_iff, UInt64.not_lt]
      exact outside
    rw [step, h.peek_eq, List.getElem?_eq_none beyond, h.remaining_eq]
    rfl
  sum_eq _ := toNat_of_sum?

theorem Within.step (h : c.Within) (i : Step) :
    (c.step i).2.Within ∧ (c.step i).2.bytes = c.bytes ∧
      (c.step i).2.position.toNat = c.position.toNat + i.consumes (c.step i).1 := by
  cases i with
  | peek offset => exact ⟨h, rfl, rfl⟩
  | advance n =>
    rw [Cursor.step]
    cases moved : c.advance n with
    | error e => exact ⟨h, rfl, rfl⟩
    | ok d => exact ⟨h.advance moved, bytes_of_advance moved, (h.toNat_position moved).1⟩

theorem Within.run (h : c.Within) (steps : List Step) :
    (c.run steps).2.Within ∧ (c.run steps).2.bytes = c.bytes ∧
      (c.run steps).2.position.toNat = c.position.toNat + consumed steps (c.run steps).1 := by
  induction steps generalizing c with
  | nil => exact ⟨h, rfl, rfl⟩
  | cons i steps ih =>
    obtain ⟨within, bytes, position⟩ := h.step i
    obtain ⟨within', bytes', position'⟩ := ih within
    refine ⟨within', bytes'.trans bytes, position'.trans ?_⟩
    rw [position, Nat.add_assoc]
    rfl

/-- After any run over a key whose length is a word, what is left is the key without the bytes that
the accepted moves consumed, and the cursor answers every further request as it should. -/
theorem run_ofBytes_placed (size : bytes.length < UInt64.size) (steps : List Step) :
    Placed bytes (consumed steps (run (ofBytes bytes) steps).1) (run (ofBytes bytes) steps).2 ∧
      ∀ n, Answers (run (ofBytes bytes) steps).2 n := by
  obtain ⟨within, same, position⟩ := (within_ofBytes size).run steps
  have start : (ofBytes bytes).position.toNat = 0 := rfl
  have placed := within.placed
  rw [same, position, start, Nat.zero_add] at placed
  exact ⟨placed, within.answers⟩

def farOffsets : List Step :=
  [.advance 1, .peek 0xffffffffffffffff, .advance 0xffffffffffffffff, .peek 1, .advance 1]

theorem run_ofBytes_placed_farOffsets :
    ([97, 98, 99] : Bytes).length < UInt64.size ∧
      (run (ofBytes [97, 98, 99]) farOffsets).1 =
        [.ok .moved, .error (.outOfRange 0xffffffffffffffff 2),
          .error (.outOfRange 0xffffffffffffffff 2), .ok (.byte 99), .ok .moved] ∧
      (run (ofBytes [97, 98, 99]) farOffsets).2.rest = [99] ∧
      (run (ofBytes [97, 98, 99]) farOffsets).2.step (.advance 2) =
        (.error (.outOfRange 2 1), (run (ofBytes [97, 98, 99]) farOffsets).2) := by
  have size : ([97, 98, 99] : Bytes).length < UInt64.size := by decide
  obtain ⟨placed, answers⟩ := run_ofBytes_placed size farOffsets
  exact ⟨size, rfl, placed.rest_eq, (answers 2).stays (by decide)⟩

end AdaptiveRadix.Cursor
