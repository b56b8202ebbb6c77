import AdaptiveRadix.Bytes
import AdaptiveRadix.Fault

/-!
Stems, the runs of key bytes that nodes hold. A split cuts a stem at the first byte that differs,
and a collapse joins two stems around the byte of the edge between them.
-/

namespace AdaptiveRadix.Stem

def before (stem : Bytes) (length : Nat) : Checked Bytes :=
  if length ≤ stem.length then .ok (stem.take length) else .error .outOfBounds

def after (stem : Bytes) (start : Nat) : Checked Bytes :=
  if start ≤ stem.length then .ok (stem.drop start) else .error .outOfBounds

def byteAt (stem : Bytes) (position : Nat) : Checked UInt8 :=
  match stem[position]? with
  | some b => .ok b
  | none => .error .outOfBounds

def joined (stem : Bytes) (edge : UInt8) (tail : Bytes) : Bytes :=
  stem ++ edge :: tail

def commonLength : Bytes → Bytes → Nat
  | a :: as, b :: bs => if a = b then commonLength as bs + 1 else 0
  | _, _ => 0

theorem commonLength_le_left (a b : Bytes) : commonLength a b ≤ a.length := by
  fun_induction commonLength a b <;> simp_all

theorem commonLength_le_right (a b : Bytes) : commonLength a b ≤ b.length := by
  fun_induction commonLength a b <;> simp_all

theorem take_commonLength (a b : Bytes) :
    a.take (commonLength a b) = b.take (commonLength a b) := by
  fun_induction commonLength a b <;> simp_all

theorem commonLength_eq_left_iff (a b : Bytes) : commonLength a b = a.length ↔ a <+: b := by
  fun_induction commonLength a b with
  | case1 as b bs ih => simp [ih]
  | case2 a as b bs h => simp [h]
  | case3 a b h =>
    cases a with
    | nil => simp
    | cons a as =>
      cases b with
      | nil => simp
      | cons b bs => exact absurd rfl (h a as b bs rfl)

/-- The byte after `stem` in `key` and what follows it, if `stem` is a proper beginning of `key`. -/
def edge? (stem key : Bytes) : Option (UInt8 × Bytes) :=
  if commonLength stem key = stem.length then
    match key.drop stem.length with
    | [] => none
    | b :: rest => some (b, rest)
  else none

theorem edge?_eq_some_iff {stem key rest : Bytes} {b : UInt8} :
    edge? stem key = some (b, rest) ↔ key = stem ++ b :: rest := by
  unfold edge?
  split
  · next h =>
    obtain ⟨t, rfl⟩ := (commonLength_eq_left_iff stem key).1 h
    rw [List.drop_left]
    cases t <;> simp
  · next h =>
    simp only [reduceCtorEq, false_iff]
    rintro rfl
    exact h ((commonLength_eq_left_iff _ _).2 (List.prefix_append _ _))

theorem length_lt_of_edge? {stem key rest : Bytes} {b : UInt8}
    (h : edge? stem key = some (b, rest)) : rest.length < key.length := by
  rw [edge?_eq_some_iff.1 h]
  simp
  omega

end AdaptiveRadix.Stem
