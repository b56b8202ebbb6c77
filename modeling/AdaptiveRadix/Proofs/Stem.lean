import AdaptiveRadix.Stem
import Mathlib.Tactic.Common

/-!
How two strings of bytes can lie to each other: one is a beginning of the other, or they part at one
byte. The common length and the edge of a key past a stem are computed in each case.
-/

namespace AdaptiveRadix.Stem

theorem commonLength_append (x t : Bytes) : commonLength x (x ++ t) = x.length :=
  (commonLength_eq_left_iff _ _).2 (List.prefix_append _ _)

theorem commonLength_append_left (x t : Bytes) : commonLength (x ++ t) x = x.length := by
  induction x with
  | nil => cases t <;> rfl
  | cons c x ih => rw [List.cons_append, commonLength, if_pos rfl, ih, List.length_cons]

theorem commonLength_parted {a b : UInt8} (different : a ≠ b) (p as bs : Bytes) :
    commonLength (p ++ a :: as) (p ++ b :: bs) = p.length := by
  induction p with
  | nil => exact if_neg different
  | cons c p ih => rw [List.cons_append, List.cons_append, commonLength, if_pos rfl, ih,
      List.length_cons]

theorem prefix_or_parted (x y : Bytes) :
    x <+: y ∨ y <+: x ∨ ∃ p a as b bs, x = p ++ a :: as ∧ y = p ++ b :: bs ∧ a ≠ b := by
  induction x generalizing y with
  | nil => exact .inl List.nil_prefix
  | cons a x ih =>
    cases y with
    | nil => exact .inr (.inl List.nil_prefix)
    | cons b y =>
      by_cases same : a = b
      · subst same
        rcases ih y with le | ge | ⟨p, c, cs, d, ds, rfl, rfl, different⟩
        · exact .inl ((List.prefix_cons_inj a).2 le)
        · exact .inr (.inl ((List.prefix_cons_inj a).2 ge))
        · exact .inr (.inr ⟨a :: p, c, cs, d, ds, rfl, rfl, different⟩)
      · exact .inr (.inr ⟨[], a, x, b, y, rfl, rfl, same⟩)

theorem short_or_past (stem key : Bytes) :
    commonLength stem key < stem.length ∨
      commonLength stem key = stem.length ∧
        (key = stem ∨ ∃ b tail, key = stem ++ b :: tail) := by
  rcases Nat.lt_or_eq_of_le (commonLength_le_left stem key) with cut | whole
  · exact .inl cut
  · obtain ⟨tail, rfl⟩ := (commonLength_eq_left_iff stem key).1 whole
    refine .inr ⟨whole, ?_⟩
    cases tail with
    | nil => exact .inl (List.append_nil stem)
    | cons b tail => exact .inr ⟨b, tail, rfl⟩

theorem edge?_append (stem : Bytes) (b : UInt8) (rest : Bytes) :
    edge? stem (stem ++ b :: rest) = some (b, rest) :=
  edge?_eq_some_iff.2 rfl

theorem edge?_self (stem : Bytes) : edge? stem stem = none :=
  Option.eq_none_iff_forall_ne_some.2 fun (b, rest) found => by
    simpa using edge?_eq_some_iff.1 found

end AdaptiveRadix.Stem
