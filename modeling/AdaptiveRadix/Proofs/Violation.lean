import AdaptiveRadix.Proofs.Tree
import AdaptiveRadix.Violation

/-!
The rules that a check looks for. It finds no violation exactly if every inner node keeps them all.
If the storages come from the operations, whatever was done with them, the tree is then sound.
-/

namespace AdaptiveRadix

/-- The rules for the children of one inner node. -/
structure Storage.Regular {α : Type} (s : Storage α) : Prop where
  several : 2 ≤ s.count
  enough : s.layout.minimum ≤ s.count
  room : s.count ≤ s.width
  complete : s.children.length = s.count
  ascending : (s.children.map (·.1)).Pairwise (· < ·)
  held : s.held = s.children.map (·.1)

theorem Storage.Sound.regular {α : Type} {s : Storage α} (h : s.Sound)
    (enough : s.layout.minimum ≤ s.count) : s.Regular where
  several := Nat.le_trans s.layout.two_le_minimum enough
  enough := enough
  room := count_le h
  complete := length_children h
  ascending := (ascending_children h).keys
  held := held_eq h

theorem Storage.Built.sound {α : Type} {s : Storage α} (h : s.Built) (regular : s.Regular) :
    s.Sound :=
  h.steady.sound regular.complete (regular.held ▸ regular.ascending)

theorem Node.Built.sound {V : Type} {n : Node V} (built : n.Built)
    (regular : n.Each Storage.Regular) : n.Sound := by
  induction n using induct with
  | leaf suffix value hits => exact sound_leaf ..
  | inner stem s ih =>
    obtain ⟨here, below⟩ := built_inner.1 built
    obtain ⟨here', below'⟩ := each_inner.1 regular
    exact sound_inner.2 ⟨here.sound here', fun c hc => ih c hc (below c hc) (below' c hc)⟩

namespace Violation

theorem ofStorage?_eq_none_iff {α : Type} {path : Bytes} {s : Storage α} :
    ofStorage? path s = none ↔ s.Regular := by
  rw [ofStorage?]
  constructor
  · intro clean
    split at clean
    · contradiction
    next room =>
    split at clean
    · contradiction
    next complete =>
    split at clean
    · contradiction
    next ordered =>
    split at clean
    · contradiction
    next several =>
    split at clean
    · contradiction
    next enough =>
    have several := Nat.not_lt.1 several
    obtain ⟨ascending, held⟩ := not_or.1 ordered
    refine ⟨several, ?_, Nat.not_lt.1 room, ?_, not_not.1 ascending, not_not.1 held⟩
    · by_cases smallest : s.layout = .keyed4
      · rw [smallest]
        exact several
      · exact Nat.not_lt.1 fun few => enough ⟨few, smallest⟩
    · rw [← not_not.1 complete, List.length_map]
  · rintro ⟨several, enough, room, complete, ascending, held⟩
    rw [if_neg (Nat.not_lt.2 room), if_neg (by rw [List.length_map, complete]; exact not_not.2 rfl),
      if_neg (not_or.2 ⟨not_not.2 ascending, not_not.2 held⟩), if_neg (Nat.not_lt.2 several),
      if_neg fun few => Nat.not_lt.2 enough few.1]

theorem ofNode?_eq_none_iff {V : Type} {n : Node V} (path : Bytes) :
    ofNode? n path = none ↔ n.Each Storage.Regular := by
  induction n using Node.induct generalizing path with
  | leaf suffix value hits => exact iff_of_true (ofNode?_leaf ..) (Node.each_leaf ..)
  | inner stem s ih =>
    rw [ofNode?_inner, Option.or_eq_none_iff, ofStorage?_eq_none_iff, List.findSome?_eq_none_iff,
      Node.each_inner]
    exact and_congr_right fun _ => forall₂_congr fun c hc => ih c hc _

end Violation

namespace Tree

variable {V : Type} {t : Tree V}

theorem check_eq_ok_iff :
    t.check = .ok () ↔ ∀ n ∈ t.root, n.Each Storage.Regular := by
  obtain ⟨_ | n⟩ := t
  · exact iff_of_true rfl fun _ hn => nomatch hn
  · simp only [check, Option.bind_some, Option.mem_def, Option.some.injEq, forall_eq']
    refine Iff.trans ?_ (Violation.ofNode?_eq_none_iff [])
    cases Violation.ofNode? n [] <;> simp

theorem Built.sound_of_check (built : t.Built) (accepted : t.check = .ok ()) : t.Sound :=
  fun n hn => (built n hn).sound (check_eq_ok_iff.1 accepted n hn)

theorem Built.filled_of_check (built : t.Built) (accepted : t.check = .ok ()) :
    t.Filled fun l n => l.minimum ≤ n := fun n hn =>
  Node.Each.mono (fun _ _ regular => regular.enough) (built.sound_of_check accepted n hn)
    (check_eq_ok_iff.1 accepted n hn)

end Tree

end AdaptiveRadix
