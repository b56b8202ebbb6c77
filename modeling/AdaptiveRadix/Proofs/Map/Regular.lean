import AdaptiveRadix.Proofs.Map
import AdaptiveRadix.Proofs.Violation

/-!
Every map that a run reaches passes the check: the layouts grow and shrink at the same numbers of
children, and a node that would keep one child is merged with it.
-/

namespace AdaptiveRadix.Map

open Dictionary

variable {V : Type} {m : Map V} {d : Dictionary V}

theorem Represents.regular (h : Represents m d) : ∀ n ∈ m.tree.root, n.Each Storage.Regular :=
  fun n hn => (h.holds.filled n hn).mono (fun _ sound enough => sound.regular enough)
    (h.holds.sound n hn)

theorem Represents.root_eq_none_iff (h : Represents m d) : m.tree.root = none ↔ m.size = 0 := by
  rw [Tree.root_eq_none_iff h.holds.sound
    (Tree.Filled.forked h.holds.sound Layout.stable_minimum h.holds.filled), h.holds.entries,
    h.size, List.length_eq_zero_iff]

theorem represents_of_run {steps : List (Step V)} {o : Outcome (Map V) (List (Reply V))}
    (reached : run empty steps = .ok o) : Represents o.after (Dictionary.run [] steps).2 := by
  rcases simulates_run represents_empty steps with ⟨-, o', done, represents, -⟩ | ⟨-, faulted⟩
  · rw [reached] at done
    cases done
    exact represents
  · rw [reached] at faulted
    contradiction

theorem built_of_run {steps : List (Step V)} {o : Outcome (Map V) (List (Reply V))}
    (reached : run empty steps = .ok o) : o.after.tree.Built :=
  (represents_of_run reached).built

/-- After every run from the empty map the check finds nothing, every inner node keeps all the
rules, and the root slot is empty exactly if the map is. -/
theorem check_eq_ok_of_run (steps : List (Step V)) (o : Outcome (Map V) (List (Reply V)))
    (reached : run empty steps = .ok o) :
    o.after.tree.check = .ok () ∧ (∀ n ∈ o.after.tree.root, n.Each Storage.Regular) ∧
      (o.after.tree.root = none ↔ o.after.size = 0) := by
  have represents := represents_of_run reached
  have regular := represents.regular
  exact ⟨Tree.check_eq_ok_iff.2 regular, regular, represents.root_eq_none_iff⟩

theorem check_eq_ok_of_run_grow_shrink :
    ∃ o, run (empty : Map Nat) [.insert [7, 1] 10, .insert [7, 2] 20, .insert [7, 3] 30,
        .insert [7, 4] 40, .insert [7, 5] 50, .remove [7, 5], .remove [7, 4], .remove [7, 3],
        .remove [7, 2], .insert [7, 1, 0] 11] = .ok o ∧
      o.after.tree.check = .ok () ∧ (∀ n ∈ o.after.tree.root, n.Each Storage.Regular) ∧
      (o.after.tree.root = none ↔ o.after.size = 0) := by
  obtain ⟨o, reached⟩ := Checked.exists_of_isOk (x := run (empty : Map Nat) [.insert [7, 1] 10,
    .insert [7, 2] 20, .insert [7, 3] 30, .insert [7, 4] 40, .insert [7, 5] 50, .remove [7, 5],
    .remove [7, 4], .remove [7, 3], .remove [7, 2], .insert [7, 1, 0] 11]) (by decide +kernel)
  exact ⟨o, reached, check_eq_ok_of_run _ o reached⟩

end AdaptiveRadix.Map
