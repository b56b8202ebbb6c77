import AdaptiveRadix.Proofs.Map.Ledger
import AdaptiveRadix.Proofs.Node.Levels

/-!
A tree is bounded by what it stores. Removals leave no inner node with less than two children, so
neither the number of inner nodes nor the height depends on what a tree has held before.
-/

namespace AdaptiveRadix

variable {V : Type}

def Dictionary.longest (d : Dictionary V) : Nat :=
  (d.map (·.key.length)).max?.getD 0

theorem Dictionary.length_le_longest {d : Dictionary V} {e : Entry V} (he : e ∈ d) :
    e.key.length ≤ d.longest :=
  List.le_max?_getD_of_mem (List.mem_map_of_mem he)

namespace Tree

variable {t : Tree V} {d : Dictionary V}

def levels (t : Tree V) : List (Nat × Entry V) :=
  t.root.elim [] Node.levels

/-- The nodes of a tree are bounded by what it stores: in number and in height by the number of the
entries, and on the way to a leaf by the length of its key. -/
structure Bounded (t : Tree V) (d : Dictionary V) : Prop where
  levels_eq : t.levels.map (·.2) = d
  level_le : ∀ p ∈ t.levels, p.1 ≤ p.2.key.length
  innerNodes_le : 1 ≤ d.length → (Census.ofTree t).innerNodes ≤ d.length - 1
  height_le_length : t.height ≤ d.length
  height_le_longest : 1 ≤ d.length → t.height ≤ 1 + d.longest
  census_height : (Census.ofTree t).height = t.height
  empty : d.length = 0 → t.root = none ∧ t.height = 0

theorem bounded_of_forked (h : t.Sound) (forked : t.Forked) : t.Bounded t.entries := by
  obtain ⟨_ | n⟩ := t
  · exact ⟨rfl, fun p hp => absurd hp List.not_mem_nil, fun _ => Nat.zero_le _, Nat.zero_le _,
      fun _ => Nat.zero_le _, rfl, fun _ => ⟨rfl, rfl⟩⟩
  · have sound := sound_some.1 h
    have forked := filled_some.1 forked
    have fewer := Node.length_forks_lt sound forked
    have inner : (Census.ofTree ⟨some n⟩).innerNodes = n.forks.length := by
      rw [← Node.total_population, Census.innerNodes]
      simp only [nodes_ofTree]
      rfl
    refine ⟨Node.map_snd_levels n, fun p hp => Node.level_le_length hp, fun _ => ?_, ?_,
      fun _ => ?_, height_ofTree _, fun none_left => ?_⟩
    · rw [inner]
      exact Nat.le_sub_one_of_lt fewer
    · exact Nat.le_trans (Node.height_le_length_forks n) fewer
    · refine (Node.height_le_iff sound forked).2 fun p hp => ?_
      have stored : p.2 ∈ n.entries := Node.map_snd_levels n ▸ List.mem_map_of_mem hp
      calc p.1 ≤ p.2.key.length := Node.level_le_length hp
        _ ≤ Dictionary.longest n.entries := Dictionary.length_le_longest stored
        _ < 1 + Dictionary.longest n.entries := Nat.lt_add_of_pos_left Nat.zero_lt_one
    · rw [entries_some] at none_left
      omega

theorem run_bounded (steps : List (Step V)) (o : Outcome (Tree V) (List (Reply V)))
    (reached : run empty steps = .ok o) :
    o.after.Bounded (Outcome.replay Dictionary.treeStep [] steps).2 := by
  have holds : (Tree.empty : Tree V).Holds (fun l n => l.minimum ≤ n) [] :=
    ⟨sound_empty, filled_empty, rfl⟩
  rcases simulates_run Layout.stable_minimum holds steps with
    ⟨-, o', done, ⟨sound, filled, entries⟩, -⟩ | ⟨-, faulted⟩
  · rw [reached] at done
    cases done
    exact entries ▸ bounded_of_forked sound (filled.forked sound Layout.stable_minimum)
  · rw [reached] at faulted
    contradiction

end Tree

namespace Map

/-- After every run from the empty map, whatever was inserted and removed in it, the nodes are
bounded by the entries that are left. -/
theorem bounded_of_run (steps : List (Step V)) (o : Outcome (Map V) (List (Reply V)))
    (reached : run empty steps = .ok o) :
    o.after.size = (Dictionary.run [] steps).2.length ∧
      o.after.tree.Bounded (Dictionary.run [] steps).2 := by
  have represents := represents_of_run reached
  obtain ⟨sound, filled, entries⟩ := represents.holds
  exact ⟨represents.size, entries ▸ Tree.bounded_of_forked sound
    (filled.forked sound Layout.stable_minimum)⟩

theorem bounded_of_run_fork_removed :
    ∃ o, run (empty : Map Nat) [.insert [7, 1, 1] 10, .insert [7, 1, 2] 20, .insert [7, 2] 30,
        .record [7, 2] 40, .remove [7, 1, 1]] = .ok o ∧
      o.after.size = 2 ∧ o.after.tree.Bounded [⟨[7, 1, 2], 20, 1⟩, ⟨[7, 2], 30, 2⟩] := by
  obtain ⟨o, reached⟩ := Checked.exists_of_isOk (x := run (empty : Map Nat)
    [.insert [7, 1, 1] 10, .insert [7, 1, 2] 20, .insert [7, 2] 30, .record [7, 2] 40,
      .remove [7, 1, 1]]) (by decide +kernel)
  exact ⟨o, reached, bounded_of_run _ o reached⟩

end Map

end AdaptiveRadix
