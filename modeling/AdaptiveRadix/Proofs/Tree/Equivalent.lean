import AdaptiveRadix.Proofs.Tree

/-!
Trees with the same entries cannot be told apart, whatever layouts their nodes have and however few
children the nodes hold for their layouts. Only the forks matter, and the operations keep them.
-/

namespace AdaptiveRadix

open Dictionary

variable {V : Type} {t u : Tree V}

def Dictionary.TreeRunFits (d : Dictionary V) (steps : List (Tree.Step V)) : Prop :=
  Outcome.AllFit treeStep TreeStepFits d steps

namespace Tree

/-- Both trees have distinct edges and at least two of them at every inner node, and both hold the
same entries. -/
structure Equivalent (t u : Tree V) : Prop where
  sound_left : t.Sound
  sound_right : u.Sound
  forked_left : t.Forked
  forked_right : u.Forked
  mem_iff : ∀ e, e ∈ t.entries ↔ e ∈ u.entries

theorem Equivalent.entries_eq (h : t.Equivalent u) : t.entries = u.entries :=
  (ordered_entries h.sound_left).ext (ordered_entries h.sound_right) h.mem_iff

/-- A run answers the same on equivalent trees and leaves them equivalent, or faults on both, which
happens exactly if a hit counter would overflow. -/
theorem run_of_equivalent (h : t.Equivalent u) (steps : List (Step V)) :
    (TreeRunFits t.entries steps ∧ ∃ o p, t.run steps = .ok o ∧ u.run steps = .ok p ∧
      o.answer = p.answer ∧ o.after.Equivalent p.after) ∨
    ¬ TreeRunFits t.entries steps ∧ t.run steps = .error .counterOverflow ∧
      u.run steps = .error .counterOverflow := by
  have left := simulates_run Layout.stable_several ⟨h.sound_left, h.forked_left, rfl⟩ steps
  have right := simulates_run Layout.stable_several
    ⟨h.sound_right, h.forked_right, h.entries_eq.symm⟩ steps
  rcases left with ⟨fits, o, done, holds, answer⟩ | ⟨overflow, faulted⟩
  · obtain ⟨-, p, done', holds', answer'⟩ := right.resolve_right fun other => other.1 fits
    refine .inl ⟨fits, o, p, done, done', answer.trans answer'.symm, holds.sound, holds'.sound,
      holds.filled, holds'.filled, fun e => ?_⟩
    rw [holds.entries, holds'.entries]
  · obtain ⟨-, faulted'⟩ := right.resolve_left fun other => overflow other.1
    exact .inr ⟨overflow, faulted, faulted'⟩

theorem exists_forked (l : Layout) (stem : Bytes) {cs : List (UInt8 × Node V)}
    (ascending : Edges.Ascending cs) (several : 2 ≤ cs.length) (fits : cs.length ≤ l.width)
    (below : ∀ c ∈ cs, c.2.Sound ∧ c.2.Forked) :
    ∃ s, s.layout = l ∧ s.children = cs ∧ Sound ⟨some (.inner stem s)⟩ ∧
      Forked ⟨some (.inner stem s)⟩ := by
  obtain ⟨s, sound, layout, same⟩ := Storage.exists_children_eq l ascending fits
  refine ⟨s, layout, same, sound_some.2 (Node.sound_inner.2 ⟨sound, fun c hc => ?_⟩),
    filled_some.2 (Node.filled_inner.2 ⟨?_, fun c hc => ?_⟩)⟩
  · exact (below c (same ▸ hc)).1
  · rwa [← Storage.length_children sound, same]
  · exact (below c (same ▸ hc)).2

theorem run_of_equivalent_direct256_keyed4 :
    ∃ t u : Tree Nat, t.root.map Node.shape = some (.inner .direct256) ∧
      u.root.map Node.shape = some (.inner .keyed4) ∧ t.Equivalent u ∧
      ∃ o p, t.run [.record (.ofBytes [7, 1]) 0 0, .delete (.ofBytes [7, 2])] = .ok o ∧
        u.run [.record (.ofBytes [7, 1]) 0 0, .delete (.ofBytes [7, 2])] = .ok p ∧
        o.answer = p.answer ∧ o.after.Equivalent p.after := by
  have ascending : Edges.Ascending [(1, Node.leaf [] 10 1), (2, Node.leaf [] 20 1)] := by
    simp [Edges.Ascending]
  have below : ∀ c ∈ [((1 : UInt8), Node.leaf [] 10 1), (2, .leaf [] 20 1)],
      c.2.Sound ∧ c.2.Forked := by
    simp [Node.sound_leaf, Node.Forked, Node.filled_leaf]
  obtain ⟨s, layout, same, sound, forked⟩ :=
    exists_forked .direct256 [7] ascending (by decide) (by decide) below
  obtain ⟨s', layout', same', sound', forked'⟩ :=
    exists_forked .keyed4 [7] ascending (by decide) (by decide) below
  have entries (r : Storage (Node Nat))
      (hr : r.children = [(1, .leaf [] 10 1), (2, .leaf [] 20 1)]) :
      entries ⟨some (.inner [7] r)⟩ = [⟨[7, 1], 10, 1⟩, ⟨[7, 2], 20, 1⟩] := by
    rw [entries_some, Node.entries_inner, hr]
    simp [Node.entries_leaf]
  have equivalent : Equivalent ⟨some (.inner [7] s)⟩ ⟨some (.inner [7] s')⟩ :=
    ⟨sound, sound', forked, forked', fun e => by rw [entries s same, entries s' same']⟩
  refine ⟨⟨some (.inner [7] s)⟩, ⟨some (.inner [7] s')⟩, congrArg (some ∘ Shape.inner) layout,
    congrArg (some ∘ Shape.inner) layout', equivalent, ?_⟩
  rcases run_of_equivalent equivalent
    [.record (.ofBytes [7, 1]) 0 0, .delete (.ofBytes [7, 2])] with ⟨-, agree⟩ | ⟨overflow, -⟩
  · exact agree
  · refine absurd ?_ overflow
    rw [entries s same]
    refine ⟨?_, trivial, trivial⟩
    rintro c advanced e he -
    simp only [List.mem_cons, List.not_mem_nil, or_false] at he
    rcases he with rfl | rfl <;> decide

end Tree

end AdaptiveRadix
