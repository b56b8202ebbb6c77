import AdaptiveRadix.Node.Children
import AdaptiveRadix.Proofs.Storage.Built

/-!
What becomes of an inner node when one child comes or goes. The children change at one byte, and the
layout and the events follow from the number of children.
-/

namespace AdaptiveRadix.Node

open Edges

variable {V : Type} {s t : Storage (Node V)} {b : UInt8} {c : Node V}

/-- How a storage takes in one more child. -/
inductive Growth (s t : Storage (Node V)) : List Event → Prop
  | room (free : s.count < s.width) (same : t.layout = s.layout) (built : s.Built → t.Built) :
    Growth s t []
  | full (full : s.count = s.width) (larger : s.layout.larger? = some t.layout)
    (built : s.Built → t.Built) : Growth s t [.promoted s.layout t.layout s.count]

/-- What is left of an inner node that loses the child `c` under `b`. -/
inductive Erasure (stem : Bytes) (s : Storage (Node V)) (b : UInt8) (c : Node V) :
    Node V → List Event → Prop
  | kept {t : Storage (Node V)} (sound : t.Sound) (erased : Erased b c s.children t.children)
    (same : t.layout = s.layout) (enough : s.layout.minimum ≤ t.count)
    (built : s.Built → t.Built) : Erasure stem s b c (inner stem t) []
  | shrunk {t : Storage (Node V)} (sound : t.Sound) (erased : Erased b c s.children t.children)
    (larger : t.layout.larger? = some s.layout) (several : 2 ≤ t.count)
    (few : t.count < s.layout.minimum) (built : s.Built → t.Built) :
    Erasure stem s b c (inner stem t) [.shrunk s.layout t.layout t.count]
  | merged {a : UInt8} {d : Node V} (erased : Erased b c s.children [(a, d)]) :
    Erasure stem s b c (d.withStem (Stem.joined stem a d.stem))
      [.recompressed (Stem.joined stem a d.stem)]
  | emptied {t : Storage (Node V)} (sound : t.Sound) (erased : Erased b c s.children [])
    (same : t.layout = s.layout) (none_left : t.children = []) (built : s.Built → t.Built) :
    Erasure stem s b c (inner stem t) []

theorem Growth.built {events : List Event} (h : Growth s t events) (built : s.Built) : t.Built := by
  cases h with
  | room _ _ keeps => exact keeps built
  | full _ _ keeps => exact keeps built

theorem addChild_eq (h : s.Sound) (stem : Bytes) (absent : ∀ d, (b, d) ∉ s.children)
    (c : Node V) :
    ∃ t events, (inner stem s).addChild b c = .ok ⟨(), inner stem t, events⟩ ∧ t.Sound ∧
      Inserted b c s.children t.children ∧ Growth s t events := by
  have missing : (inner stem s).child? b = .ok none :=
    (Storage.find?_eq h b).trans (congrArg Except.ok (lookup_eq_none_iff.2 absent))
  have unheld := Checked.assert_eq_ok (Option.isNone_none (α := Node V))
  by_cases room : s.count < s.width
  · obtain ⟨t, added, sound, same, inserted⟩ := Storage.add_eq h room absent c
    refine ⟨t, [], ?_, sound, inserted,
      .room room same fun built => built.add added⟩
    simp only [addChild, missing, unheld, if_pos room, added, Checked.ok_bind]
    rfl
  · have full : s.count = s.width := Nat.le_antisymm (Storage.count_le h) (Nat.not_lt.1 room)
    -- a storage with a slot for every byte is full only when every byte is taken
    have bound := (Storage.ascending_children h).length_lt absent
    rw [Storage.length_children h, full] at bound
    obtain ⟨l, larger⟩ : ∃ l, s.layout.larger? = some l := by
      unfold Storage.width at bound
      cases layout : s.layout with
      | keyed4 => exact ⟨.keyed16, rfl⟩
      | keyed16 => exact ⟨.indexed48, rfl⟩
      | indexed48 => exact ⟨.direct256, rfl⟩
      | direct256 => exact absurd bound (layout ▸ Nat.lt_irrefl 256)
    obtain ⟨m, grown, sound, here, same⟩ := Storage.grow_eq h larger
    have count : m.count = s.count := Storage.count_eq_of_length_eq sound h (congrArg _ same)
    have free : m.count < m.width := by
      have := Layout.minimum_of_larger? larger
      rw [count, full, Storage.width, Storage.width, here]
      cases layout : s.layout <;> rw [layout] at larger <;> cases larger <;> decide
    obtain ⟨t, added, sound', same', inserted⟩ := Storage.add_eq sound free (same ▸ absent) c
    refine ⟨t, [.promoted s.layout t.layout s.count], ?_, sound', same ▸ inserted,
      .full full (by rw [larger, same', here]) fun built => (built.grow grown).add added⟩
    simp only [addChild, missing, unheld, if_neg room, grown, added, Checked.ok_bind, same', count]
    rfl

theorem addChild_eq_assertionFailed_iff (h : s.Sound) (stem : Bytes) (c : Node V) :
    (inner stem s).addChild b c = .error .assertionFailed ↔ ∃ d, (b, d) ∈ s.children := by
  constructor
  · intro failed
    by_contra absent
    obtain ⟨t, events, added, -⟩ := addChild_eq h stem (not_exists.1 absent) c
    rw [added] at failed
    contradiction
  · rintro ⟨d, held⟩
    have listed := (Storage.ascending_children h).lookup_eq_some_iff.2 held
    have found : (inner stem s).child? b = .ok (some d) :=
      (Storage.find?_eq h b).trans (congrArg Except.ok listed)
    rw [addChild, found]
    rfl

theorem trim_eq (h : s.Sound) :
    ∃ t events, trim s = .ok ⟨(), t, events⟩ ∧ t.Sound ∧ t.children = s.children ∧
      (s.Built → t.Built) ∧
      ((s.count ≤ 1 ∨ s.layout.minimum ≤ s.count) ∧ t = s ∧ events = [] ∨
        2 ≤ s.count ∧ s.count < s.layout.minimum ∧ t.layout.larger? = some s.layout ∧
          events = [.shrunk s.layout t.layout s.count]) := by
  by_cases few : s.count < s.layout.minimum ∧ 1 < s.count
  · obtain ⟨l, larger, fits⟩ : ∃ l : Layout, l.larger? = some s.layout ∧ s.count ≤ l.width := by
      obtain ⟨few, several⟩ := few
      cases layout : s.layout with
      | keyed4 =>
        rw [layout] at few
        exact absurd few (Nat.not_lt.2 several)
      | keyed16 => exact ⟨.keyed4, rfl, by rw [layout] at few; exact Nat.le_of_lt_succ few⟩
      | indexed48 => exact ⟨.keyed16, rfl, by rw [layout] at few; exact Nat.le_of_lt_succ few⟩
      | direct256 => exact ⟨.indexed48, rfl, by rw [layout] at few; exact Nat.le_of_lt_succ few⟩
    obtain ⟨t, shrunk, sound, here, same⟩ := Storage.shrink_eq h larger fits
    have count : t.count = s.count := Storage.count_eq_of_length_eq sound h (congrArg _ same)
    refine ⟨t, [.shrunk s.layout t.layout s.count], ?_, sound, same,
      fun built => built.shrink shrunk, .inr ⟨few.2, few.1, here ▸ larger, rfl⟩⟩
    simp only [trim, if_pos few, shrunk, Checked.ok_bind, count]
    rfl
  · refine ⟨s, [], ?_, h, rfl, id, .inl ⟨by omega, rfl, rfl⟩⟩
    rw [trim, if_neg few]
    rfl

theorem collapse_eq (h : s.Sound) (stem : Bytes) (only : s.children = [(b, c)]) :
    collapse stem s = .ok ⟨(), c.withStem (Stem.joined stem b c.stem),
      [.recompressed (Stem.joined stem b c.stem)]⟩ := by
  rcases Storage.erase_cases h b with ⟨d, t, taken, -, -, erased⟩ | ⟨-, absent⟩
  · obtain rfl : d = c := by
      have := erased.1
      rw [only, List.mem_singleton] at this
      exact (Prod.mk.inj this).2
    simp only [collapse, only, taken, Checked.ok_bind]
    rfl
  · exact absurd (only ▸ List.mem_singleton_self _) (absent c)

theorem eraseChild_cases (h : s.Sound) (stem : Bytes) (b : UInt8) :
    (∃ c n events, (inner stem s).eraseChild b = .ok ⟨some c, n, events⟩ ∧
      Erasure stem s b c n events) ∨
      (inner stem s).eraseChild b = .ok (.unchanged (inner stem s) none) ∧
        ∀ c, (b, c) ∉ s.children := by
  rcases Storage.erase_cases h b with ⟨c, t, taken, sound, same, erased⟩ | ⟨nothing, absent⟩
  · obtain ⟨r, events, trimmed, sound', kept, trims, change⟩ := trim_eq sound
    have built (built : s.Built) : r.Built := trims (built.erase taken)
    have count : r.count = t.count := Storage.count_eq_of_length_eq sound' sound (congrArg _ kept)
    left
    by_cases single : r.count = 1
    · have one := (Storage.length_children sound').trans single
      obtain ⟨⟨a, d⟩, only⟩ := List.length_eq_one_iff.1 one
      obtain ⟨-, rfl, rfl⟩ := change.resolve_right (by omega)
      refine ⟨c, _, _, ?_, .merged (only ▸ erased)⟩
      simp only [eraseChild, taken, trimmed, if_pos single, collapse_eq sound' stem only,
        Checked.ok_bind]
      rfl
    · refine ⟨c, inner stem r, events, ?_, ?_⟩
      · simp only [eraseChild, taken, trimmed, if_neg single, Checked.ok_bind]
        rfl
      · rcases change with ⟨enough, rfl, rfl⟩ | ⟨several, few, larger, rfl⟩
        · rcases enough with none_left | enough
          · have empty : r.children = [] :=
              List.eq_nil_of_length_eq_zero ((Storage.length_children sound).trans (by omega))
            exact .emptied sound (empty ▸ erased) same empty built
          · exact .kept sound erased same (same ▸ enough) built
        · rw [← count] at several few
          rw [same] at few larger
          rw [← count, same]
          exact .shrunk sound' (kept.symm ▸ erased) larger several few built
  · refine .inr ⟨?_, absent⟩
    simp only [eraseChild, nothing, Checked.ok_bind]
    rfl

end AdaptiveRadix.Node
