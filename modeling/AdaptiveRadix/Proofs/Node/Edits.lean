import AdaptiveRadix.Proofs.Node.Removal

/-!
An inner node with distinct edges after one child was added or taken away, whatever its layout and
however full it was. The other children stay as they are; the layout changes by one step, and only
where the number of children asks for it.
-/

namespace AdaptiveRadix

namespace Layout

theorem larger?_ne_self (l : Layout) : l.larger? ≠ some l := by
  cases l <;> decide

theorem larger?_ne_keyed4 (l : Layout) : l.larger? ≠ some .keyed4 := by
  cases l <;> decide

end Layout

namespace Node

open Edges

variable {V : Type} {s t : Storage (Node V)} {b : UInt8} {c n : Node V} {stem : Bytes}
  {events : List Event}

/-- A storage with one child more, in the next larger layout exactly if there was no room. -/
structure Extended (b : UInt8) (c : Node V) (s t : Storage (Node V)) : Prop where
  sound : t.Sound
  perm : t.children.Perm ((b, c) :: s.children)
  find? : ∀ a, t.find? a = if a = b then .ok (some c) else s.find? a
  grown_iff : s.layout.larger? = some t.layout ↔ s.count = s.width
  kept_iff : t.layout = s.layout ↔ s.count < s.width

/-- What an inner node with the storage `s` has become when the children `rest` are left: an inner
node in the same layout or the next smaller one, the last child with a longer stem, or an inner node
without children. -/
structure Remains (stem : Bytes) (s : Storage (Node V)) (rest : List (UInt8 × Node V))
    (n : Node V) : Prop where
  several : 2 ≤ rest.length → ∃ t, n = inner stem t ∧ t.Sound ∧ t.children = rest ∧
    (t.layout.larger? = some s.layout ↔
      rest.length < s.layout.minimum ∧ s.layout ≠ .keyed4) ∧
    (t.layout = s.layout ↔ ¬ (rest.length < s.layout.minimum ∧ s.layout ≠ .keyed4))
  single : ∀ a d, rest = [(a, d)] → n = d.withStem (stem ++ a :: d.stem)
  bare : rest = [] → ∃ t, n = inner stem t ∧ t.Sound ∧ t.layout = s.layout ∧ t.count = 0 ∧
    t.children = []

theorem Growth.grown_iff (h : Growth s t events) :
    s.layout.larger? = some t.layout ↔ s.count = s.width := by
  cases h with
  | room free same =>
    refine iff_of_false ?_ (Nat.ne_of_lt free)
    rw [same]
    exact s.layout.larger?_ne_self
  | full full larger => exact iff_of_true larger full

theorem Growth.kept_iff (h : Growth s t events) : t.layout = s.layout ↔ s.count < s.width := by
  cases h with
  | room free same => exact iff_of_true same free
  | full full larger =>
    refine iff_of_false ?_ (Nat.not_lt.2 (Nat.le_of_eq full.symm))
    intro same
    rw [same] at larger
    exact s.layout.larger?_ne_self larger

theorem find?_of_inserted (hs : s.Sound) (ht : t.Sound)
    (inserted : Inserted b c s.children t.children) (a : UInt8) :
    t.find? a = if a = b then .ok (some c) else s.find? a := by
  have sorted := Storage.ascending_children hs
  have sorted' := Storage.ascending_children ht
  rw [Storage.find?_eq hs, Storage.find?_eq ht]
  by_cases same : a = b
  · rw [if_pos same, same, sorted'.lookup_eq_some_iff.2 ((inserted.2 _).2 (.inl rfl))]
  · rw [if_neg same]
    refine congrArg Except.ok (Option.ext fun d => ?_)
    rw [sorted.lookup_eq_some_iff, sorted'.lookup_eq_some_iff, inserted.2]
    simp [same]

theorem Remains.of_two_le (sound : t.Sound) (two : 2 ≤ t.children.length)
    (shrunk_iff : t.layout.larger? = some s.layout ↔
      t.children.length < s.layout.minimum ∧ s.layout ≠ .keyed4)
    (kept_iff : t.layout = s.layout ↔
      ¬ (t.children.length < s.layout.minimum ∧ s.layout ≠ .keyed4)) :
    Remains stem s t.children (inner stem t) where
  several _ := ⟨t, rfl, sound, rfl, shrunk_iff, kept_iff⟩
  single a d only := absurd two (by simp [only])
  bare none_left := absurd two (by simp [none_left])

theorem Remains.singleton (a : UInt8) (d : Node V) :
    Remains stem s [(a, d)] (d.withStem (stem ++ a :: d.stem)) where
  several two := absurd two (Nat.not_succ_le_self 1)
  single a' d' only := by
    cases only
    rfl
  bare none_left := by cases none_left

theorem Remains.nil (sound : t.Sound) (same : t.layout = s.layout) (none_left : t.children = []) :
    Remains stem s [] (inner stem t) where
  several two := absurd two (Nat.not_succ_le_zero 1)
  single a d only := by cases only
  bare _ := by
    refine ⟨t, rfl, sound, same, ?_, none_left⟩
    rw [← Storage.length_children sound, none_left, List.length_nil]

theorem Erasure.remains (h : Erasure stem s b c n events) (hs : s.Sound) :
    Remains stem s (s.children.filter (·.1 ≠ b)) n := by
  have sorted := Storage.ascending_children hs
  cases h with
  | @kept t sound erased same enough =>
    have length := Storage.length_children sound
    have minimal := s.layout.two_le_minimum
    rw [← erased.eq_filter sorted (Storage.ascending_children sound)]
    refine .of_two_le sound (by omega) (iff_of_false ?_ ?_) (iff_of_true same ?_)
    · rw [same]
      exact s.layout.larger?_ne_self
    · omega
    · omega
  | @shrunk t sound erased larger several few =>
    have length := Storage.length_children sound
    have wide : s.layout ≠ .keyed4 := fun narrow => t.layout.larger?_ne_keyed4 (narrow ▸ larger)
    have fewer : t.children.length < s.layout.minimum ∧ s.layout ≠ .keyed4 := ⟨by omega, wide⟩
    rw [← erased.eq_filter sorted (Storage.ascending_children sound)]
    refine .of_two_le sound (by omega) (iff_of_true larger fewer)
      (iff_of_false (fun same => ?_) (not_not.2 fewer))
    rw [same] at larger
    exact s.layout.larger?_ne_self larger
  | @merged a d erased =>
    rw [← erased.eq_filter sorted (List.pairwise_singleton ..)]
    exact .singleton a d
  | @emptied t sound erased same none_left =>
    rw [← erased.eq_filter sorted List.Pairwise.nil]
    exact .nil sound same none_left

/-- One child is added to an inner node, or taken away from it. -/
theorem edits_of_sound (h : s.Sound) (stem : Bytes) (b : UInt8) :
    ((∀ d, (b, d) ∉ s.children) → ∀ c, ∃ t events,
      (inner stem s).addChild b c = .ok ⟨(), inner stem t, events⟩ ∧ Extended b c s t) ∧
    ((∃ n events, (inner stem s).eraseChild b = .ok ⟨none, n, events⟩) ↔
      ∀ d, (b, d) ∉ s.children) ∧
    ((∀ d, (b, d) ∉ s.children) →
      (inner stem s).eraseChild b = .ok (.unchanged (inner stem s) none)) ∧
    ∀ c, (b, c) ∈ s.children → ∃ n events,
      (inner stem s).eraseChild b = .ok ⟨some c, n, events⟩ ∧
        Remains stem s (s.children.filter (·.1 ≠ b)) n := by
  have sorted := Storage.ascending_children h
  refine ⟨fun absent c => ?_, ?_⟩
  · obtain ⟨t, events, added, sound, inserted, growth⟩ := addChild_eq h stem absent c
    exact ⟨t, events, added, sound, inserted.perm sorted (Storage.ascending_children sound),
      find?_of_inserted h sound inserted, growth.grown_iff, growth.kept_iff⟩
  · rcases eraseChild_cases h stem b with ⟨c, n, events, taken, erasure⟩ | ⟨nothing, absent⟩
    · have held := erasure.held
      refine ⟨iff_of_false ?_ fun absent => absent c held, fun absent => absurd held (absent c),
        fun d hd => ?_⟩
      · rintro ⟨n', events', missed⟩
        rw [taken] at missed
        cases missed
      · obtain rfl := sorted.eq_of_mem held hd
        exact ⟨n, events, taken, erasure.remains h⟩
    · exact ⟨iff_of_true ⟨_, _, nothing⟩ absent, fun _ => nothing,
        fun c hc => absurd hc (absent c)⟩

theorem edits_of_sound_direct256 :
    ∃ s : Storage (Node Nat), s.Sound ∧ s.layout = .direct256 ∧
      s.children = [(1, leaf [5] 10 1), (2, leaf [] 20 1), (255, leaf [6] 30 4)] ∧
      ∃ t events, (inner [7] s).eraseChild 2 = .ok ⟨some (leaf [] 20 1), inner [7] t, events⟩ ∧
        t.children = [(1, leaf [5] 10 1), (255, leaf [6] 30 4)] ∧ t.layout = .indexed48 := by
  have three : Ascending [(1, leaf [5] 10 1), (2, leaf [] 20 1), (255, leaf [6] 30 4)] := by
    simp [Ascending]
  obtain ⟨s, sound, layout, children⟩ :=
    Storage.exists_children_eq .direct256 three (by decide : 3 ≤ 256)
  have held : (2, leaf [] 20 1) ∈ s.children := by rw [children]; simp
  obtain ⟨n, events, taken, remains⟩ := (edits_of_sound sound [7] 2).2.2.2 _ held
  rw [children] at remains
  obtain ⟨t, rfl, -, rest, shrunk, -⟩ := remains.several (Nat.le_refl 2)
  refine ⟨s, sound, layout, children, t, events, taken, rest, ?_⟩
  rw [layout] at shrunk
  exact Layout.eq_of_larger? (shrunk.2 ⟨by decide, by decide⟩) rfl

end Node

end AdaptiveRadix
