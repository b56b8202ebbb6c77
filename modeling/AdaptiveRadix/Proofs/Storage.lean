import AdaptiveRadix.Proofs.Storage.Conversion

/-!
The four layouts behind one interface. A sound storage acts on its list of children in the same way
in every layout; only how many children fit differs.
-/

namespace AdaptiveRadix.Storage

open Edges

variable {α : Type} {s : Storage α} {b : UInt8} {l : Layout}

section Sound

variable (h : s.Sound)

include h

theorem ascending_children : Ascending s.children := by
  cases s with
  | keyed4 s => exact Keyed.ascending_children h
  | keyed16 s => exact Keyed.ascending_children h
  | indexed48 s => exact Indexed.ascending_children s
  | direct256 s => exact Direct.ascending_children s

theorem length_children : s.children.length = s.count := by
  cases s with
  | keyed4 s => exact Keyed.length_children h
  | keyed16 s => exact Keyed.length_children h
  | indexed48 s => exact Indexed.length_children h
  | direct256 s => exact h.count_eq.symm

theorem count_eq_of_length_eq {t : Storage α} (ht : t.Sound)
    (same : s.children.length = t.children.length) : s.count = t.count := by
  rw [← length_children h, ← length_children ht, same]

theorem held_eq : s.held = s.children.map (·.1) := by
  cases s with
  | keyed4 s => exact (Keyed.map_fst_children h).symm
  | keyed16 s => exact (Keyed.map_fst_children h).symm
  | indexed48 s => rfl
  | direct256 s => rfl

theorem count_le : s.count ≤ s.width := by
  cases s with
  | keyed4 s => exact Keyed.Sound.count_le h
  | keyed16 s => exact Keyed.Sound.count_le h
  | indexed48 s => exact Indexed.count_le h
  | direct256 s =>
    rw [show (direct256 s).count = s.children.length from h.count_eq]
    exact (Direct.ascending_children s).length_le

section Count

variable {t : Storage α} {c : α} (ht : t.Sound)

include ht

theorem count_of_inserted (inserted : Inserted b c s.children t.children) :
    t.count = s.count + 1 := by
  rw [← length_children h, ← length_children ht]
  exact inserted.length (ascending_children h) (ascending_children ht)

theorem count_of_erased (erased : Erased b c s.children t.children) : s.count = t.count + 1 := by
  rw [← length_children h, ← length_children ht]
  exact erased.length (ascending_children h) (ascending_children ht)

theorem count_of_replaced (replaced : Replaced b c s.children t.children) : t.count = s.count := by
  rw [← length_children h, ← length_children ht]
  exact replaced.length (ascending_children h) (ascending_children ht)

end Count

theorem find?_eq (b : UInt8) : s.find? b = .ok (s.children.lookup b) := by
  cases s with
  | keyed4 s => exact Keyed.find?_eq h b
  | keyed16 s => exact Keyed.find?_eq h b
  | indexed48 s => exact Indexed.find?_eq h b
  | direct256 s => exact Direct.find?_eq h.size_slots b

theorem add_eq (room : s.count < s.width) (absent : ∀ d, (b, d) ∉ s.children) (c : α) :
    ∃ t, s.add b c = .ok t ∧ t.Sound ∧ t.layout = s.layout ∧
      Inserted b c s.children t.children := by
  cases s with
  | keyed4 s =>
    obtain ⟨t, added, sound, inserted⟩ := Keyed.add_eq h (by decide) room absent c
    exact ⟨keyed4 t, by rw [add, added]; rfl, sound, rfl, inserted⟩
  | keyed16 s =>
    obtain ⟨t, added, sound, inserted⟩ := Keyed.add_eq h (by decide) room absent c
    exact ⟨keyed16 t, by rw [add, added]; rfl, sound, rfl, inserted⟩
  | indexed48 s =>
    obtain ⟨t, added, sound, inserted⟩ := Indexed.add_eq h room absent c
    exact ⟨indexed48 t, by rw [add, added]; rfl, sound, rfl, inserted⟩
  | direct256 s =>
    obtain ⟨t, added, sound, inserted⟩ := Direct.add_eq h absent c
    exact ⟨direct256 t, by rw [add, added]; rfl, sound, rfl, inserted⟩

theorem add_of_count_eq (full : s.count = s.width) (absent : ∀ d, (b, d) ∉ s.children) (c : α) :
    s.add b c = .error .noSpaceLeft := by
  cases s with
  | keyed4 s =>
    rw [add, Keyed.add_of_count_eq full]
    rfl
  | keyed16 s =>
    rw [add, Keyed.add_of_count_eq full]
    rfl
  | indexed48 s =>
    rw [add, Indexed.add_of_count_eq h full]
    rfl
  | direct256 s =>
    have := (Direct.ascending_children s).length_lt absent
    rw [← show (direct256 s).count = s.children.length from h.count_eq, full] at this
    exact absurd this (Nat.lt_irrefl _)

theorem sound_of_add (absent : ∀ d, (b, d) ∉ s.children) (added : s.add b c = .ok t) :
    t.Sound ∧ Inserted b c s.children t.children := by
  rcases Nat.lt_or_eq_of_le (count_le h) with room | full
  · obtain ⟨t', added', sound, -, inserted⟩ := add_eq h room absent c
    obtain rfl := Except.ok.inj (added'.symm.trans added)
    exact ⟨sound, inserted⟩
  · rw [add_of_count_eq h full absent] at added
    cases added

theorem erase_cases (b : UInt8) :
    (∃ c t, s.erase b = .ok (some c, t) ∧ t.Sound ∧ t.layout = s.layout ∧
      Erased b c s.children t.children) ∨
      s.erase b = .ok (none, s) ∧ ∀ c, (b, c) ∉ s.children := by
  cases s with
  | keyed4 s =>
    rcases Keyed.erase_cases h b with ⟨c, t, taken, sound, erased⟩ | ⟨nothing, absent⟩
    · exact .inl ⟨c, keyed4 t, by rw [erase, taken]; rfl, sound, rfl, erased⟩
    · exact .inr ⟨by rw [erase, nothing]; rfl, absent⟩
  | keyed16 s =>
    rcases Keyed.erase_cases h b with ⟨c, t, taken, sound, erased⟩ | ⟨nothing, absent⟩
    · exact .inl ⟨c, keyed16 t, by rw [erase, taken]; rfl, sound, rfl, erased⟩
    · exact .inr ⟨by rw [erase, nothing]; rfl, absent⟩
  | indexed48 s =>
    rcases Indexed.erase_cases h b with ⟨c, t, taken, sound, erased⟩ | ⟨nothing, absent⟩
    · exact .inl ⟨c, indexed48 t, by rw [erase, taken]; rfl, sound, rfl, erased⟩
    · exact .inr ⟨by rw [erase, nothing]; rfl, absent⟩
  | direct256 s =>
    rcases Direct.erase_cases h b with ⟨c, t, taken, sound, erased⟩ | ⟨nothing, absent⟩
    · exact .inl ⟨c, direct256 t, by rw [erase, taken]; rfl, sound, rfl, erased⟩
    · exact .inr ⟨by rw [erase, nothing]; rfl, absent⟩

theorem replace_cases (b : UInt8) (c : α) :
    (∃ t, s.replace b c = .ok t ∧ t.Sound ∧ t.layout = s.layout ∧
      Replaced b c s.children t.children) ∨
      s.replace b c = .ok s ∧ ∀ d, (b, d) ∉ s.children := by
  cases s with
  | keyed4 s =>
    rcases Keyed.replace_cases h b c with ⟨t, put, sound, replaced⟩ | ⟨nothing, absent⟩
    · exact .inl ⟨keyed4 t, by rw [replace, put]; rfl, sound, rfl, replaced⟩
    · exact .inr ⟨by rw [replace, nothing]; rfl, absent⟩
  | keyed16 s =>
    rcases Keyed.replace_cases h b c with ⟨t, put, sound, replaced⟩ | ⟨nothing, absent⟩
    · exact .inl ⟨keyed16 t, by rw [replace, put]; rfl, sound, rfl, replaced⟩
    · exact .inr ⟨by rw [replace, nothing]; rfl, absent⟩
  | indexed48 s =>
    rcases Indexed.replace_cases h b c with ⟨t, put, sound, replaced⟩ | ⟨nothing, absent⟩
    · exact .inl ⟨indexed48 t, by rw [replace, put]; rfl, sound, rfl, replaced⟩
    · exact .inr ⟨by rw [replace, nothing]; rfl, absent⟩
  | direct256 s =>
    rcases Direct.replace_cases h b c with ⟨t, put, sound, replaced⟩ | ⟨nothing, absent⟩
    · exact .inl ⟨direct256 t, by rw [replace, put]; rfl, sound, rfl, replaced⟩
    · exact .inr ⟨by rw [replace, nothing]; rfl, absent⟩

theorem replace_eq {d : α} (held : (b, d) ∈ s.children) (c : α) :
    ∃ t, s.replace b c = .ok t ∧ t.Sound ∧ t.layout = s.layout ∧
      Replaced b c s.children t.children :=
  (replace_cases h b c).resolve_right fun missing => missing.2 d held

/-- Putting a child where it already is changes nothing, not even the places of the children. -/
theorem replace_self {c : α} (held : (b, c) ∈ s.children) : s.replace b c = .ok s := by
  have found := find?_eq h b
  rw [(ascending_children h).lookup_eq_some_iff.2 held] at found
  cases s with
  | keyed4 s => rw [replace, Keyed.replace_self found]; rfl
  | keyed16 s => rw [replace, Keyed.replace_self found]; rfl
  | indexed48 s => rw [replace, Indexed.replace_self found]; rfl
  | direct256 s => rw [replace, Direct.replace_self found]; rfl

theorem grow_eq (larger : s.layout.larger? = some l) :
    ∃ t, s.grow = .ok t ∧ t.Sound ∧ t.layout = l ∧ t.children = s.children := by
  cases s with
  | keyed4 s =>
    cases larger
    obtain ⟨p, moved, sound, same, -⟩ :=
      Keyed.resize_eq (w := 16) h (Nat.le_trans h.count_le (by decide))
    exact ⟨keyed16 p.1, by rw [grow, moved]; rfl, sound, rfl, same⟩
  | keyed16 s =>
    cases larger
    obtain ⟨p, moved, sound, same, -⟩ :=
      Keyed.toIndexed_eq h (Nat.le_trans h.count_le (by decide))
    exact ⟨indexed48 p.1, by rw [grow, moved]; rfl, sound, rfl, same⟩
  | indexed48 s =>
    cases larger
    obtain ⟨p, moved, sound, same, -⟩ := Indexed.toDirect_eq h
    exact ⟨direct256 p.1, by rw [grow, moved]; rfl, sound, rfl, same⟩
  | direct256 s => cases larger

theorem shrink_eq (larger : l.larger? = some s.layout) (fits : s.count ≤ l.width) :
    ∃ t, s.shrink = .ok (some t) ∧ t.Sound ∧ t.layout = l ∧ t.children = s.children := by
  cases s with
  | keyed4 s => cases l <;> cases larger
  | keyed16 s =>
    obtain rfl : l = .keyed4 := by cases l <;> simp_all [Layout.larger?, layout]
    obtain ⟨p, moved, sound, same, -⟩ := Keyed.resize_eq (w := 4) h fits
    exact ⟨keyed4 p.1, by rw [shrink, moved]; rfl, sound, rfl, same⟩
  | indexed48 s =>
    obtain rfl : l = .keyed16 := by cases l <;> simp_all [Layout.larger?, layout]
    obtain ⟨p, moved, sound, same, -⟩ := Indexed.toKeyed_eq (w := 16) h (by decide) fits
    exact ⟨keyed16 p.1, by rw [shrink, moved]; rfl, sound, rfl, same⟩
  | direct256 s =>
    obtain rfl : l = .indexed48 := by cases l <;> simp_all [Layout.larger?, layout]
    obtain ⟨p, moved, sound, same, -⟩ := Direct.toIndexed_eq h fits
    exact ⟨indexed48 p.1, by rw [shrink, moved]; rfl, sound, rfl, same⟩

end Sound

theorem exists_children_eq (l : Layout) {cs : List (UInt8 × α)} (ascending : Ascending cs)
    (fits : cs.length ≤ l.width) :
    ∃ s : Storage α, s.Sound ∧ s.layout = l ∧ s.children = cs := by
  induction cs with
  | nil => exact ⟨empty l, sound_empty l, layout_empty l, children_empty l⟩
  | cons e cs ih =>
    obtain ⟨b, c⟩ := e
    obtain ⟨first, rest⟩ := List.pairwise_cons.1 ascending
    obtain ⟨s, sound, layout, same⟩ := ih rest (Nat.le_of_succ_le fits)
    have room : s.count < s.width := by
      rw [← length_children sound, same, width, layout]
      exact fits
    have absent (d : α) : (b, d) ∉ s.children := fun hd => UInt8.lt_irrefl b (first _ (same ▸ hd))
    obtain ⟨t, -, sound', layout', inserted⟩ := add_eq sound room absent c
    refine ⟨t, sound', layout'.trans layout, (ascending_children sound').ext ascending fun e => ?_⟩
    rw [inserted.2, same, List.mem_cons]

end AdaptiveRadix.Storage
