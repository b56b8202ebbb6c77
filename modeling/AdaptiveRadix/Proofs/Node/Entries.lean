import AdaptiveRadix.Proofs.Dictionary.Graft
import AdaptiveRadix.Proofs.Node.Filled

/-!
The entries of a node: those of its children under their edges. In a sound tree they are in order
and no key is a beginning of another, and a tree whose inner nodes have children holds some.
-/

namespace AdaptiveRadix.Node

open Dictionary Edges

variable {V : Type} {n c : Node V} {s t : Storage (Node V)} {b : UInt8} {stem : Bytes}
  {e f : Entry V}

theorem mem_entries_inner :
    f ∈ (inner stem s).entries ↔
      ∃ b c, (b, c) ∈ s.children ∧ ∃ e ∈ c.entries, f = e.under stem b := by
  simp only [entries_inner, List.mem_flatMap, List.mem_map, Prod.exists, Entry.under, eq_comm]

@[simp] theorem stem_withStem (n : Node V) (stem : Bytes) : (n.withStem stem).stem = stem := by
  cases n <;> rfl

@[simp] theorem withStem_stem (n : Node V) : n.withStem n.stem = n := by
  cases n <;> rfl

@[simp] theorem withStem_withStem (n : Node V) (x y : Bytes) :
    (n.withStem x).withStem y = n.withStem y := by
  cases n <;> rfl

theorem entries_withStem (n : Node V) (stem : Bytes) (b : UInt8) :
    (n.withStem (stem ++ b :: n.stem)).entries = n.entries.map (Entry.under stem b) := by
  cases n with
  | leaf suffix value hits => rw [withStem, entries_leaf, entries_leaf]; rfl
  | inner old s =>
    simp only [withStem, entries_inner, Node.stem, List.map_flatMap, List.map_map]
    refine List.flatMap_congr fun c _ => List.map_congr_left fun e _ => ?_
    simp [Entry.under]

theorem ordered_entries (h : n.Sound) : Ordered n.entries := by
  induction n using induct with
  | leaf suffix value hits =>
    rw [entries_leaf]
    exact List.pairwise_singleton ..
  | inner stem s ih =>
    obtain ⟨sound, below⟩ := sound_inner.1 h
    rw [entries_inner]
    refine List.pairwise_flatMap.2 ⟨fun c hc => ?_, ?_⟩
    · refine List.pairwise_map.2 ((ih c hc (below c hc)).imp fun lt => ?_)
      exact List.append_left_lt (List.cons_lt_cons_self.2 lt)
    · refine (Storage.ascending_children sound).imp fun {x y} lt e he f hf => ?_
      obtain ⟨e, -, rfl⟩ := List.mem_map.1 he
      obtain ⟨f, -, rfl⟩ := List.mem_map.1 hf
      exact List.append_left_lt (List.cons_lt_cons_iff.2 (.inl lt))

theorem not_nested_of_mem (h : n.Sound) (he : e ∈ n.entries) (hf : f ∈ n.entries) :
    ¬ Nested e.key f.key := by
  induction n using induct generalizing e f with
  | leaf suffix value hits =>
    rw [entries_leaf, List.mem_singleton] at he hf
    rw [he, hf]
    exact fun nested => nested.1 rfl
  | inner stem s ih =>
    obtain ⟨sound, below⟩ := sound_inner.1 h
    obtain ⟨a, c, hc, e, he', rfl⟩ := mem_entries_inner.1 he
    obtain ⟨b, d, hd, f, hf', rfl⟩ := mem_entries_inner.1 hf
    by_cases same : a = b
    · subst same
      obtain rfl := (Storage.ascending_children sound).eq_of_mem hc hd
      exact mt nested_under_iff.1 (ih _ hc (below _ hc) he' hf')
    · have left := edge_prefix_under stem a e
      have right := edge_prefix_under stem b f
      rintro ⟨-, nested | nested⟩
      · exact not_prefix_of_edge_ne same left right nested
      · exact not_prefix_of_edge_ne (Ne.symm same) right left nested

theorem exists_entry (h : n.Sound) (forked : n.Forked) : ∃ e, e ∈ n.entries := by
  induction n using induct with
  | leaf suffix value hits => exact ⟨_, entries_leaf suffix value hits ▸ List.mem_singleton_self _⟩
  | inner stem s ih =>
    obtain ⟨sound, below⟩ := sound_inner.1 h
    obtain ⟨several, forked⟩ := filled_inner.1 forked
    rw [← Storage.length_children sound] at several
    have some_child := Nat.lt_of_lt_of_le Nat.zero_lt_two several
    obtain ⟨⟨b, c⟩, hc⟩ := List.exists_mem_of_length_pos some_child
    obtain ⟨e, he⟩ := ih _ hc (below _ hc) (forked _ hc)
    exact ⟨e.under stem b, mem_entries_inner.2 ⟨b, c, hc, e, he, rfl⟩⟩

theorem stem_prefix_of_mem (he : e ∈ n.entries) : n.stem <+: e.key := by
  cases n with
  | leaf suffix value hits =>
    rw [entries_leaf, List.mem_singleton] at he
    rw [he]
    exact List.prefix_rfl
  | inner stem s =>
    obtain ⟨b, c, -, f, -, rfl⟩ := mem_entries_inner.1 he
    exact List.prefix_append _ _

theorem nested_of_ends {key : Bytes} (ends : key <+: stem) (he : e ∈ (inner stem s).entries) :
    Nested key e.key := by
  obtain ⟨b, c, -, f, -, rfl⟩ := mem_entries_inner.1 he
  refine ⟨fun same => ?_, .inl (ends.trans (List.prefix_append _ _))⟩
  have := ends.length_le
  rw [same, Entry.under, List.length_append, List.length_cons] at this
  omega

/-- The entries of an inner node that are not below the edge `b`. -/
def Beside (stem : Bytes) (b : UInt8) (l : List (UInt8 × Node V)) (f : Entry V) : Prop :=
  ∃ a c, (a, c) ∈ l ∧ a ≠ b ∧ ∃ e ∈ c.entries, f = e.under stem a

theorem Beside.apart {l : List (UInt8 × Node V)} (h : Beside stem b l f) :
    ∃ a, a ≠ b ∧ stem ++ [a] <+: f.key := by
  obtain ⟨a, c, -, different, e, -, rfl⟩ := h
  exact ⟨a, different, edge_prefix_under stem a e⟩

theorem graft_of_mem_iff {l : List (UInt8 × Node V)}
    (h : ∀ e, e ∈ t.children ↔ e = (b, c) ∨ e ∈ l ∧ e.1 ≠ b) (stem : Bytes) :
    Graft stem b (Beside stem b l) c.entries (inner stem t).entries where
  mem_iff f := by
    rw [mem_entries_inner]
    constructor
    · rintro ⟨a, d, hd, e, he, rfl⟩
      rcases (h _).1 hd with same | ⟨hd, different⟩
      · obtain ⟨rfl, rfl⟩ := Prod.mk.inj same
        exact .inl ⟨e, he, rfl⟩
      · exact .inr ⟨a, d, hd, different, e, he, rfl⟩
    · rintro (⟨e, he, rfl⟩ | ⟨a, d, hd, different, e, he, rfl⟩)
      · exact ⟨b, c, (h _).2 (.inl rfl), e, he, rfl⟩
      · exact ⟨a, d, (h _).2 (.inr ⟨hd, different⟩), e, he, rfl⟩
  apart _ hf := hf.apart

theorem graft_nil_of_mem_iff {l : List (UInt8 × Node V)}
    (h : ∀ e, e ∈ t.children ↔ e ∈ l ∧ e.1 ≠ b) (stem : Bytes) :
    Graft stem b (Beside stem b l) [] (inner stem t).entries where
  mem_iff f := by
    rw [mem_entries_inner]
    constructor
    · rintro ⟨a, d, hd, e, he, rfl⟩
      obtain ⟨hd, different⟩ := (h _).1 hd
      exact .inr ⟨a, d, hd, different, e, he, rfl⟩
    · rintro (⟨e, he, -⟩ | ⟨a, d, hd, different, e, he, rfl⟩)
      · exact absurd he List.not_mem_nil
      · exact ⟨a, d, (h _).2 ⟨hd, different⟩, e, he, rfl⟩
  apart _ hf := hf.apart

theorem graft_nil_of_stem {l : List (UInt8 × Node V)} {a : UInt8} {p : Bytes}
    (h : ∀ e, e = (a, c) ↔ e ∈ l ∧ e.1 ≠ b) :
    Graft p b (Beside p b l) [] (c.withStem (p ++ a :: c.stem)).entries where
  mem_iff f := by
    rw [entries_withStem, List.mem_map]
    constructor
    · rintro ⟨e, he, rfl⟩
      obtain ⟨hc, different⟩ := (h _).1 rfl
      exact .inr ⟨a, c, hc, different, e, he, rfl⟩
    · rintro (⟨e, he, -⟩ | ⟨x, d, hd, different, e, he, rfl⟩)
      · exact absurd he List.not_mem_nil
      · obtain ⟨rfl, rfl⟩ := Prod.mk.inj ((h _).2 ⟨hd, different⟩)
        exact ⟨e, he, rfl⟩
  apart _ hf := hf.apart

theorem graft_of_mem (h : s.Sound) (hc : (b, c) ∈ s.children) (stem : Bytes) :
    Graft stem b (Beside stem b s.children) c.entries (inner stem s).entries := by
  refine graft_of_mem_iff (fun ⟨a, d⟩ => ?_) stem
  by_cases same : a = b
  · subst same
    constructor
    · exact fun hd => .inl (congrArg _ ((Storage.ascending_children h).eq_of_mem hd hc))
    · rintro (equal | ⟨-, different⟩)
      · exact equal ▸ hc
      · exact absurd rfl different
  · simp [same]

theorem graft_of_absent (absent : ∀ c, (b, c) ∉ s.children) (stem : Bytes) :
    Graft stem b (Beside stem b s.children) [] (inner stem s).entries := by
  refine graft_nil_of_mem_iff (fun ⟨a, d⟩ => ?_) stem
  exact (and_iff_left_of_imp fun hd (same : a = b) => absent d (same ▸ hd)).symm

theorem graft_of_inserted {l : List (UInt8 × Node V)} (h : Inserted b c l t.children)
    (stem : Bytes) : Graft stem b (Beside stem b l) c.entries (inner stem t).entries := by
  refine graft_of_mem_iff (fun ⟨a, d⟩ => ?_) stem
  rw [h.2, and_iff_left_of_imp fun hd (same : a = b) => h.1 d (same ▸ hd)]

end AdaptiveRadix.Node
