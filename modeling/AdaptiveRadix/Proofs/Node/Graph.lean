import AdaptiveRadix.Proofs.Node.Compressed

/-!
What is seen of a tree when its storages are only looked into. Compact trees with the same entries
have the same graph, since where the keys part decides stems, edges and layouts; and whatever is
computed by a fold that reads no more of a storage than its layout and its number of children is the
same on trees with the same graph.
-/

namespace AdaptiveRadix

open Dictionary Edges

variable {V β : Type}

inductive Graph (V : Type) where
  | leaf (suffix : Bytes) (value : V) (hits : UInt64)
  | inner (stem : Bytes) (layout : Layout) (children : List (UInt8 × Graph V))

theorem Layout.eq_of_fits {l m : Layout} {n : Nat} (hl : l.minimum ≤ n) (hl' : n ≤ l.width)
    (hm : m.minimum ≤ n) (hm' : n ≤ m.width) : l = m := by
  cases l <;> cases m <;> simp only [minimum, width, reduceCtorEq] at * <;> omega

theorem Layout.width_le_of_minimum_le {l m : Layout} {n : Nat} (hl : l.minimum ≤ n)
    (hm : n ≤ m.width) : l.width ≤ m.width := by
  cases l <;> cases m <;> simp only [minimum, width] at * <;> omega

namespace Node

variable {n m c : Node V} {s : Storage (Node V)} {stem : Bytes} {b : UInt8} {e : Entry V}

def graph : Node V → Graph V :=
  fold .leaf fun stem s below => .inner stem s.layout below

theorem graph_leaf (suffix : Bytes) (value : V) (hits : UInt64) :
    (leaf suffix value hits).graph = .leaf suffix value hits :=
  fold_leaf ..

theorem graph_inner (stem : Bytes) (s : Storage (Node V)) :
    (inner stem s).graph = .inner stem s.layout (s.children.map fun c => (c.1, c.2.graph)) :=
  fold_inner ..

theorem mem_entries_child_iff (sound : s.Sound) (hc : (b, c) ∈ s.children) (stem : Bytes) :
    e ∈ c.entries ↔ e.under stem b ∈ (inner stem s).entries := by
  constructor
  · exact fun he => mem_entries_inner.2 ⟨b, c, hc, e, he, rfl⟩
  · intro he
    obtain ⟨f, hf, same⟩ := exists_of_edge sound hc he (edge_prefix_under stem b e)
    exact under_inj.1 same ▸ hf

theorem not_mem_iff_of_leaf {suffix : Bytes} {value : V} {hits : UInt64}
    (hs : (inner stem s).Sound) (forked : (inner stem s).Forked)
    (same : ∀ e, e ∈ (leaf suffix value hits).entries ↔ e ∈ (inner stem s).entries) : False := by
  obtain ⟨a, b, different, ⟨e, he, ha⟩, ⟨f, hf, hb⟩⟩ := branches_stem hs forked
  refine not_branches_singleton (e := ⟨suffix, value, hits⟩) (w := stem) ?_
  rw [← entries_leaf]
  exact ⟨a, b, different, ⟨e, (same e).2 he, ha⟩, ⟨f, (same f).2 hf, hb⟩⟩

section Same

variable {stem' : Bytes} {s' : Storage (Node V)} (hs : (inner stem s).Sound)
  (hs' : (inner stem' s').Sound) (forked : (inner stem s).Forked)
  (forked' : (inner stem' s').Forked)
  (same : ∀ e, e ∈ (inner stem s).entries ↔ e ∈ (inner stem' s').entries)

include hs hs' forked forked' same

theorem stem_eq_of_mem_iff : stem = stem' := by
  -- what all common keys start with ends no later than where either tree has them part
  have left : stem <+: stem' :=
    (branches_stem hs' forked').starts fun e he => stem_prefix_of_mem ((same e).2 he)
  have right : stem' <+: stem :=
    (branches_stem hs forked).starts fun e he => stem_prefix_of_mem ((same e).1 he)
  exact left.eq_of_length (Nat.le_antisymm left.length_le right.length_le)

theorem exists_child_iff_of_mem_iff (b : UInt8) :
    (∃ c, (b, c) ∈ s.children) ↔ ∃ c, (b, c) ∈ s'.children := by
  obtain rfl := stem_eq_of_mem_iff hs hs' forked forked' same
  rw [← continues_inner_iff hs forked, ← continues_inner_iff hs' forked']
  exact exists_congr fun e => and_congr_left fun _ => same e

end Same

theorem count_eq_of_map_eq {t : Storage (Node V)} {f : UInt8 × Node V → β} (hs : s.Sound)
    (ht : t.Sound) (same : s.children.map f = t.children.map f) : s.count = t.count := by
  refine Storage.count_eq_of_length_eq hs ht ?_
  simpa using congrArg List.length same

/-- Compact trees with the same entries have the same graph. -/
theorem graph_eq_of_mem_iff (hn : n.Sound) (hm : m.Sound)
    (fn : n.Filled fun l k => l.minimum ≤ k) (fm : m.Filled fun l k => l.minimum ≤ k)
    (same : ∀ e, e ∈ n.entries ↔ e ∈ m.entries) : n.graph = m.graph := by
  have forkedN := fn.forked hn Layout.stable_minimum
  have forkedM := fm.forked hm Layout.stable_minimum
  induction n using induct generalizing m with
  | leaf suffix value hits =>
    cases m with
    | leaf suffix' value' hits' =>
      have := (same ⟨suffix, value, hits⟩).1 (by simp [entries_leaf])
      rw [entries_leaf, List.mem_singleton] at this
      cases this
      rfl
    | inner stem s => exact absurd same (not_mem_iff_of_leaf hm forkedM)
  | inner stem s ih =>
    cases m with
    | leaf suffix value hits =>
      exact absurd (fun e => (same e).symm) (not_mem_iff_of_leaf hn forkedN)
    | inner stem' s' =>
      have edges := exists_child_iff_of_mem_iff hn hm forkedN forkedM same
      obtain rfl := stem_eq_of_mem_iff hn hm forkedN forkedM same
      obtain ⟨sound, below⟩ := sound_inner.1 hn
      obtain ⟨sound', below'⟩ := sound_inner.1 hm
      obtain ⟨here, rest⟩ := filled_inner.1 fn
      obtain ⟨here', rest'⟩ := filled_inner.1 fm
      have graphs {b : UInt8} {c d : Node V} (hc : (b, c) ∈ s.children)
          (hd : (b, d) ∈ s'.children) : c.graph = d.graph := by
        refine ih _ hc (below _ hc) (below' _ hd) (rest _ hc) (rest' _ hd) (fun e => ?_)
          ((filled_inner.1 forkedN).2 _ hc) ((filled_inner.1 forkedM).2 _ hd)
        rw [mem_entries_child_iff sound hc stem, same, mem_entries_child_iff sound' hd stem]
      have children : (s.children.map fun c => (c.1, c.2.graph)) =
          s'.children.map fun c => (c.1, c.2.graph) := by
        refine ((Storage.ascending_children sound).map graph).ext
          ((Storage.ascending_children sound').map graph) fun ⟨b, g⟩ => ?_
        simp only [List.mem_map, Prod.mk.injEq, Prod.exists]
        constructor
        · rintro ⟨b, c, hc, rfl, rfl⟩
          obtain ⟨d, hd⟩ := (edges b).1 ⟨c, hc⟩
          exact ⟨b, d, hd, rfl, (graphs hc hd).symm⟩
        · rintro ⟨b, d, hd, rfl, rfl⟩
          obtain ⟨c, hc⟩ := (edges b).2 ⟨d, hd⟩
          exact ⟨b, c, hc, rfl, graphs hc hd⟩
      -- with equal counts only one layout is neither too small nor too large
      have count := count_eq_of_map_eq sound sound' children
      have layout : s.layout = s'.layout :=
        Layout.eq_of_fits here (Storage.count_le sound) (count ▸ here')
          (count ▸ Storage.count_le sound')
      rw [graph_inner, graph_inner, children, layout]

theorem map_eq_map_of_graph {γ : Type} {g : Node V → γ} {f : Node V → β}
    {l l' : List (UInt8 × Node V)}
    (same : (l.map fun c => (c.1, g c.2)) = l'.map fun c => (c.1, g c.2))
    (implies : ∀ c ∈ l, ∀ d ∈ l', g c.2 = g d.2 → f c.2 = f d.2) :
    (l.map fun c => (c.1, f c.2)) = l'.map fun c => (c.1, f c.2) := by
  induction l generalizing l' with
  | nil =>
    cases l' with
    | nil => rfl
    | cons d l' => cases same
  | cons c l ih =>
    cases l' with
    | nil => cases same
    | cons d l' =>
      obtain ⟨first, rest⟩ := List.cons.inj same
      obtain ⟨byte, node⟩ := Prod.mk.inj first
      have below := ih rest fun c hc d hd =>
        implies c (List.mem_cons_of_mem _ hc) d (List.mem_cons_of_mem _ hd)
      rw [List.map_cons, List.map_cons, below, byte,
        implies c List.mem_cons_self d List.mem_cons_self node]

theorem fold_eq_of_graph_eq {onLeaf : Bytes → V → UInt64 → β}
    {onInner : Bytes → Storage (Node V) → List (UInt8 × β) → β}
    (blind : ∀ stem s t below, s.layout = t.layout → s.count = t.count →
      onInner stem s below = onInner stem t below)
    (hn : n.Sound) (hm : m.Sound) (same : n.graph = m.graph) :
    fold onLeaf onInner n = fold onLeaf onInner m := by
  induction n using induct generalizing m with
  | leaf suffix value hits =>
    cases m with
    | leaf suffix' value' hits' =>
      rw [graph_leaf, graph_leaf] at same
      cases same
      rfl
    | inner stem s =>
      rw [graph_leaf, graph_inner] at same
      cases same
  | inner stem s ih =>
    cases m with
    | leaf suffix value hits =>
      rw [graph_leaf, graph_inner] at same
      cases same
    | inner stem' s' =>
      obtain ⟨sound, below⟩ := sound_inner.1 hn
      obtain ⟨sound', below'⟩ := sound_inner.1 hm
      rw [graph_inner, graph_inner] at same
      obtain ⟨rfl, layout, children⟩ := Graph.inner.inj same
      have count := count_eq_of_map_eq sound sound' children
      have results := map_eq_map_of_graph (f := fold onLeaf onInner) children
        fun c hc d hd => ih c hc (below c hc) (below' d hd)
      rw [fold_inner, fold_inner, results]
      exact blind stem s s' _ layout count

end Node

end AdaptiveRadix
