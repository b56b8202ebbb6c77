import AdaptiveRadix.Proofs.Node.Entries

/-!
A tree with a fork at every inner node is the compressed trie of its entries: its inner nodes stand
where keys part, and nowhere else. Forks and tips are the inner nodes and the leaves, each with the
bytes that lead to it from the root.
-/

namespace AdaptiveRadix

variable {V : Type}

/-- An inner node: the bytes from the root to the end of its stem, and its edges. -/
structure Fork where
  path : Bytes
  layout : Layout
  edges : Bytes

def Fork.under (stem : Bytes) (b : UInt8) (f : Fork) : Fork :=
  { f with path := stem ++ b :: f.path }

/-- A leaf: the bytes from the root to the start of its suffix, and the suffix with what it
holds. -/
structure Tip (V : Type) where
  path : Bytes
  leaf : Entry V

def Tip.under (stem : Bytes) (b : UInt8) (t : Tip V) : Tip V :=
  { t with path := stem ++ b :: t.path }

def Tip.entry (t : Tip V) : Entry V :=
  { t.leaf with key := t.path ++ t.leaf.key }

theorem Tip.entry_under (stem : Bytes) (b : UInt8) (t : Tip V) :
    (t.under stem b).entry = t.entry.under stem b := by
  simp [under, entry, Entry.under]

namespace Dictionary

variable {d : Dictionary V} {w x y stem : Bytes} {a b : UInt8} {e : Entry V}

def Continues (d : Dictionary V) (w : Bytes) (b : UInt8) : Prop :=
  ∃ e ∈ d, w ++ [b] <+: e.key

/-- Keys that start with `w` go on with different bytes. -/
def Branches (d : Dictionary V) (w : Bytes) : Prop :=
  ∃ a b, a ≠ b ∧ d.Continues w a ∧ d.Continues w b

theorem edge_eq_of_extends (ha : w ++ [a] <+: x) (hb : w ++ [b] <+: x) : a = b :=
  not_not.1 fun different => not_prefix_of_edge_ne different ha hb List.prefix_rfl

theorem prefix_under_iff : stem ++ b :: w ++ [a] <+: (e.under stem b).key ↔ w ++ [a] <+: e.key := by
  simp [Entry.under, List.prefix_append_right_inj]

theorem Branches.starts (h : d.Branches w) {x : Bytes} (all : ∀ e ∈ d, x <+: e.key) : x <+: w := by
  obtain ⟨a, b, different, ⟨e, he, ha⟩, ⟨f, hf, hb⟩⟩ := h
  by_cases long : x.length ≤ w.length
  · exact List.prefix_of_prefix_length_le (all e he) ((List.prefix_append _ _).trans ha) long
  · have reaches {g : Entry V} {c : UInt8} (hg : g ∈ d) (hc : w ++ [c] <+: g.key) :
        w ++ [c] <+: x :=
      List.prefix_of_prefix_length_le hc (all g hg) (by rw [List.length_append]; simp; omega)
    exact absurd (edge_eq_of_extends (reaches he ha) (reaches hf hb)) different

theorem not_branches_singleton : ¬ Branches [e] w := by
  rintro ⟨a, b, different, ⟨f, hf, ha⟩, ⟨g, hg, hb⟩⟩
  obtain rfl := List.mem_singleton.1 hf
  obtain rfl := List.mem_singleton.1 hg
  exact different (edge_eq_of_extends ha hb)

end Dictionary

namespace Node

open Dictionary Edges

variable {n c : Node V} {s : Storage (Node V)} {stem w : Bytes} {b : UInt8}

def forks : Node V → List Fork :=
  fold (fun _ _ _ => []) fun stem s below =>
    ⟨stem, s.layout, s.children.map (·.1)⟩ ::
      below.flatMap fun (b, fs) => fs.map (Fork.under stem b)

theorem forks_leaf (suffix : Bytes) (value : V) (hits : UInt64) :
    (leaf suffix value hits).forks = [] :=
  fold_leaf ..

theorem forks_inner (stem : Bytes) (s : Storage (Node V)) :
    (inner stem s).forks = ⟨stem, s.layout, s.children.map (·.1)⟩ ::
      s.children.flatMap fun c => c.2.forks.map (Fork.under stem c.1) := by
  rw [forks, fold_inner, List.flatMap_map]

theorem mem_forks_inner {f : Fork} :
    f ∈ (inner stem s).forks ↔ f = ⟨stem, s.layout, s.children.map (·.1)⟩ ∨
      ∃ b c, (b, c) ∈ s.children ∧ ∃ g ∈ c.forks, f = g.under stem b := by
  simp only [forks_inner, List.mem_cons, List.mem_flatMap, List.mem_map, Prod.exists, eq_comm]

def tips : Node V → List (Tip V) :=
  fold (fun suffix value hits => [⟨[], suffix, value, hits⟩]) fun stem _ below =>
    below.flatMap fun (b, ts) => ts.map (Tip.under stem b)

theorem tips_leaf (suffix : Bytes) (value : V) (hits : UInt64) :
    (leaf suffix value hits).tips = [⟨[], suffix, value, hits⟩] :=
  fold_leaf ..

theorem tips_inner (stem : Bytes) (s : Storage (Node V)) :
    (inner stem s).tips = s.children.flatMap fun c => c.2.tips.map (Tip.under stem c.1) := by
  rw [tips, fold_inner, List.flatMap_map]

theorem mem_tips_inner {t : Tip V} :
    t ∈ (inner stem s).tips ↔ ∃ b c, (b, c) ∈ s.children ∧ ∃ u ∈ c.tips, t = u.under stem b := by
  simp only [tips_inner, List.mem_flatMap, List.mem_map, Prod.exists, eq_comm]

theorem map_entry_tips (n : Node V) : n.tips.map Tip.entry = n.entries := by
  induction n using induct with
  | leaf suffix value hits => rw [tips_leaf, entries_leaf]; rfl
  | inner stem s ih =>
    rw [tips_inner, entries_inner, List.map_flatMap]
    refine List.flatMap_congr fun c hc => ?_
    rw [← ih c hc, List.map_map, List.map_map]
    exact List.map_congr_left fun t _ => t.entry_under stem c.1

theorem exists_of_edge {e : Entry V} (sound : s.Sound) (hc : (b, c) ∈ s.children)
    (he : e ∈ (inner stem s).entries) (takes : stem ++ [b] <+: e.key) :
    ∃ f ∈ c.entries, e = f.under stem b := by
  obtain ⟨a, d, hd, f, hf, rfl⟩ := mem_entries_inner.1 he
  obtain rfl : b = a := edge_eq_of_extends takes (edge_prefix_under stem a f)
  obtain rfl := (Storage.ascending_children sound).eq_of_mem hc hd
  exact ⟨f, hf, rfl⟩

section Forked

variable (h : n.Sound) (forked : n.Forked)

theorem continues_inner_iff (hs : (inner stem s).Sound) (forked : (inner stem s).Forked) :
    Continues (inner stem s).entries stem b ↔ ∃ c, (b, c) ∈ s.children := by
  constructor
  · rintro ⟨e, he, starts⟩
    obtain ⟨a, c, hc, e, -, rfl⟩ := mem_entries_inner.1 he
    exact ⟨c, edge_eq_of_extends (edge_prefix_under stem a e) starts ▸ hc⟩
  · rintro ⟨c, hc⟩
    obtain ⟨e, he⟩ := exists_entry ((sound_inner.1 hs).2 _ hc) ((filled_inner.1 forked).2 _ hc)
    exact ⟨e.under stem b, mem_entries_inner.2 ⟨b, c, hc, e, he, rfl⟩, edge_prefix_under ..⟩

theorem branches_stem (hs : (inner stem s).Sound) (forked : (inner stem s).Forked) :
    Branches (inner stem s).entries stem := by
  obtain ⟨sound, -⟩ := sound_inner.1 hs
  have several := (filled_inner.1 forked).1
  rw [← Storage.length_children sound] at several
  have ascending := Storage.ascending_children sound
  rcases children : s.children with _ | ⟨⟨a, c⟩, _ | ⟨⟨b, d⟩, rest⟩⟩
  · rw [children] at several
    contradiction
  · rw [children] at several
    exact absurd several (Nat.lt_irrefl 1)
  · rw [children] at ascending
    have lt : a < b := (List.pairwise_cons.1 ascending).1 _ List.mem_cons_self
    refine ⟨a, b, UInt8.ne_of_lt lt, (continues_inner_iff hs forked).2 ⟨c, ?_⟩,
      (continues_inner_iff hs forked).2 ⟨d, ?_⟩⟩
    · simp [children]
    · simp [children]

theorem branches_inner_iff (hs : (inner stem s).Sound) (forked : (inner stem s).Forked) :
    Branches (inner stem s).entries w ↔
      w = stem ∨ ∃ b c, (b, c) ∈ s.children ∧ ∃ v, w = stem ++ b :: v ∧ Branches c.entries v := by
  constructor
  · intro h
    have ends : stem <+: w := h.starts fun e he => stem_prefix_of_mem he
    obtain ⟨a, b, different, ⟨e, he, ha⟩, ⟨f, hf, hb⟩⟩ := h
    obtain ⟨_ | ⟨x, v⟩, rfl⟩ := ends
    · exact .inl (List.append_nil _)
    · have takes {key : Bytes} {r : UInt8} (hr : stem ++ x :: v ++ [r] <+: key) :
          stem ++ [x] <+: key :=
        List.IsPrefix.trans ⟨v ++ [r], by simp⟩ hr
      obtain ⟨y, c, hc, e, he', rfl⟩ := mem_entries_inner.1 he
      obtain rfl : x = y := edge_eq_of_extends (takes ha) (edge_prefix_under stem y e)
      obtain ⟨f, hf', rfl⟩ := exists_of_edge (sound_inner.1 hs).1 hc hf (takes hb)
      exact .inr ⟨x, c, hc, v, rfl, a, b, different, ⟨e, he', prefix_under_iff.1 ha⟩,
        ⟨f, hf', prefix_under_iff.1 hb⟩⟩
  · rintro (rfl | ⟨x, c, hc, v, rfl, a, b, different, ⟨e, he, ha⟩, ⟨f, hf, hb⟩⟩)
    · exact branches_stem hs forked
    · exact ⟨a, b, different,
        ⟨e.under stem x, mem_entries_inner.2 ⟨x, c, hc, e, he, rfl⟩, prefix_under_iff.2 ha⟩,
        ⟨f.under stem x, mem_entries_inner.2 ⟨x, c, hc, f, hf, rfl⟩, prefix_under_iff.2 hb⟩⟩

include h forked

/-- Inner nodes stand exactly where keys part. -/
theorem exists_fork_iff (w : Bytes) : (∃ f ∈ n.forks, f.path = w) ↔ Branches n.entries w := by
  induction n using induct generalizing w with
  | leaf suffix value hits =>
    rw [forks_leaf, entries_leaf]
    exact iff_of_false (fun ⟨f, hf, _⟩ => absurd hf List.not_mem_nil) not_branches_singleton
  | inner stem s ih =>
    rw [branches_inner_iff h forked]
    obtain ⟨-, below⟩ := sound_inner.1 h
    obtain ⟨-, forks⟩ := filled_inner.1 forked
    constructor
    · rintro ⟨f, hf, rfl⟩
      rcases mem_forks_inner.1 hf with rfl | ⟨b, c, hc, g, hg, rfl⟩
      · exact .inl rfl
      · exact .inr ⟨b, c, hc, g.path, rfl, (ih _ hc (below _ hc) (forks _ hc) _).1 ⟨g, hg, rfl⟩⟩
    · rintro (rfl | ⟨b, c, hc, v, rfl, branches⟩)
      · exact ⟨_, mem_forks_inner.2 (.inl rfl), rfl⟩
      · obtain ⟨g, hg, rfl⟩ := (ih _ hc (below _ hc) (forks _ hc) _).2 branches
        exact ⟨g.under stem b, mem_forks_inner.2 (.inr ⟨b, c, hc, g, hg, rfl⟩), rfl⟩

theorem mem_edges_iff {f : Fork} (hf : f ∈ n.forks) :
    b ∈ f.edges ↔ Continues n.entries f.path b := by
  induction n using induct generalizing f with
  | leaf suffix value hits => exact absurd (forks_leaf suffix value hits ▸ hf) List.not_mem_nil
  | inner stem s ih =>
    rcases mem_forks_inner.1 hf with rfl | ⟨a, c, hc, g, hg, rfl⟩
    · rw [continues_inner_iff h forked]
      simp
    · refine (ih _ hc ((sound_inner.1 h).2 _ hc) ((filled_inner.1 forked).2 _ hc) hg).trans ?_
      constructor
      · rintro ⟨e, he, starts⟩
        exact ⟨e.under stem a, mem_entries_inner.2 ⟨a, c, hc, e, he, rfl⟩,
          prefix_under_iff.2 starts⟩
      · rintro ⟨e, he, starts⟩
        have takes : stem ++ [a] <+: e.key :=
          List.IsPrefix.trans ⟨g.path ++ [b], by simp [Fork.under]⟩ starts
        obtain ⟨e, he', rfl⟩ := exists_of_edge (sound_inner.1 h).1 hc he takes
        exact ⟨e, he', prefix_under_iff.1 starts⟩

theorem tip_path_cases {t : Tip V} (ht : t ∈ n.tips) :
    t.path = [] ∨ ∃ w b, t.path = w ++ [b] ∧ Branches n.entries w := by
  induction n using induct generalizing t with
  | leaf suffix value hits =>
    rw [tips_leaf, List.mem_singleton] at ht
    exact .inl (ht ▸ rfl)
  | inner stem s ih =>
    obtain ⟨b, c, hc, u, hu, rfl⟩ := mem_tips_inner.1 ht
    rcases ih _ hc ((sound_inner.1 h).2 _ hc) ((filled_inner.1 forked).2 _ hc) hu with
      top | ⟨w, x, path, branches⟩
    · refine .inr ⟨stem, b, ?_, branches_stem h forked⟩
      rw [Tip.under, top]
    · refine .inr ⟨stem ++ b :: w, x, ?_, (branches_inner_iff h forked).2
        (.inr ⟨b, c, hc, w, rfl, branches⟩)⟩
      simp [Tip.under, path]

omit forked

theorem eq_of_tip_prefix {t : Tip V} (ht : t ∈ n.tips) {e : Entry V} (he : e ∈ n.entries)
    (starts : t.path <+: e.key) : e = t.entry := by
  induction n using induct generalizing t e with
  | leaf suffix value hits =>
    rw [tips_leaf, List.mem_singleton] at ht
    rw [entries_leaf, List.mem_singleton] at he
    rw [ht, he]
    rfl
  | inner stem s ih =>
    obtain ⟨sound, below⟩ := sound_inner.1 h
    obtain ⟨b, c, hc, u, hu, rfl⟩ := mem_tips_inner.1 ht
    have takes : stem ++ [b] <+: e.key := List.IsPrefix.trans ⟨u.path, by simp [Tip.under]⟩ starts
    obtain ⟨f, hf, rfl⟩ := exists_of_edge sound hc he takes
    rw [Tip.entry_under, ih _ hc (below _ hc) hu hf]
    simpa [Tip.under, Entry.under, List.prefix_append_right_inj] using starts

theorem fork_fits {rule : Layout → Nat → Prop} (filled : n.Filled rule) {f : Fork}
    (hf : f ∈ n.forks) :
    f.edges.Pairwise (· < ·) ∧ rule f.layout f.edges.length ∧ f.edges.length ≤ f.layout.width := by
  induction n using induct generalizing f with
  | leaf suffix value hits => exact absurd (forks_leaf suffix value hits ▸ hf) List.not_mem_nil
  | inner stem s ih =>
    obtain ⟨sound, below⟩ := sound_inner.1 h
    obtain ⟨here, rest⟩ := filled_inner.1 filled
    rcases mem_forks_inner.1 hf with rfl | ⟨b, c, hc, g, hg, rfl⟩
    · rw [List.length_map, Storage.length_children sound]
      exact ⟨(Storage.ascending_children sound).keys, here, Storage.count_le sound⟩
    · exact ih _ hc (below _ hc) (rest _ hc) (f := g) hg

theorem nodup_paths : (n.forks.map (·.path)).Nodup := by
  induction n using induct with
  | leaf suffix value hits =>
    rw [forks_leaf]
    exact List.nodup_nil
  | inner stem s ih =>
    obtain ⟨sound, below⟩ := sound_inner.1 h
    rw [forks_inner, List.map_cons, List.map_flatMap]
    refine List.nodup_cons.2 ⟨fun mem => ?_, ?_⟩
    · simp [Fork.under] at mem
    · refine List.pairwise_flatMap.2 ⟨fun c hc => ?_, ?_⟩
      · rw [List.map_map]
        have apart := List.pairwise_map.1 (ih c hc (below c hc))
        refine List.pairwise_map.2 (apart.imp fun apart => ?_)
        simpa [Fork.under] using apart
      · refine (Storage.ascending_children sound).imp fun {x y} lt p hp q hq => ?_
        simp only [List.map_map, List.mem_map] at hp hq
        obtain ⟨f, -, rfl⟩ := hp
        obtain ⟨g, -, rfl⟩ := hq
        simp [Fork.under, UInt8.ne_of_lt lt]

end Forked

end Node

end AdaptiveRadix
