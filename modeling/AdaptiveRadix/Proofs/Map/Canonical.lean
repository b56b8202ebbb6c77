import AdaptiveRadix.Proofs.Map.Regular
import AdaptiveRadix.Proofs.Node.Graph

/-!
The tree of a reachable map is the compressed trie of its entries in the smallest layouts. It has no
memory: maps with the same entries have the same graph, and print, count and measure the same,
whatever led to them.
-/

namespace AdaptiveRadix

open Dictionary

variable {V : Type}

namespace Tree

def forks (t : Tree V) : List Fork :=
  t.root.elim [] Node.forks

def tips (t : Tree V) : List (Tip V) :=
  t.root.elim [] Node.tips

def graph? (t : Tree V) : Option (Graph V) :=
  t.root.map Node.graph

/-- The inner nodes and leaves of a tree are those of the compressed trie of `d`. -/
structure Compressed (t : Tree V) (d : Dictionary V) : Prop where
  exists_fork_iff : ∀ w, (∃ f ∈ t.forks, f.path = w) ↔ d.Branches w
  nodup_paths : (t.forks.map (·.path)).Nodup
  mem_edges_iff : ∀ f ∈ t.forks, ∀ b, b ∈ f.edges ↔ d.Continues f.path b
  ascending : ∀ f ∈ t.forks, f.edges.Pairwise (· < ·)
  room : ∀ f ∈ t.forks, f.edges.length ≤ f.layout.width
  smallest : ∀ f ∈ t.forks, ∀ l : Layout, f.edges.length ≤ l.width → f.layout.width ≤ l.width
  map_entry_tips : t.tips.map Tip.entry = d
  tip_path : ∀ p ∈ t.tips, p.path = [] ∨ ∃ w b, p.path = w ++ [b] ∧ d.Branches w
  tip_alone : ∀ p ∈ t.tips, ∀ e ∈ d, p.path <+: e.key → e = p.entry

variable {t u : Tree V} {d : Dictionary V}

theorem Holds.compressed (h : t.Holds (fun l n => l.minimum ≤ n) d) : t.Compressed d := by
  obtain ⟨sound, filled, rfl⟩ := h
  obtain ⟨_ | n⟩ := t
  · have bare : (⟨none⟩ : Tree V).entries = [] := rfl
    constructor <;> simp [bare, forks, tips, Branches, Continues]
  · have sound := sound_some.1 sound
    have filled := filled_some.1 filled
    have forked := filled.forked sound Layout.stable_minimum
    have fits {f : Fork} (hf : f ∈ n.forks) := Node.fork_fits sound filled hf
    exact {
      exists_fork_iff := Node.exists_fork_iff sound forked
      nodup_paths := Node.nodup_paths sound
      mem_edges_iff := fun f hf b => Node.mem_edges_iff sound forked hf
      ascending := fun f hf => (fits hf).1
      room := fun f hf => (fits hf).2.2
      smallest := fun f hf l room => Layout.width_le_of_minimum_le (fits hf).2.1 room
      map_entry_tips := Node.map_entry_tips n
      tip_path := fun p hp => Node.tip_path_cases sound forked hp
      tip_alone := fun p hp e he => Node.eq_of_tip_prefix sound hp he }

section Same

variable (ht : t.Holds (fun l n => l.minimum ≤ n) d) (hu : u.Holds (fun l n => l.minimum ≤ n) d)

include ht hu

theorem root_cases :
    t.root = none ∧ u.root = none ∨ ∃ n m, t.root = some n ∧ u.root = some m ∧ n.Sound ∧ m.Sound ∧
      n.graph = m.graph := by
  obtain ⟨soundT, filledT, rfl⟩ := ht
  obtain ⟨soundU, filledU, same⟩ := hu
  have emptyT := root_eq_none_iff soundT (Filled.forked soundT Layout.stable_minimum filledT)
  have emptyU := root_eq_none_iff soundU (Filled.forked soundU Layout.stable_minimum filledU)
  rw [same, ← emptyT] at emptyU
  obtain ⟨_ | n⟩ := t
  · exact .inl ⟨rfl, emptyU.2 rfl⟩
  · obtain ⟨_ | m⟩ := u
    · exact absurd (emptyU.1 rfl) (Option.some_ne_none n)
    · refine .inr ⟨n, m, rfl, rfl, sound_some.1 soundT, sound_some.1 soundU, ?_⟩
      refine Node.graph_eq_of_mem_iff (sound_some.1 soundT) (sound_some.1 soundU)
        (filled_some.1 filledT) (filled_some.1 filledU) fun e => ?_
      rw [← entries_some, ← entries_some, same]

theorem graph?_eq : t.graph? = u.graph? := by
  rcases root_cases ht hu with ⟨none, none'⟩ | ⟨n, m, some, some', -, -, same⟩
  · rw [graph?, graph?, none, none']
  · rw [graph?, graph?, some, some', Option.map_some, Option.map_some, same]

theorem map_fold_root_eq {β : Type} {onLeaf : Bytes → V → UInt64 → β}
    {onInner : Bytes → Storage (Node V) → List (UInt8 × β) → β}
    (blind : ∀ stem s t below, s.layout = t.layout → s.count = t.count →
      onInner stem s below = onInner stem t below) :
    t.root.map (Node.fold onLeaf onInner) = u.root.map (Node.fold onLeaf onInner) := by
  rcases root_cases ht hu with ⟨none, none'⟩ | ⟨n, m, some, some', sound, sound', same⟩
  · rw [none, none']
  · rw [some, some', Option.map_some, Option.map_some,
      Node.fold_eq_of_graph_eq blind sound sound' same]

theorem dump_eq : t.dump = u.dump := by
  have read (t : Tree V) : t.dump = (t.root.map Node.lines).elim "[]\n" fun lines =>
      String.join ((lines 0).map fun line => line.render ++ "\n") := by
    rw [dump]
    cases t.root <;> rfl
  have same : t.root.map Node.lines = u.root.map Node.lines :=
    map_fold_root_eq ht hu fun stem s t below layout count => by simp only [layout, count]
  rw [read t, read u, same]

theorem map_debugText_root_eq (value : V → String) :
    t.root.map (DebugText.node value) = u.root.map (DebugText.node value) :=
  map_fold_root_eq ht hu fun stem s t below layout _ => by simp only [layout]

theorem census_eq : Census.ofTree t = Census.ofTree u := by
  have read (t : Tree V) : Census.ofTree t =
      (t.root.map fun n level c => Census.addNode n level c).elim Census.zero
        fun add => add 1 Census.zero := by
    rw [Census.ofTree]
    cases t.root <;> rfl
  have same : (t.root.map fun n level c => Census.addNode n level c) =
      u.root.map fun n level c => Census.addNode n level c :=
    map_fold_root_eq ht hu fun stem s t below layout count => by simp only [layout, count]
  rw [read t, read u, same]

theorem height_eq : t.height = u.height := by
  have read (t : Tree V) : t.height = (t.root.map Node.height).elim 0 id := by
    rw [height]
    cases t.root <;> rfl
  have same : t.root.map Node.height = u.root.map Node.height :=
    map_fold_root_eq ht hu fun stem s t below layout count => rfl
  rw [read t, read u, same]

end Same

end Tree

namespace Map

variable {m m' : Map V} {d d' : Dictionary V}

theorem Represents.eq_of_answers (h : Represents m d) (h' : Represents m' d')
    (same : ∀ key, m.get? key = m'.get? key ∧ m.hits? key = m'.hits? key) : d = d' := by
  have subset {m m' : Map V} {d d' : Dictionary V} (h : Represents m d) (h' : Represents m' d')
      (same : ∀ key, m.get? key = m'.get? key ∧ m.hits? key = m'.hits? key) (e : Entry V)
      (he : e ∈ d) : e ∈ d' := by
    obtain ⟨value, hits⟩ := same e.key
    rw [h.get?_eq, h'.get?_eq, h.ordered.entry?_eq_some_iff.2 ⟨he, rfl⟩] at value
    rw [h.hits?_eq, h'.hits?_eq, h.ordered.entry?_eq_some_iff.2 ⟨he, rfl⟩] at hits
    cases found : d'.entry? e.key with
    | none =>
      rw [found] at value
      cases value
    | some f =>
      obtain ⟨hf, key⟩ := h'.ordered.entry?_eq_some_iff.1 found
      rw [found] at value hits
      cases e
      cases f
      simp_all
  exact h.ordered.ext h'.ordered fun e =>
    ⟨subset h h' same e, subset h' h (fun key => ⟨(same key).1.symm, (same key).2.symm⟩) e⟩

/-- After every run from the empty map the tree is the compressed trie of the entries, and any two
runs that end with the same entries end with trees that print, count and measure the same. -/
theorem canonical_of_run (steps : List (Step V)) (o : Outcome (Map V) (List (Reply V)))
    (reached : run empty steps = .ok o) :
    o.after.tree.Compressed (Dictionary.run [] steps).2 ∧
      ∀ steps' o', run empty steps' = .ok o' →
        (∀ key, o.after.get? key = o'.after.get? key ∧ o.after.hits? key = o'.after.hits? key) →
        o.after.tree.graph? = o'.after.tree.graph? ∧ o.after.tree.dump = o'.after.tree.dump ∧
        (∀ value : V → String, o.after.tree.root.map (DebugText.node value) =
          o'.after.tree.root.map (DebugText.node value)) ∧
        Census.ofTree o.after.tree = Census.ofTree o'.after.tree ∧
        o.after.tree.height = o'.after.tree.height := by
  have represents := represents_of_run reached
  refine ⟨represents.holds.compressed, fun steps' o' reached' same => ?_⟩
  have represents' := represents_of_run reached'
  have holds := represents.holds
  have holds' := represents.eq_of_answers represents' same ▸ represents'.holds
  exact ⟨Tree.graph?_eq holds holds', Tree.dump_eq holds holds',
    Tree.map_debugText_root_eq holds holds', Tree.census_eq holds holds',
    Tree.height_eq holds holds'⟩

theorem canonical_of_run_detour :
    ∃ o o', run (empty : Map Nat) [.insert [7, 1] 10, .insert [7, 2] 20, .insert [7, 3] 30,
          .insert [7, 4] 40, .insert [7, 5] 50, .remove [7, 3], .remove [7, 5], .remove [7, 4]] =
        .ok o ∧
      run (empty : Map Nat) [.insert [7, 2] 20, .insert [7, 1] 10] = .ok o' ∧
      o.after.tree.Compressed [⟨[7, 1], 10, 1⟩, ⟨[7, 2], 20, 1⟩] ∧
      o.after.tree.dump = o'.after.tree.dump := by
  obtain ⟨o, reached⟩ := Checked.exists_of_isOk (x := run (empty : Map Nat) [.insert [7, 1] 10,
    .insert [7, 2] 20, .insert [7, 3] 30, .insert [7, 4] 40, .insert [7, 5] 50, .remove [7, 3],
    .remove [7, 5], .remove [7, 4]]) (by decide +kernel)
  obtain ⟨o', reached'⟩ := Checked.exists_of_isOk
    (x := run (empty : Map Nat) [.insert [7, 2] 20, .insert [7, 1] 10]) (by decide +kernel)
  have left := represents_of_run reached
  have right := represents_of_run reached'
  have same (key : Bytes) :
      o.after.get? key = o'.after.get? key ∧ o.after.hits? key = o'.after.hits? key := by
    rw [left.get?_eq, left.hits?_eq, right.get?_eq, right.hits?_eq]
    exact ⟨rfl, rfl⟩
  obtain ⟨compressed, agree⟩ := canonical_of_run _ o reached
  exact ⟨o, o', reached, reached', compressed, (agree _ o' reached' same).2.1⟩

end Map

end AdaptiveRadix
