import AdaptiveRadix.Proofs.Node.Compressed
import AdaptiveRadix.Proofs.Node.Population

/-!
How many inner nodes there are and how deep they go, measured by the entries. At every level a key
gives up at least the byte of an edge, and where every inner node has two children there are fewer
of them than leaves.
-/

namespace AdaptiveRadix

theorem foldl_max_le_iff {l : List Nat} {a k : Nat} :
    l.foldl max a ≤ k ↔ a ≤ k ∧ ∀ x ∈ l, x ≤ k := by
  induction l generalizing a with
  | nil => simp
  | cons x l ih => rw [List.foldl_cons, ih, Nat.max_le, List.forall_mem_cons, and_assoc]

namespace Census

theorem total_add (f g : Layout → Nat) : (total fun l => f l + g l) = total f + total g := by
  simp only [total]
  omega

theorem total_single (l : Layout) (k : Nat) : (total fun m => if m = l then k else 0) = k := by
  cases l
  · exact Nat.add_zero k
  · simp [total]
  · simp [total]
  · simp [total]

end Census

namespace Node

open Edges

variable {V : Type} {n : Node V} {stem : Bytes} {s : Storage (Node V)} {i k : Nat} {e : Entry V}

/-- The entries, each with the number of inner nodes above its leaf. -/
def levels : Node V → List (Nat × Entry V) :=
  fold (fun suffix value hits => [(0, ⟨suffix, value, hits⟩)]) fun stem _ below =>
    below.flatMap fun (b, ls) => ls.map fun p => (p.1 + 1, p.2.under stem b)

theorem levels_leaf (suffix : Bytes) (value : V) (hits : UInt64) :
    (leaf suffix value hits).levels = [(0, ⟨suffix, value, hits⟩)] :=
  fold_leaf ..

theorem levels_inner (stem : Bytes) (s : Storage (Node V)) :
    (inner stem s).levels =
      s.children.flatMap fun c => c.2.levels.map fun p => (p.1 + 1, p.2.under stem c.1) := by
  rw [levels, fold_inner, List.flatMap_map]

theorem mem_levels_inner : (i, e) ∈ (inner stem s).levels ↔
    ∃ b c, (b, c) ∈ s.children ∧ ∃ j f, (j, f) ∈ c.levels ∧ i = j + 1 ∧ e = f.under stem b := by
  simp only [levels_inner, List.mem_flatMap, List.mem_map, Prod.exists, Prod.mk.injEq, eq_comm]

theorem map_snd_levels (n : Node V) : n.levels.map (·.2) = n.entries := by
  induction n using induct with
  | leaf suffix value hits => rw [levels_leaf, entries_leaf]; rfl
  | inner stem s ih =>
    rw [levels_inner, entries_inner, List.map_flatMap]
    refine List.flatMap_congr fun c hc => ?_
    rw [← ih c hc, List.map_map, List.map_map]
    rfl

theorem level_le_length (h : (i, e) ∈ n.levels) : i ≤ e.key.length := by
  induction n using induct generalizing i e with
  | leaf suffix value hits =>
    rw [levels_leaf, List.mem_singleton] at h
    cases h
    exact Nat.zero_le _
  | inner stem s ih =>
    obtain ⟨b, c, hc, j, f, hf, rfl, rfl⟩ := mem_levels_inner.1 h
    have := ih _ hc hf
    rw [Entry.under, List.length_append, List.length_cons]
    omega

theorem height_le_iff (h : n.Sound) (forked : n.Forked) :
    n.height ≤ k ↔ ∀ p ∈ n.levels, p.1 < k := by
  induction n using induct generalizing k with
  | leaf suffix value hits =>
    rw [height_leaf, levels_leaf, List.forall_mem_singleton]
    exact Nat.succ_le_iff
  | inner stem s ih =>
    cases k with
    | zero =>
      rw [height_inner]
      refine iff_of_false (by omega) fun none_left => ?_
      obtain ⟨e, he⟩ := exists_entry h forked
      rw [← map_snd_levels] at he
      obtain ⟨p, hp, -⟩ := List.mem_map.1 he
      exact Nat.not_lt_zero _ (none_left p hp)
    | succ k =>
      obtain ⟨-, below⟩ := sound_inner.1 h
      obtain ⟨-, forks⟩ := filled_inner.1 forked
      have each (c : UInt8 × Node V) (hc : c ∈ s.children) :
          c.2.height ≤ k ↔ ∀ p ∈ c.2.levels, p.1 < k := ih c hc (below c hc) (forks c hc)
      rw [height_inner, Nat.add_comm, Nat.succ_le_succ_iff, foldl_max_le_iff, List.forall_mem_map,
        levels_inner, List.forall_mem_flatMap, and_iff_right (Nat.zero_le k)]
      refine forall₂_congr fun c hc => ?_
      rw [each c hc, List.forall_mem_map]
      simp only [Nat.succ_lt_succ_iff]

theorem length_forks_inner (stem : Bytes) (s : Storage (Node V)) :
    (inner stem s).forks.length = total (fun c => c.forks.length) s.children + 1 := by
  rw [forks_inner, List.length_cons]
  refine congrArg (· + 1) (length_flatMap (fun c => ?_) _)
  exact List.length_map _

theorem length_entries_inner (stem : Bytes) (s : Storage (Node V)) :
    (inner stem s).entries.length = total (fun c => c.entries.length) s.children := by
  rw [entries_inner]
  refine length_flatMap (fun c => ?_) _
  exact List.length_map _

theorem height_le_length_forks (n : Node V) : n.height ≤ n.forks.length + 1 := by
  induction n using induct with
  | leaf suffix value hits => rw [height_leaf, forks_leaf]; exact Nat.le_refl 1
  | inner stem s ih =>
    rw [height_inner, Nat.add_comm, length_forks_inner]
    refine Nat.succ_le_succ (foldl_max_le_iff.2 ⟨Nat.zero_le _, List.forall_mem_map.2 ?_⟩)
    intro c hc
    calc c.2.height ≤ c.2.forks.length + 1 := ih c hc
      _ ≤ total (fun c => c.forks.length) s.children + 1 :=
        Nat.succ_le_succ (le_total_of_mem (fun c => c.forks.length) hc)

theorem length_forks_lt (h : n.Sound) (forked : n.Forked) : n.forks.length < n.entries.length := by
  induction n using induct with
  | leaf suffix value hits => rw [forks_leaf, entries_leaf]; exact Nat.zero_lt_one
  | inner stem s ih =>
    obtain ⟨sound, below⟩ := sound_inner.1 h
    obtain ⟨several, forks⟩ := filled_inner.1 forked
    -- each child has more entries than inner nodes, and there are at least two children
    have joined : total (fun c => c.forks.length) s.children + s.children.length ≤
        total (fun c => c.entries.length) s.children :=
      total_add_length_le fun c hc => ih c hc (below c hc) (forks c hc)
    rw [Storage.length_children sound] at joined
    rw [length_forks_inner, length_entries_inner]
    omega

theorem height_foldl_le_iff {cs : List (UInt8 × Node V)} {level : Nat}
    (each : ∀ e ∈ cs, ∀ c : Census, (Census.addNode e.2 (level + 1) c).height =
      max c.height (level + e.2.height)) (c : Census) :
    (cs.foldl (fun c e => Census.addNode e.2 (level + 1) c) c).height ≤ k ↔
      c.height ≤ k ∧ ∀ e ∈ cs, level + e.2.height ≤ k := by
  induction cs generalizing c with
  | nil => simp
  | cons e cs ih =>
    obtain ⟨first, rest⟩ := List.forall_mem_cons.1 each
    rw [List.foldl_cons, ih rest, first, Nat.max_le, List.forall_mem_cons, and_assoc]

theorem height_addNode (n : Node V) (level : Nat) (c : Census) :
    (Census.addNode n (level + 1) c).height = max c.height (level + n.height) := by
  induction n using induct generalizing level c with
  | leaf suffix value hits =>
    rw [Census.addNode, fold_leaf, height_leaf]
    rfl
  | inner stem s ih =>
    have below (k : Nat) : (s.children.map fun e => e.2.height).foldl max 0 ≤ k ↔
        ∀ e ∈ s.children, e.2.height ≤ k := by
      rw [foldl_max_le_iff, List.forall_mem_map, and_iff_right (Nat.zero_le k)]
    have bounds (k : Nat) : (Census.addNode (inner stem s) (level + 1) c).height ≤ k ↔
        max c.height (level + (inner stem s).height) ≤ k := by
      rw [Census.addNode, fold_inner, List.foldl_map, height_inner]
      refine (height_foldl_le_iff (fun e he c => ih e he (level + 1) c) _).trans ?_
      rw [Census.addInner, Nat.max_le, Nat.max_le, and_assoc, and_congr_right_iff]
      intro _
      constructor
      · rintro ⟨top, all⟩
        have := (below (k - (level + 1))).2 fun e he => Nat.le_sub_of_add_le' (all e he)
        omega
      · intro tall
        refine ⟨by omega, fun e he => ?_⟩
        have := (below _).1 (Nat.le_refl _) e he
        omega
    exact Nat.le_antisymm ((bounds _).2 (Nat.le_refl _)) ((bounds _).1 (Nat.le_refl _))

theorem total_population (n : Node V) :
    (Census.total fun l => n.population l) = n.forks.length := by
  induction n using induct with
  | leaf suffix value hits =>
    simp only [population_leaf, forks_leaf]
    rfl
  | inner stem s ih =>
    have below : (Census.total fun l => total (population l) s.children) =
        total (fun c => c.forks.length) s.children := by
      generalize s.children = cs at ih
      induction cs with
      | nil => rfl
      | cons c cs ih' =>
        obtain ⟨here, rest⟩ := List.forall_mem_cons.1 ih
        simp only [total_cons, Census.total_add]
        rw [here, ih' rest]
    simp only [population_inner, Layout.one, Census.total_add]
    rw [below, Census.total_single, length_forks_inner, Nat.add_comm]

end Node

theorem Tree.height_ofTree {V : Type} (t : Tree V) : (Census.ofTree t).height = t.height := by
  obtain ⟨_ | n⟩ := t
  · rfl
  · refine (Node.height_addNode n 0 Census.zero).trans ?_
    rw [Nat.zero_add]
    exact Nat.zero_max _

end AdaptiveRadix
