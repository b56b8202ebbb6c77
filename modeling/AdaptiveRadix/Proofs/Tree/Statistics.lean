import AdaptiveRadix.Proofs.Node.Levels
import AdaptiveRadix.Proofs.Tree.Inspection
import AdaptiveRadix.Proofs.Tree.Readers
import AdaptiveRadix.Proofs.Tree.Reading

/-!
A census agrees with the other ways through a tree. Its leaves are the entries that a walk answers,
its hits are those that searches for their keys answer, and its tallies are taken over the inner
nodes that a check visits. Every node but the root is the child of one inner node, which ties the
leaves, the inner nodes and their children together.
-/

namespace AdaptiveRadix

open Dictionary Edges

variable {V : Type}

namespace Visit

variable {f g : Storage (Node V) → Nat} {vs : List (Visit V)}

def sum (f : Storage (Node V) → Nat) (vs : List (Visit V)) : Nat :=
  vs.foldr (fun v sum => f v.storage + sum) 0

@[simp] theorem sum_nil (f : Storage (Node V) → Nat) : sum f [] = 0 := rfl

@[simp] theorem sum_cons (f : Storage (Node V) → Nat) (v : Visit V) (vs : List (Visit V)) :
    sum f (v :: vs) = f v.storage + sum f vs := rfl

theorem sum_append (f : Storage (Node V) → Nat) (vs ws : List (Visit V)) :
    sum f (vs ++ ws) = sum f vs + sum f ws :=
  foldr_add_append (fun v : Visit V => f v.storage) vs ws

theorem sum_below (f : Storage (Node V) → Nat) (stem : Bytes) (b : UInt8) (vs : List (Visit V)) :
    sum f (vs.map (below stem b)) = sum f vs :=
  List.foldr_map

theorem sum_one (vs : List (Visit V)) : (sum fun _ => 1) vs = vs.length := by
  induction vs with
  | nil => rfl
  | cons v vs ih => rw [sum_cons, ih, List.length_cons, Nat.add_comm]

theorem sum_congr (same : ∀ v ∈ vs, f v.storage = g v.storage) : sum f vs = sum g vs := by
  induction vs with
  | nil => rfl
  | cons v vs ih =>
    obtain ⟨here, rest⟩ := List.forall_mem_cons.1 same
    rw [sum_cons, sum_cons, here, ih rest]

theorem sum_filter (f : Storage (Node V) → Nat) (l : Layout) (vs : List (Visit V)) :
    sum f (vs.filter fun v => v.storage.layout = l) =
      sum (fun s => if l = s.layout then f s else 0) vs := by
  induction vs with
  | nil => rfl
  | cons v vs ih =>
    rw [sum_cons, ← ih]
    by_cases here : l = v.storage.layout
    · simp [here]
    · simp [here, Ne.symm here]

theorem total_sum_filter (f : Storage (Node V) → Nat) (vs : List (Visit V)) :
    (Census.total fun l => sum f (vs.filter fun v => v.storage.layout = l)) = sum f vs := by
  simp only [sum_filter]
  induction vs with
  | nil => rfl
  | cons v vs ih =>
    simp only [sum_cons, Census.total_add]
    rw [ih, Census.total_single]

end Visit

namespace Node

variable {f : Storage (Node V) → Nat}

theorem sum_visits_leaf (suffix : Bytes) (value : V) (hits : UInt64) :
    Visit.sum f (leaf suffix value hits).visits = 0 := by
  rw [visits_leaf]
  rfl

theorem sum_visits_inner (stem : Bytes) (s : Storage (Node V)) :
    Visit.sum f (inner stem s).visits =
      f s + total (fun c => Visit.sum f c.visits) s.children := by
  rw [visits_inner, Visit.sum_cons]
  refine congrArg (f s + ·) ?_
  induction s.children with
  | nil => rfl
  | cons c cs ih =>
    rw [List.flatMap_cons, Visit.sum_append, Visit.sum_below, ih, total_cons]

theorem sum_children_visits (n : Node V) :
    Visit.sum (·.children.length) n.visits + 1 = n.entries.length + n.visits.length := by
  rw [← Visit.sum_one]
  induction n using induct with
  | leaf suffix value hits =>
    rw [sum_visits_leaf, sum_visits_leaf, entries_leaf]
    rfl
  | inner stem s ih =>
    have below : total (fun c => Visit.sum (·.children.length) c.visits) s.children +
        s.children.length = total (fun c => c.entries.length) s.children +
          total (fun c => Visit.sum (fun _ => 1) c.visits) s.children := by
      generalize s.children = cs at ih
      induction cs with
      | nil => rfl
      | cons c cs ih' =>
        obtain ⟨first, rest⟩ := List.forall_mem_cons.1 ih
        have := ih' rest
        rw [total_cons, total_cons, total_cons, List.length_cons]
        omega
    rw [sum_visits_inner, sum_visits_inner, length_entries_inner]
    omega

theorem leaves_addNode (n : Node V) (level : Nat) (c : Census) :
    (Census.addNode n level c).leaves = c.leaves + n.entries.length := by
  refine addNode_adds (f := Census.leaves) (g := (·.entries.length))
    (fun suffix value hits level c => ?_) (fun stem s level c => ?_) n level c
  · rw [entries_leaf]
    rfl
  · rw [length_entries_inner]
    rfl

theorem tally_addNode (part : Tally → Nat) (f : Storage (Node V) → Nat)
    (adds : ∀ s t, part (t.add s.count) = part t + f s) (l : Layout) (n : Node V) (level : Nat)
    (c : Census) :
    part ((Census.addNode n level c).tally l) =
      part (c.tally l) + Visit.sum f (n.visits.filter fun v => v.storage.layout = l) := by
  rw [Visit.sum_filter]
  refine addNode_adds (f := fun c => part (c.tally l)) (g := fun n => Visit.sum _ n.visits)
    (fun suffix value hits level c => ?_) (fun stem s level c => ?_) n level c
  · rw [sum_visits_leaf]
    rfl
  · rw [sum_visits_inner, ← Nat.add_assoc]
    refine congrArg (· + _) ?_
    by_cases here : l = s.layout
    · simp [Census.addInner, here, adds]
    · simp [Census.addInner, here]

end Node

namespace Census

theorem foldr_layouts (c : Census) :
    c.layouts.foldr (fun l sum => (c.tally l).nodes + sum) 0 = c.innerNodes := by
  have skip : (fun l sum => if decide ((c.tally l).nodes ≠ 0) = true then
      (c.tally l).nodes + sum else sum) = fun l sum => (c.tally l).nodes + sum := by
    funext l sum
    by_cases absent : (c.tally l).nodes = 0
    · simp [absent]
    · simp [absent]
  rw [layouts, List.foldr_filter, skip, innerNodes, total]
  simp only [Layout.all, List.foldr_cons, List.foldr_nil]
  omega

theorem mem_layouts {c : Census} {l : Layout} : l ∈ c.layouts ↔ (c.tally l).nodes ≠ 0 := by
  have among : l ∈ Layout.all := by cases l <;> decide
  simp [layouts, among]

end Census

namespace Tree

variable {t : Tree V}

/-- A census says of a tree what a walk, searches, the height and a visit of the inner nodes say. -/
structure Surveyed (t : Tree V) (c : Census) : Prop where
  leaves : c.leaves = (Walk.ofTree t).toList.length
  hits : ∃ counts : List UInt64,
    (Walk.ofTree t).toList.mapM (fun x => t.hits (.ofBytes x.1)) = .ok (counts.map .ok) ∧
      c.hits.toNat = counts.foldr (·.toNat + ·) 0
  height : t.readHeight = .ok c.height
  innerNodes : c.innerNodes = t.visits.length
  layouts : c.layouts.foldr (fun l sum => (c.tally l).nodes + sum) 0 = c.innerNodes
  mem_layouts : ∀ l, l ∈ c.layouts ↔ ∃ v ∈ t.visits, v.storage.layout = l
  nodes : ∀ l, (c.tally l).nodes = (t.visits.filter fun v => v.storage.layout = l).length
  children : ∀ l, (c.tally l).children =
    Visit.sum (·.children.length) (t.visits.filter fun v => v.storage.layout = l)
  parents : t.root ≠ none → c.children + 1 = c.leaves + c.innerNodes

theorem leaves_ofTree (t : Tree V) : (Census.ofTree t).leaves = t.entries.length := by
  obtain ⟨_ | n⟩ := t
  · rfl
  · exact (Node.leaves_addNode n 1 Census.zero).trans (Nat.zero_add _)

theorem hits_ofTree (fits : totalHits t.entries < UInt64.size) :
    (Census.ofTree t).hits.toNat = totalHits t.entries := by
  obtain ⟨_ | n⟩ := t
  · rfl
  · have counted := (Census.counts_node n 1).fits Census.zero ((Nat.zero_add _).symm ▸ fits)
    exact counted.2.trans (Nat.zero_add _)

theorem tally_ofTree (part : Tally → Nat) (f : Storage (Node V) → Nat)
    (adds : ∀ s t, part (t.add s.count) = part t + f s) (start : part ⟨0, 0⟩ = 0) (l : Layout)
    (t : Tree V) : part ((Census.ofTree t).tally l) =
      Visit.sum f (t.visits.filter fun v => v.storage.layout = l) := by
  obtain ⟨_ | n⟩ := t
  · exact start
  · refine (Node.tally_addNode part f adds l n 1 Census.zero).trans ?_
    exact (congrArg (· + _) start).trans (Nat.zero_add _)

theorem Sound.storage (h : t.Sound) {v : Visit V} (hv : v ∈ t.visits) : v.storage.Sound := by
  obtain ⟨_ | n⟩ := t
  · exact absurd hv List.not_mem_nil
  · exact Node.each_iff_visits.1 (h n rfl : n.Each Storage.Sound) v hv

theorem nodes_tally_ofTree (t : Tree V) (l : Layout) : ((Census.ofTree t).tally l).nodes =
    (t.visits.filter fun v => v.storage.layout = l).length :=
  (tally_ofTree Tally.nodes (fun _ => 1) (fun _ _ => rfl) rfl l t).trans (Visit.sum_one _)

theorem innerNodes_ofTree (t : Tree V) : (Census.ofTree t).innerNodes = t.visits.length := by
  simp only [Census.innerNodes, nodes_tally_ofTree, ← Visit.sum_one, Visit.total_sum_filter]

section Sound

variable (h : t.Sound)

include h

theorem children_tally_ofTree (l : Layout) : ((Census.ofTree t).tally l).children =
    Visit.sum (·.children.length) (t.visits.filter fun v => v.storage.layout = l) := by
  refine (tally_ofTree Tally.children (·.count) (fun _ _ => rfl) rfl l t).trans
    (Visit.sum_congr fun v hv => ?_)
  exact (Storage.length_children (h.storage (List.mem_filter.1 hv).1)).symm

theorem children_ofTree :
    (Census.ofTree t).children = Visit.sum (·.children.length) t.visits := by
  simp only [Census.children, children_tally_ofTree h, Visit.total_sum_filter]

theorem mapM_hits_eq :
    (Walk.ofTree t).toList.mapM (fun x => t.hits (.ofBytes x.1)) =
      .ok ((t.entries.map (·.hits)).map .ok) := by
  have each (x : Bytes × V) (_ : x ∈ (Walk.ofTree t).toList) := hits_eq h (.ofBytes x.1)
  rw [Checked.mapM_eq_ok each, Walk.toList_ofTree, List.map_map, List.map_map]
  refine congrArg _ (List.map_congr_left fun e he => ?_)
  have found := (ordered_entries h).entry?_eq_some_iff.2 ⟨he, rfl⟩
  simp [Cursor.rest_ofBytes, found]

theorem surveyed_ofTree (fits : totalHits t.entries < UInt64.size) :
    t.Surveyed (Census.ofTree t) where
  leaves := by rw [leaves_ofTree, Walk.toList_ofTree, List.length_map]
  hits := by
    refine ⟨_, mapM_hits_eq h, ?_⟩
    rw [hits_ofTree fits, List.foldr_map]
    rfl
  height := by rw [readHeight_eq h, height_ofTree]
  innerNodes := innerNodes_ofTree t
  layouts := Census.foldr_layouts _
  mem_layouts l := by
    rw [Census.mem_layouts, nodes_tally_ofTree, Ne, List.length_eq_zero_iff,
      List.filter_eq_nil_iff]
    simp
  nodes := nodes_tally_ofTree t
  children := children_tally_ofTree h
  parents some_root := by
    rw [children_ofTree h, leaves_ofTree, innerNodes_ofTree]
    obtain ⟨_ | n⟩ := t
    · exact absurd rfl some_root
    · exact n.sum_children_visits

theorem exists_surveyed (fits : totalHits t.entries < UInt64.size) :
    ∃ c, t.readStats = .ok c ∧ t.Surveyed c := by
  rcases readStats_cases h with ⟨-, taken⟩ | ⟨overflow, -⟩
  · exact ⟨_, taken, surveyed_ofTree h fits⟩
  · exact absurd fits overflow

end Sound

end Tree

end AdaptiveRadix
