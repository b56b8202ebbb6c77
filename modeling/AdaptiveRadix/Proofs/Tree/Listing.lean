import AdaptiveRadix.Proofs.Listing
import AdaptiveRadix.Proofs.Node.Graph

/-!
A listing shows a tree up to its values. Read from its last line to its first one, every node finds
its children among the edges that wait for a node: they are the ones of its own level, since those
of the nodes above it are less indented and those below it are taken already.
-/

namespace AdaptiveRadix

variable {V W : Type}

def Node.outline : Node V → Graph Unit :=
  fold (fun suffix _ hits => .leaf suffix () hits) fun stem s below => .inner stem s.layout below

namespace Node

theorem outline_leaf (suffix : Bytes) (value : V) (hits : UInt64) :
    (leaf suffix value hits).outline = .leaf suffix () hits :=
  fold_leaf ..

theorem outline_inner (stem : Bytes) (s : Storage (Node V)) :
    (inner stem s).outline =
      .inner stem s.layout (s.children.map fun c => (c.1, c.2.outline)) :=
  fold_inner ..

end Node

/-- What the lines read so far leave to the ones above them: the node that begins on the last of
them, and the edges that no node has taken yet, with their levels. -/
structure Remainder where
  node : Option (Graph Unit)
  edges : List (Nat × UInt8 × Graph Unit)

namespace Remainder

def place : Line → Remainder → Remainder
  | .leaf _ suffix hits, r => ⟨some (.leaf suffix () hits), r.edges⟩
  | .inner level layout stem _, r =>
    ⟨some (.inner stem layout ((r.edges.filter (·.1 = level)).map (·.2))),
      r.edges.filter (·.1 ≠ level)⟩
  | .edge level byte, r => ⟨none, r.node.elim r.edges fun g => (level, byte, g) :: r.edges⟩

/-- The last line is placed first. -/
def placeAll (r : Remainder) (lines : List Line) : Remainder :=
  lines.foldr place r

theorem placeAll_cons (r : Remainder) (l : Line) (lines : List Line) :
    r.placeAll (l :: lines) = place l (r.placeAll lines) :=
  rfl

theorem placeAll_append (r : Remainder) (front back : List Line) :
    r.placeAll (front ++ back) = (r.placeAll back).placeAll front :=
  List.foldr_append

/-- Every edge that waits belongs to a node above the level. -/
def Above (level : Nat) (r : Remainder) : Prop :=
  ∀ e ∈ r.edges, e.1 < level

variable {r : Remainder} {level : Nat} {below : List (UInt8 × Graph Unit)}

theorem place_inner (above : r.Above level) (node : Option (Graph Unit)) (layout : Layout)
    (stem : Bytes) (children : Nat) :
    place (.inner level layout stem children) ⟨node, below.map (level, ·) ++ r.edges⟩ =
      ⟨some (.inner stem layout below), r.edges⟩ := by
  have own : ∀ e ∈ below.map (level, ·), e.1 = level := by
    simp only [List.mem_map]
    rintro _ ⟨_, -, rfl⟩
    rfl
  have others : ∀ e ∈ r.edges, e.1 ≠ level := fun e he => Nat.ne_of_lt (above e he)
  have taken : (below.map (level, ·) ++ r.edges).filter (fun e => e.1 = level) =
      below.map (level, ·) := by
    rw [List.filter_append, List.filter_eq_self.2 (by simpa only [decide_eq_true_iff] using own),
      List.filter_eq_nil_iff.2 (by simpa only [decide_eq_true_iff] using others), List.append_nil]
  have left : (below.map (level, ·) ++ r.edges).filter (fun e => e.1 ≠ level) = r.edges := by
    rw [List.filter_append, List.filter_eq_nil_iff.2 (by simpa using own),
      List.filter_eq_self.2 (by simpa only [decide_eq_true_iff] using others), List.nil_append]
  rw [place, taken, left, List.map_map]
  simp [Function.comp_def]

theorem edges_placeAll_children {cs : List (UInt8 × Node V)} (above : r.Above level)
    (ih : ∀ c ∈ cs, ∀ q : Remainder, q.Above (level + 1) →
      q.placeAll (c.2.lines (level + 1)) = ⟨some c.2.outline, q.edges⟩) :
    (r.placeAll (cs.flatMap fun c => .edge level c.1 :: c.2.lines (level + 1))).edges =
      (cs.map fun c => (c.1, c.2.outline)).map (level, ·) ++ r.edges := by
  induction cs with
  | nil => rfl
  | cons c cs rest =>
    have waiting := rest fun d hd => ih d (List.mem_cons_of_mem c hd)
    rw [List.flatMap_cons, List.cons_append, placeAll_cons, placeAll_append,
      ih c List.mem_cons_self _ ?above, place]
    case above =>
      -- the later children wait at the level itself, all others above it
      intro e he
      rw [waiting, List.mem_append, List.mem_map] at he
      obtain ⟨_, -, rfl⟩ | he := he
      · exact Nat.lt_succ_self level
      · exact Nat.lt_succ_of_lt (above e he)
    simp only [Option.elim_some, waiting, List.map_cons, List.cons_append]

/-- The lines of a node are read back as its outline, and leave alone what waits further up. -/
theorem placeAll_lines (n : Node V) (above : r.Above level) :
    r.placeAll (n.lines level) = ⟨some n.outline, r.edges⟩ := by
  induction n using Node.induct generalizing level r with
  | leaf suffix value hits =>
    rw [Node.lines_leaf, Node.outline_leaf]
    rfl
  | inner stem s ih =>
    have edges := edges_placeAll_children above fun c hc q hq => ih c hc hq
    rw [Node.lines_inner, Node.outline_inner, placeAll_cons,
      ← place_inner above (r.placeAll _).node s.layout stem s.count, ← edges]

end Remainder

namespace Tree

def outline? (t : Tree V) : Option (Graph Unit) :=
  t.root.map Node.outline

def readOutline (text : String) : Option (Graph Unit) :=
  (Remainder.placeAll ⟨none, []⟩ (Line.readAll text)).node

theorem readOutline_dump (t : Tree V) : readOutline t.dump = t.outline? := by
  obtain ⟨_ | n⟩ := t
  · have noLine : Line.readAll "[]\n" = [] := by decide
    rw [readOutline, dump, noLine]
    rfl
  · have nothing : Remainder.Above 0 ⟨none, []⟩ := fun e he => nomatch he
    rw [readOutline, dump, Line.readAll_rendered, Remainder.placeAll_lines n nothing]
    rfl

/-- Trees with the same listing differ in their values at most. -/
theorem outline?_eq_of_dump_eq {t : Tree V} {u : Tree W} (same : t.dump = u.dump) :
    t.outline? = u.outline? := by
  rw [← readOutline_dump t, same, readOutline_dump u]

theorem exists_dump_underfull (first second : V) : ∃ t : Tree V,
    t.entries = [⟨[7, 1, 5], first, 3⟩, ⟨[7, 2, 9], second, 4⟩] ∧
      t.dump = String.join ["Node256 prefix [07], 2 #children\n", "  (01) =>\n",
        "  Node48 prefix [], 1 #children\n", "    (05) =>\n", "    Leaf suffix [], 3 hits\n",
        "  (02) =>\n", "  Leaf suffix [09], 4 hits\n"] := by
  have lone : Edges.Ascending [(5, Node.leaf [] first 3)] := List.pairwise_singleton ..
  obtain ⟨s₁, sound₁, layout₁, children₁⟩ :=
    Storage.exists_children_eq .indexed48 lone (by simp [Layout.width])
  have ascending : Edges.Ascending [(1, Node.inner [] s₁), (2, .leaf [9] second 4)] := by
    simp [Edges.Ascending]
  obtain ⟨s, sound, layout, children⟩ :=
    Storage.exists_children_eq .direct256 ascending (by simp [Layout.width])
  have single : s₁.count = 1 := by rw [← Storage.length_children sound₁, children₁]; rfl
  have two : s.count = 2 := by rw [← Storage.length_children sound, children]; rfl
  have lines : (Node.inner [7] s).lines 0 =
      [.inner 0 .direct256 [7] 2, .edge 0 1, .inner 1 .indexed48 [] 1, .edge 1 5, .leaf 2 [] 3,
        .edge 0 2, .leaf 1 [9] 4] := by
    simp [Node.lines_inner, Node.lines_leaf, children, children₁, layout, layout₁, single, two]
  refine ⟨⟨some (.inner [7] s)⟩, ?_, ?_⟩
  · change (Node.inner [7] s).entries = _
    simp [Node.entries_inner, Node.entries_leaf, children, children₁]
  · change String.join (((Node.inner [7] s).lines 0).map fun line => line.render ++ "\n") = _
    rw [lines]
    rfl

theorem outline?_eq_of_dump_eq_values : ∃ (t : Tree Nat) (u : Tree Bool),
    t.entries = [⟨[7, 1, 5], 10, 3⟩, ⟨[7, 2, 9], 20, 4⟩] ∧
      u.entries = [⟨[7, 1, 5], true, 3⟩, ⟨[7, 2, 9], false, 4⟩] ∧ t.dump = u.dump ∧
      t.outline? = u.outline? := by
  obtain ⟨t, entries, dump⟩ := exists_dump_underfull 10 20
  obtain ⟨u, entries', dump'⟩ := exists_dump_underfull true false
  have same := dump.trans dump'.symm
  exact ⟨t, u, entries, entries', same, outline?_eq_of_dump_eq same⟩

end Tree

end AdaptiveRadix
