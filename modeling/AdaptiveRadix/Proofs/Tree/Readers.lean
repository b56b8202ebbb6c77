import AdaptiveRadix.Proofs.Map.Canonical
import AdaptiveRadix.Proofs.Walk

/-!
A search, an assignment, a removal and a walk find the same leaves. An assignment changes the value
of the leaf it finds and nothing else in the graph of the nodes, and a removal takes the entry out
of the list that a walk answers and keeps all others, however full the nodes are.
-/

namespace AdaptiveRadix

open Dictionary Edges

variable {V : Type}

namespace Node

variable {n : Node V} {key path : Bytes} {value : V} {change : Bytes → V → V}
  {o : Outcome (Node V) (Except KeyError V)}

/-- The graph of a node below the bytes `path`, with every value changed as its whole key says. -/
def graphBy (change : Bytes → V → V) : Node V → Bytes → Graph V :=
  fold (fun suffix value hits path => .leaf suffix (change (path ++ suffix) value) hits)
    fun stem s below path =>
      .inner stem s.layout (below.map fun (b, graph) => (b, graph (path ++ stem ++ [b])))

theorem graphBy_leaf (change : Bytes → V → V) (suffix : Bytes) (value : V) (hits : UInt64)
    (path : Bytes) : (leaf suffix value hits).graphBy change path =
      .leaf suffix (change (path ++ suffix) value) hits := by
  rw [graphBy, fold_leaf]

theorem graphBy_inner (change : Bytes → V → V) (stem : Bytes) (s : Storage (Node V))
    (path : Bytes) : (inner stem s).graphBy change path =
      .inner stem s.layout
        (s.children.map fun c => (c.1, c.2.graphBy change (path ++ stem ++ [c.1]))) := by
  rw [graphBy, fold_inner, List.map_map]
  rfl

def overwrite (key : Bytes) (value : V) (other : Bytes) (old : V) : V :=
  if other = key then value else old

theorem graphBy_overwrite_of_absent (absent : ∀ e ∈ n.entries, path ++ e.key ≠ key) (value : V) :
    n.graphBy (overwrite key value) path = n.graph := by
  induction n using induct generalizing path with
  | leaf suffix old hits =>
    have here := absent ⟨suffix, old, hits⟩ (by simp [entries_leaf])
    rw [graphBy_leaf, graph_leaf, overwrite, if_neg here]
  | inner stem s ih =>
    rw [graphBy_inner, graph_inner]
    refine congrArg _ (List.map_congr_left fun c hc => congrArg _ (ih c hc fun e he => ?_))
    have whole := absent (e.under stem c.1) (mem_entries_inner.2 ⟨c.1, c.2, hc, e, he, rfl⟩)
    simpa [Entry.under] using whole

theorem Assignment.graph (h : Assignment value n key o) (hn : n.Sound) (path : Bytes) :
    o.after.graph = n.graphBy (overwrite (path ++ key) value) path := by
  induction h generalizing path with
  | found => rw [graphBy_leaf, overwrite, if_pos rfl, graph_leaf]
  | @other suffix key old hits different =>
    refine (graphBy_overwrite_of_absent (n := leaf suffix old hits) (fun e he same => ?_)
      value).symm
    rw [entries_leaf, List.mem_singleton] at he
    subst he
    exact different (List.append_cancel_left same)
  | @missing stem key s unreached =>
    refine (graphBy_overwrite_of_absent (n := inner stem s) (fun e he same => ?_) value).symm
    obtain ⟨b, c, hc, f, -, rfl⟩ := mem_entries_inner.1 he
    exact unreached b f.key c (List.append_cancel_left same).symm hc
  | @descend stem rest s t b c o held assignment put sound same replaced ih =>
    obtain ⟨whole, below⟩ := sound_inner.1 hn
    have here := ih (below _ held) (path ++ stem ++ [b])
    rw [List.append_assoc, List.append_assoc, List.singleton_append] at here
    have others (e : UInt8 × Node V) (_ : e ∈ s.children) (apart : e.1 ≠ b) : e.2.graph =
        e.2.graphBy (overwrite (path ++ (stem ++ b :: rest)) value) (path ++ stem ++ [e.1]) := by
      refine (graphBy_overwrite_of_absent (fun f _ equal => apart ?_) value).symm
      simp only [List.append_assoc, List.append_cancel_left_eq] at equal
      exact (List.cons.inj equal).1
    have children := replaced.map_eq (f := Node.graph)
      (g := fun a d => d.graphBy (overwrite (path ++ (stem ++ b :: rest)) value)
        (path ++ stem ++ [a]))
      (Storage.ascending_children whole) (Storage.ascending_children sound) held
      (by simpa using here) others
    rw [graph_inner, graphBy_inner, same, children]

end Node

namespace Tree

variable {t : Tree V} {key : Cursor} {value : V}

section Sound

variable (h : t.Sound)

include h

theorem lookup_eq (key : Cursor) : t.lookup key =
    .ok ((Dictionary.entry? t.entries key.rest).elim (.error .notFound) (.ok ·.value)) := by
  rw [lookup, find?_eq h]
  cases Dictionary.entry? t.entries key.rest <;> rfl

theorem hits_eq (key : Cursor) : t.hits key =
    .ok ((Dictionary.entry? t.entries key.rest).elim (.error .notFound) (.ok ·.hits)) := by
  rw [hits, find?_eq h]
  cases Dictionary.entry? t.entries key.rest <;> rfl

theorem mem_toList_iff (k : Bytes) (v : V) : (k, v) ∈ (Walk.ofTree t).toList ↔
    ∃ e, Dictionary.entry? t.entries k = some e ∧ e.value = v := by
  simp only [Walk.toList_ofTree, List.mem_map, Prod.mk.injEq,
    (ordered_entries h).entry?_eq_some_iff, and_assoc]

theorem lookup_eq_ok_iff (v : V) :
    t.lookup key = .ok (.ok v) ↔ (key.rest, v) ∈ (Walk.ofTree t).toList := by
  rw [lookup_eq h, mem_toList_iff h]
  cases Dictionary.entry? t.entries key.rest <;> simp

theorem lookup_eq_notFound_iff :
    t.lookup key = .ok (.error .notFound) ↔ ∀ v, (key.rest, v) ∉ (Walk.ofTree t).toList := by
  simp only [lookup_eq h, mem_toList_iff h]
  cases Dictionary.entry? t.entries key.rest <;> simp

theorem hits_eq_ok_iff (k : UInt64) : t.hits key = .ok (.ok k) ↔
    ∃ v, t.lookup key = .ok (.ok v) ∧ ⟨key.rest, v, k⟩ ∈ t.entries := by
  have ordered := ordered_entries h
  rw [hits_eq h, lookup_eq h]
  cases found : Dictionary.entry? t.entries key.rest with
  | none => simp
  | some e =>
    obtain ⟨he, same⟩ := ordered.entry?_eq_some_iff.1 found
    simp only [Option.elim_some, Except.ok.injEq]
    constructor
    · rintro rfl
      exact ⟨e.value, rfl, same ▸ he⟩
    · rintro ⟨v, -, hf⟩
      exact congrArg Entry.hits (ordered.eq_of_mem he hf same)

theorem hits_eq_notFound_iff :
    t.hits key = .ok (.error .notFound) ↔ t.lookup key = .ok (.error .notFound) := by
  rw [hits_eq h, lookup_eq h]
  cases Dictionary.entry? t.entries key.rest <;> simp

theorem assign_graph (key : Cursor) (value : V) :
    ∃ o, t.assign key value = .ok o ∧ t.lookup key = .ok o.answer ∧
      o.after.graph? = t.root.map fun n => n.graphBy (Node.overwrite key.rest value) [] := by
  obtain ⟨_ | n⟩ := t
  · exact ⟨_, rfl, rfl, rfl⟩
  · have sound := sound_some.1 h
    obtain ⟨o, done, assignment⟩ := Node.assign_cases sound value key.rest
    obtain ⟨answer, -⟩ := (assignment.assigned sound).eq_update (Node.ordered_entries sound)
      (Node.ordered_entries (assignment.sound sound))
    refine ⟨o.mapAfter fun n => ⟨some n⟩, ?_, ?_, congrArg some (assignment.graph sound [])⟩
    · simp only [assign, done]
      rfl
    · rw [lookup_eq h, entries_some, ← answer]
      rfl

theorem delete_entries (key : Cursor) :
    ∃ o, t.delete key = .ok o ∧ t.lookup key = .ok o.answer ∧
      o.after.entries = t.entries.filter fun e => e.key ≠ key.rest := by
  obtain ⟨o, done, keeps, removed⟩ := delete_eq h key
  obtain ⟨answer, after⟩ := removed.eq_filter (ordered_entries h) (ordered_entries keeps.sound)
  exact ⟨o, done, by rw [lookup_eq h, ← answer], after.symm⟩

end Sound

/-- In a sound tree, however full its nodes are, a key is found exactly if a walk answers it: a
search answers the value and the hits of its leaf, an assignment replaces that value and nothing
else in the graph, and a removal answers it and takes the entry from what a walk answers. -/
theorem readers_agree (h : t.Sound) (key : Cursor) (value : V) :
    (∀ v, t.lookup key = .ok (.ok v) ↔ (key.rest, v) ∈ (Walk.ofTree t).toList) ∧
    (t.lookup key = .ok (.error .notFound) ↔ ∀ v, (key.rest, v) ∉ (Walk.ofTree t).toList) ∧
    (∀ k, t.hits key = .ok (.ok k) ↔
      ∃ v, t.lookup key = .ok (.ok v) ∧ ⟨key.rest, v, k⟩ ∈ t.entries) ∧
    (t.hits key = .ok (.error .notFound) ↔ t.lookup key = .ok (.error .notFound)) ∧
    (∃ o, t.assign key value = .ok o ∧ t.lookup key = .ok o.answer ∧
      o.after.graph? = t.root.map fun n => n.graphBy (Node.overwrite key.rest value) []) ∧
    ∃ o, t.delete key = .ok o ∧ t.lookup key = .ok o.answer ∧
      (Walk.ofTree o.after).toList = (Walk.ofTree t).toList.filter (fun x => x.1 ≠ key.rest) ∧
      o.after.entries = t.entries.filter fun e => e.key ≠ key.rest := by
  obtain ⟨o, done, answer, after⟩ := delete_entries h key
  refine ⟨lookup_eq_ok_iff h, lookup_eq_notFound_iff h, hits_eq_ok_iff h, hits_eq_notFound_iff h,
    assign_graph h key value, o, done, answer, ?_, after⟩
  rw [Walk.toList_ofTree, Walk.toList_ofTree, after, List.filter_map]
  rfl

theorem readers_agree_underfull :
    ∃ t : Tree Nat, t.root.map (fun n => n.children.map fun c => (c.1, c.2.shape, c.2.count)) =
        some [(1, .inner .indexed48, 1), (2, .leaf, 0)] ∧
      t.lookup (.ofBytes [7, 2, 9]) = .ok (.ok 20) ∧ t.hits (.ofBytes [7, 2, 9]) = .ok (.ok 4) ∧
      (∃ o, t.assign (.ofBytes [7, 2, 9]) 30 = .ok o ∧ o.answer = .ok 20 ∧
        o.after.graph? = some (.inner [7] .direct256
          [(1, .inner [] .indexed48 [(5, .leaf [] 10 3)]), (2, .leaf [9] 30 4)])) ∧
      ∃ o, t.delete (.ofBytes [7, 2, 9]) = .ok o ∧ o.answer = .ok 20 ∧
        (Walk.ofTree o.after).toList = [([7, 1, 5], 10)] := by
  have lone : Ascending [(5, Node.leaf [] 10 3)] := List.pairwise_singleton ..
  obtain ⟨s₁, sound₁, layout₁, children₁⟩ :=
    Storage.exists_children_eq .indexed48 lone (by decide)
  have ascending : Ascending [(1, Node.inner [] s₁), (2, .leaf [9] 20 4)] := by
    simp [Ascending]
  obtain ⟨s, sound, layout, children⟩ :=
    Storage.exists_children_eq .direct256 ascending (by simp [Layout.width])
  have single : s₁.count = 1 := by
    rw [← Storage.length_children sound₁, children₁]
    rfl
  have whole : Sound ⟨some (.inner [7] s)⟩ := by
    refine sound_some.2 (Node.sound_inner.2 ⟨sound, ?_⟩)
    simp [children, Node.sound_leaf, Node.sound_inner, sound₁, children₁]
  have items : (Walk.ofTree ⟨some (.inner [7] s)⟩).toList = [([7, 1, 5], 10), ([7, 2, 9], 20)] := by
    rw [Walk.toList_ofTree, entries_some]
    simp [Node.entries_inner, Node.entries_leaf, children, children₁]
  have held : ⟨[7, 2, 9], 20, 4⟩ ∈ Tree.entries ⟨some (.inner [7] s)⟩ := by
    rw [entries_some]
    simp [Node.entries_inner, Node.entries_leaf, children, children₁]
  have rest : (Cursor.ofBytes [7, 2, 9]).rest = [7, 2, 9] := rfl
  obtain ⟨found, -, hits, -, ⟨o, assigned, old, graph⟩, p, deleted, taken, left, -⟩ :=
    readers_agree whole (.ofBytes [7, 2, 9]) 30
  have value := (found 20).2 (by rw [rest, items]; decide)
  rw [value] at old taken
  refine ⟨_, ?_, value, (hits 4).2 ⟨20, value, held⟩, ⟨o, assigned, (Except.ok.inj old).symm, ?_⟩,
    p, deleted, (Except.ok.inj taken).symm, ?_⟩
  · simp only [Option.map_some, Node.children, children, List.map_cons, List.map_nil, Node.shape,
      Node.count, layout₁, single]
  · rw [graph, rest]
    simp [Node.graphBy_inner, Node.graphBy_leaf, children, children₁, layout, layout₁,
      Node.overwrite]
  · rw [left, items, rest]
    decide

end Tree

end AdaptiveRadix
