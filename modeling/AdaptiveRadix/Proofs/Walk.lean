import AdaptiveRadix.Proofs.Map.Regular

/-!
A walk answers the entries of its tree, one for each request and in the order of their keys, and
then nothing more. What a walk has left is read off its open nodes: each holds the children not yet
taken, and the bytes above them are still the first bytes of the key, since the key is only cut back
to the length at which the children of the node on top start.
-/

namespace AdaptiveRadix

open Dictionary

variable {V : Type}

/-- What a walk answers for an entry that is seen from below the bytes `path`. -/
def Entry.item (path : Bytes) (e : Entry V) : Bytes × V :=
  (path ++ e.key, e.value)

theorem Entry.item_under (path stem : Bytes) (b : UInt8) (e : Entry V) :
    (e.under stem b).item path = e.item (path ++ stem ++ [b]) := by
  simp [item, under]

def Frame.items (key : Bytes) (f : Frame V) : List (Bytes × V) :=
  f.left.flatMap fun c => c.2.entries.map (Entry.item (key.take f.depth ++ [c.1]))

namespace Node

theorem map_item_entries_inner (path stem : Bytes) (s : Storage (Node V)) :
    (inner stem s).entries.map (Entry.item path) =
      Frame.items (path ++ stem) ⟨(path ++ stem).length, s.children⟩ := by
  rw [entries_inner, List.map_flatMap, Frame.items]
  refine List.flatMap_congr fun c _ => ?_
  rw [List.map_map, List.take_length]
  exact List.map_congr_left fun e _ => e.item_under path stem c.1

end Node

namespace Walk

/-- No open node is deeper than the one above it on the stack, nor than the key. -/
structure Valid (w : Walk V) : Prop where
  depth_le : ∀ f ∈ w.stack, f.depth ≤ w.key.length
  descending : w.stack.Pairwise fun f g => g.depth ≤ f.depth

def remaining (w : Walk V) : List (Bytes × V) :=
  w.root.elim [] (·.entries.map (Entry.item w.key)) ++ w.stack.flatMap (Frame.items w.key)

/-- The items below open nodes do not change when the key is cut back no further than to them. -/
theorem flatMap_items_eq {stack : List (Frame V)} {key : Bytes} {depth : Nat}
    (shallow : ∀ f ∈ stack, f.depth ≤ depth) (reached : depth ≤ key.length) (tail : Bytes) :
    stack.flatMap (Frame.items (key.take depth ++ tail)) = stack.flatMap (Frame.items key) := by
  refine List.flatMap_congr fun f hf => ?_
  have within : f.depth ≤ (key.take depth).length := by
    rw [List.length_take, Nat.min_eq_left reached]
    exact shallow f hf
  rw [Frame.items, Frame.items, List.take_append_of_le_length within, List.take_take,
    Nat.min_eq_left (shallow f hf)]

section Open

variable {stack : List (Frame V)} {key : Bytes} {depth : Nat} {c : UInt8 × Node V}
  {others : List (UInt8 × Node V)}

theorem Valid.close {f : Frame V} (h : Valid ⟨none, f :: stack, key⟩) :
    Valid ⟨none, stack, key⟩ where
  depth_le g hg := h.depth_le g (List.mem_cons_of_mem _ hg)
  descending := (List.pairwise_cons.1 h.descending).2

theorem Valid.push (h : Valid ⟨none, stack, key⟩) (children : List (UInt8 × Node V)) :
    Valid ⟨none, ⟨key.length, children⟩ :: stack, key⟩ where
  depth_le g hg := by
    rcases List.mem_cons.1 hg with rfl | hg
    · exact Nat.le_refl _
    · exact h.depth_le g hg
  descending := List.pairwise_cons.2 ⟨h.depth_le, h.descending⟩

theorem Valid.depth_le_top (h : Valid ⟨none, ⟨depth, c :: others⟩ :: stack, key⟩) :
    ∀ f ∈ (⟨depth, others⟩ :: stack : List (Frame V)), f.depth ≤ depth := by
  intro f hf
  rcases List.mem_cons.1 hf with rfl | hf
  · exact Nat.le_refl _
  · exact (List.pairwise_cons.1 h.descending).1 f hf

theorem Valid.take (h : Valid ⟨none, ⟨depth, c :: others⟩ :: stack, key⟩) (tail : Bytes) :
    Valid ⟨none, ⟨depth, others⟩ :: stack, key.take depth ++ tail⟩ where
  depth_le f hf := by
    have reached : depth ≤ key.length := h.depth_le _ List.mem_cons_self
    have := h.depth_le_top f hf
    rw [List.length_append, List.length_take, Nat.min_eq_left reached]
    omega
  descending := List.pairwise_cons.2 (List.pairwise_cons.1 h.descending)

theorem remaining_take (h : Valid ⟨none, ⟨depth, c :: others⟩ :: stack, key⟩) (tail : Bytes) :
    remaining ⟨none, ⟨depth, c :: others⟩ :: stack, key⟩ =
      c.2.entries.map (Entry.item (key.take depth ++ [c.1])) ++
        remaining ⟨none, ⟨depth, others⟩ :: stack, key.take depth ++ tail⟩ := by
  have reached : depth ≤ key.length := h.depth_le _ List.mem_cons_self
  simp only [remaining, Option.elim_none, List.nil_append,
    flatMap_items_eq h.depth_le_top reached tail]
  rw [List.flatMap_cons, List.flatMap_cons, Frame.items, Frame.items, List.flatMap_cons,
    List.append_assoc]

end Open

/-- The result of a request to a walk with these items left: the first of them and a walk with the
others. -/
structure Serves (items : List (Bytes × V)) (result : Option (Bytes × V) × Walk V) : Prop where
  answer : result.1 = items.head?
  valid : result.2.Valid
  remaining : result.2.remaining = items.tail

theorem serves_resume {stack : List (Frame V)} {key : Bytes} (h : Valid ⟨none, stack, key⟩) :
    Serves (remaining ⟨none, stack, key⟩) (resume stack key) := by
  fun_induction resume stack key with
  | case1 key => exact ⟨rfl, h, rfl⟩
  | case2 key depth stack ih => exact ih h.close
  | case3 key depth b others stack suffix value hits key' =>
    have items := remaining_take h (b :: suffix)
    rw [Node.entries_leaf] at items
    refine ⟨?_, h.take _, ?_⟩
    · rw [items]
      simp [key', Node.stem, Entry.item]
    · rw [items]
      rfl
  | case4 key depth b others stack stem s key' ih =>
    have opened := (h.take (b :: stem)).push s.children
    have items := remaining_take h (b :: stem)
    rw [Node.map_item_entries_inner, List.append_assoc] at items
    rw [items]
    exact ih opened

theorem serves_next {w : Walk V} (h : w.Valid) : Serves w.remaining w.next := by
  obtain ⟨root?, stack, key⟩ := w
  cases root? with
  | none => exact serves_resume h
  | some root =>
    have entered (tail : Bytes) : Valid ⟨none, stack, key ++ tail⟩ := by
      refine ⟨fun f hf => ?_, h.descending⟩
      have := h.depth_le f hf
      rw [List.length_append]
      exact Nat.le_add_right_of_le this
    -- no open node is deeper than the key, so what the root adds is cut off above
    have below (tail : Bytes) : stack.flatMap (Frame.items (key ++ tail)) =
        stack.flatMap (Frame.items key) := by
      have whole := flatMap_items_eq h.depth_le (Nat.le_refl _) tail
      rwa [List.take_length] at whole
    cases root with
    | leaf suffix value hits =>
      refine ⟨?_, entered suffix, ?_⟩
      · simp [remaining, next, Node.entries_leaf, Node.stem, Entry.item]
      · simp [remaining, next, Node.entries_leaf, Node.stem, below]
    | inner stem s =>
      have items : remaining ⟨some (.inner stem s), stack, key⟩ =
          remaining ⟨none, ⟨(key ++ stem).length, s.children⟩ :: stack, key ++ stem⟩ := by
        simp only [remaining, Option.elim_some, Option.elim_none, List.nil_append,
          Node.map_item_entries_inner, List.flatMap_cons, below]
      rw [items]
      exact serves_resume ((entered stem).push s.children)

theorem nexts_eq {w : Walk V} (h : w.Valid) (n : Nat) :
    w.nexts n = (List.range n).map fun i => w.remaining[i]? := by
  induction n generalizing w with
  | zero => rfl
  | succ n ih =>
    obtain ⟨answer, valid, rest⟩ := serves_next h
    rw [nexts, ih valid, answer, rest, List.range_succ_eq_map, List.map_cons, List.map_map,
      List.head?_eq_getElem?]
    simp only [List.getElem?_tail]
    rfl

theorem toList_eq {w : Walk V} (h : w.Valid) : w.toList = w.remaining := by
  generalize items : w.remaining = l
  induction l generalizing w with
  | nil =>
    have answer := (serves_next h).answer
    rw [items] at answer
    rw [toList]
    split
    · rfl
    · next taken =>
      rw [taken] at answer
      contradiction
  | cons item l ih =>
    obtain ⟨answer, valid, rest⟩ := serves_next h
    rw [items] at answer rest
    rw [toList]
    split
    · next ended =>
      rw [ended] at answer
      contradiction
    · next item' w' taken =>
      rw [taken] at answer valid rest
      rw [ih valid rest, Option.some.inj answer]

theorem valid_ofTree (t : Tree V) : (ofTree t).Valid where
  depth_le _ hf := absurd hf List.not_mem_nil
  descending := List.Pairwise.nil

theorem remaining_ofTree (t : Tree V) :
    (ofTree t).remaining = t.entries.map fun e => (e.key, e.value) := by
  obtain ⟨_ | n⟩ := t
  · rfl
  · exact List.append_nil _

theorem toList_ofTree (t : Tree V) :
    (ofTree t).toList = t.entries.map fun e => (e.key, e.value) :=
  (toList_eq (valid_ofTree t)).trans (remaining_ofTree t)

theorem nexts_ofTree_eq (t : Tree V) (n : Nat) : (ofTree t).nexts n =
    (List.range n).map fun i => (t.entries.map fun e => (e.key, e.value))[i]? := by
  rw [nexts_eq (valid_ofTree t), remaining_ofTree]

theorem nexts_ofTree_fused (t : Tree V) {n i j : Nat} (later : i ≤ j) (asked : j < n)
    (ended : ((ofTree t).nexts n)[i]? = some none) : ((ofTree t).nexts n)[j]? = some none := by
  rw [nexts_ofTree_eq, List.getElem?_map, List.getElem?_range (by omega), Option.map_some,
    Option.some.injEq, List.getElem?_eq_none_iff] at ended
  rw [nexts_ofTree_eq, List.getElem?_map, List.getElem?_range asked, Option.map_some,
    Option.some.injEq, List.getElem?_eq_none_iff]
  exact Nat.le_trans ended later

theorem pairwise_toList_ofTree {t : Tree V} (h : t.Sound) :
    (ofTree t).toList.Pairwise fun x y => x.1 < y.1 ∧ ¬ x.1 <+: y.1 ∧ ¬ y.1 <+: x.1 := by
  rw [toList_ofTree, List.pairwise_map]
  refine (Tree.ordered_entries h).imp_of_mem fun {e f} he hf lt => ?_
  have apart : ¬ Nested e.key f.key := Tree.not_nested_of_mem h he hf
  have different := ne_of_lt lt
  exact ⟨lt, fun before => apart ⟨different, .inl before⟩,
    fun after => apart ⟨different, .inr after⟩⟩

/-- A fresh walk answers each entry once, in the order in which the nodes list their children, and
nothing from then on. If the edges at every inner node are distinct, the keys are strictly ascending
and none is a beginning of another. In a map that a run reaches they are the entries of the
dictionary, as many as the map counts. -/
theorem nexts_ofTree :
    (∀ t : Tree V,
      (∀ n, (ofTree t).nexts n =
        (List.range n).map fun i => (t.entries.map fun e => (e.key, e.value))[i]?) ∧
      (∀ n i j, i ≤ j → j < n → ((ofTree t).nexts n)[i]? = some none →
        ((ofTree t).nexts n)[j]? = some none) ∧
      (ofTree t).toList = (t.entries.map fun e => (e.key, e.value)) ∧
      (t.Sound → (ofTree t).toList.Pairwise fun x y =>
        x.1 < y.1 ∧ ¬ x.1 <+: y.1 ∧ ¬ y.1 <+: x.1)) ∧
    ∀ (steps : List (Map.Step V)) o, Map.run Map.empty steps = .ok o →
      o.after.toList = ((Dictionary.run [] steps).2.map fun e => (e.key, e.value)) ∧
        o.after.toList.length = o.after.size := by
  refine ⟨fun t => ⟨nexts_ofTree_eq t, fun n i j => nexts_ofTree_fused t, toList_ofTree t,
    pairwise_toList_ofTree⟩, fun steps o reached => ?_⟩
  have represents := Map.represents_of_run reached
  have items : o.after.toList = (Dictionary.run [] steps).2.map fun e => (e.key, e.value) := by
    rw [Map.toList, toList_ofTree, represents.holds.entries]
  exact ⟨items, by rw [items, List.length_map, represents.size]⟩

theorem nexts_ofTree_childless :
    ∃ t : Tree Nat, t.root.map (fun n => n.children.map fun c => (c.1, c.2.shape, c.2.count)) =
        some [(1, .inner .keyed4, 0), (2, .inner .indexed48, 1), (3, .leaf, 0)] ∧
      (ofTree t).nexts 4 = [some ([7, 2, 9, 0, 5], 20), some ([7, 3], 30), none, none] ∧
      ((ofTree t).toList.Pairwise fun x y => x.1 < y.1 ∧ ¬ x.1 <+: y.1 ∧ ¬ y.1 <+: x.1) ∧
      ∃ o, Map.run (Map.empty : Map Nat) [.insert [8] 10, .insert [7, 2] 20, .record [7, 1] 30,
          .remove [8]] = .ok o ∧
        o.after.toList = [([7, 1], 30), ([7, 2], 20)] ∧ o.after.toList.length = o.after.size := by
  have lone : Edges.Ascending [(0, Node.leaf [5] 20 1)] := List.pairwise_singleton ..
  obtain ⟨s₂, sound₂, layout₂, children₂⟩ :=
    Storage.exists_children_eq .indexed48 lone (by decide)
  have ascending : Edges.Ascending [(1, Node.inner [] (.empty .keyed4)), (2, .inner [9] s₂),
      (3, .leaf [] 30 2)] := by
    simp [Edges.Ascending]
  obtain ⟨s, sound, -, children⟩ :=
    Storage.exists_children_eq .direct256 ascending (by simp [Layout.width])
  have bare : (Storage.empty .keyed4 : Storage (Node Nat)).children = [] :=
    Storage.children_empty .keyed4
  have single : s₂.count = 1 := by
    rw [← Storage.length_children sound₂, children₂]
    rfl
  have whole : Tree.Sound ⟨some (.inner [7] s)⟩ := by
    refine Tree.sound_some.2 (Node.sound_inner.2 ⟨sound, ?_⟩)
    simp [children, Node.sound_leaf, Node.sound_inner, bare, sound₂, children₂,
      Storage.sound_empty .keyed4]
  have entries : Tree.entries ⟨some (.inner [7] s)⟩ =
      [⟨[7, 2, 9, 0, 5], 20, 1⟩, ⟨[7, 3], 30, 2⟩] := by
    rw [Tree.entries_some]
    simp [Node.entries_inner, Node.entries_leaf, children, children₂, bare]
  obtain ⟨nexts, -, -, ordered⟩ := nexts_ofTree.1 ⟨some (.inner [7] s)⟩
  obtain ⟨o, reached⟩ := Checked.exists_of_isOk (x := Map.run (Map.empty : Map Nat)
    [.insert [8] 10, .insert [7, 2] 20, .record [7, 1] 30, .remove [8]]) (by decide +kernel)
  refine ⟨_, ?_, ?_, ordered whole, o, reached, nexts_ofTree.2 _ o reached⟩
  · simp only [Option.map_some, Node.children, children, List.map_cons, List.map_nil, Node.shape,
      Node.count, layout₂, single]
    rfl
  · rw [nexts, entries]
    rfl

end Walk

end AdaptiveRadix
