import AdaptiveRadix.Node.Search
import AdaptiveRadix.Proofs.Node.Entries
import AdaptiveRadix.Proofs.Stem

/-!
Searches in a sound tree. The leaf that a key leads to is the entry with that key, and an assignment
replaces the value of that entry and changes nothing else.
-/

namespace AdaptiveRadix.Node

open Dictionary Edges

variable {V : Type} {n : Node V} {key : Bytes} {value : V}
  {o : Outcome (Node V) (Except KeyError V)}

theorem find?_edge (stem : Bytes) (s : Storage (Node V)) (b : UInt8) (rest : Bytes) :
    (inner stem s).find? (stem ++ b :: rest) = (do
      match ← s.find? b with
      | none => return none
      | some child => child.find? rest) := by
  rw [find?]
  split
  · next missing =>
    rw [Stem.edge?_append] at missing
    contradiction
  · next found =>
    rw [Stem.edge?_append] at found
    cases found
    rfl

theorem find?_no_edge {stem : Bytes} (s : Storage (Node V))
    (missing : Stem.edge? stem key = none) : (inner stem s).find? key = .ok none := by
  rw [find?]
  split
  · rfl
  · next found =>
    rw [missing] at found
    contradiction

theorem find?_eq (h : n.Sound) (key : Bytes) :
    n.find? key = .ok ((Dictionary.entry? n.entries key).map fun e => (e.value, e.hits)) := by
  induction n using induct generalizing key with
  | leaf suffix value hits =>
    rw [find?, entries_leaf, entry?, List.find?_singleton]
    by_cases same : suffix = key
    · simp [same]
    · simp [same]
  | inner stem s ih =>
    have ordered := ordered_entries h
    obtain ⟨sound, below⟩ := sound_inner.1 h
    cases edge : Stem.edge? stem key with
    | none =>
      rw [find?_no_edge s edge, entry?_eq_none_iff.2]
      · rfl
      · intro f hf same
        obtain ⟨b, c, -, e, -, rfl⟩ := mem_entries_inner.1 hf
        rw [Stem.edge?_eq_some_iff.2 same.symm] at edge
        contradiction
    | some found =>
      obtain ⟨b, rest⟩ := found
      obtain rfl := Stem.edge?_eq_some_iff.1 edge
      rw [find?_edge, Storage.find?_eq sound]
      cases found : s.children.lookup b with
      | none =>
        have graft := graft_of_absent (lookup_eq_none_iff.1 found) stem
        rw [entry?_eq_none_iff.2 (graft.absent fun f hf => absurd hf List.not_mem_nil)]
        rfl
      | some c =>
        have held := (Storage.ascending_children sound).lookup_eq_some_iff.1 found
        have graft := graft_of_mem sound held stem
        refine (ih _ held (below _ held) rest).trans ?_
        cases inside : entry? c.entries rest with
        | none => rw [entry?_eq_none_iff.2 (graft.absent (entry?_eq_none_iff.1 inside))]
        | some e =>
          obtain ⟨he, same⟩ := (ordered_entries (below _ held)).entry?_eq_some_iff.1 inside
          rw [ordered.entry?_eq_some_iff.2 ⟨graft.mem_under he, key_under_eq_iff.2 same⟩]
          rfl

inductive Assignment (value : V) : Node V → Bytes → Outcome (Node V) (Except KeyError V) → Prop
  | found {key : Bytes} {old : V} {hits : UInt64} :
    Assignment value (leaf key old hits) key ⟨.ok old, leaf key value hits, []⟩
  | other {suffix key : Bytes} {old : V} {hits : UInt64} (different : suffix ≠ key) :
    Assignment value (leaf suffix old hits) key
      (.unchanged (leaf suffix old hits) (.error .notFound))
  | missing {stem key : Bytes} {s : Storage (Node V)}
    (unreached : ∀ b rest c, key = stem ++ b :: rest → (b, c) ∉ s.children) :
    Assignment value (inner stem s) key (.unchanged (inner stem s) (.error .notFound))
  | descend {stem rest : Bytes} {s t : Storage (Node V)} {b : UInt8} {c : Node V}
    {o : Outcome (Node V) (Except KeyError V)} (held : (b, c) ∈ s.children)
    (assignment : Assignment value c rest o) (put : s.replace b o.after = .ok t)
    (sound : t.Sound) (same : t.layout = s.layout)
    (replaced : Replaced b o.after s.children t.children) :
    Assignment value (inner stem s) (stem ++ b :: rest) ⟨o.answer, inner stem t, o.events⟩

theorem assign_edge (value : V) (stem : Bytes) (s : Storage (Node V)) (b : UInt8) (rest : Bytes) :
    (inner stem s).assign value (stem ++ b :: rest) = do
      match ← s.find? b with
      | none => return .unchanged (inner stem s) (.error .notFound)
      | some child =>
        let below ← child.assign value rest
        return ⟨below.answer, inner stem (← s.replace b below.after), below.events⟩ := by
  rw [assign]
  split
  · next missing =>
    rw [Stem.edge?_append] at missing
    contradiction
  · next found =>
    rw [Stem.edge?_append] at found
    cases found
    rfl

theorem assign_no_edge {stem : Bytes} (value : V) (s : Storage (Node V))
    (missing : Stem.edge? stem key = none) :
    (inner stem s).assign value key = .ok (.unchanged (inner stem s) (.error .notFound)) := by
  rw [assign]
  split
  · rfl
  · next found =>
    rw [missing] at found
    contradiction

theorem assign_cases (h : n.Sound) (value : V) (key : Bytes) :
    ∃ o, n.assign value key = .ok o ∧ Assignment value n key o := by
  induction n using induct generalizing key with
  | leaf suffix old hits =>
    rw [assign]
    by_cases same : suffix = key
    · subst same
      exact ⟨_, if_pos rfl, .found⟩
    · exact ⟨_, if_neg same, .other same⟩
  | inner stem s ih =>
    obtain ⟨sound, below⟩ := sound_inner.1 h
    cases edge : Stem.edge? stem key with
    | none =>
      refine ⟨_, assign_no_edge value s edge, .missing fun b rest c same => ?_⟩
      rw [Stem.edge?_eq_some_iff.2 same] at edge
      contradiction
    | some found =>
      obtain ⟨b, rest⟩ := found
      obtain rfl := Stem.edge?_eq_some_iff.1 edge
      rw [assign_edge, Storage.find?_eq sound]
      cases found : s.children.lookup b with
      | none =>
        refine ⟨_, rfl, .missing fun a r c same => ?_⟩
        obtain ⟨rfl, -⟩ := List.cons.inj (List.append_cancel_left same)
        exact lookup_eq_none_iff.1 found c
      | some c =>
        have held := (Storage.ascending_children sound).lookup_eq_some_iff.1 found
        obtain ⟨o, done, assignment⟩ := ih _ held (below _ held) rest
        obtain ⟨t, put, sound', same, replaced⟩ := Storage.replace_eq sound held o.after
        refine ⟨_, ?_, .descend held assignment put sound' same replaced⟩
        simp only [Checked.ok_bind, done, put]
        rfl

theorem Assignment.sound (h : Assignment value n key o) (hn : n.Sound) : o.after.Sound := by
  induction h with
  | found => exact sound_leaf ..
  | other => exact hn
  | missing => exact hn
  | descend held assignment put sound same replaced ih =>
    exact sound_of_replaced hn sound (ih ((sound_inner.1 hn).2 _ held)) replaced

theorem Assignment.built (h : Assignment value n key o) (built : n.Built) : o.after.Built := by
  induction h with
  | found => exact built_leaf ..
  | other => exact built
  | missing => exact built
  | descend held assignment put sound same replaced ih =>
    exact built_of_replaced built put (ih ((built_inner.1 built).2 _ held)) replaced

theorem Assignment.filled {rule : Layout → Nat → Prop} (h : Assignment value n key o)
    (hn : n.Sound) (filled : n.Filled rule) : o.after.Filled rule := by
  induction h with
  | found => exact filled_leaf ..
  | other => exact filled
  | missing => exact filled
  | descend held assignment put sound same replaced ih =>
    exact filled_of_replaced hn filled sound same
      (ih ((sound_inner.1 hn).2 _ held) ((filled_inner.1 filled).2 _ held)) replaced

theorem Assignment.assigned (h : Assignment value n key o) (hn : n.Sound) :
    Assigned key value n.entries o.after.entries o.answer := by
  induction h with
  | @found key old hits =>
    refine .replaced (e := ⟨key, old, hits⟩) (by simp [entries_leaf]) rfl fun f => ?_
    simp only [entries_leaf, List.mem_singleton]
    exact ⟨.inl, fun after => after.resolve_right fun ⟨same, different⟩ => different (same ▸ rfl)⟩
  | @other suffix key old hits different =>
    refine .absent (fun f hf => ?_) fun f => Iff.rfl
    rw [entries_leaf, List.mem_singleton] at hf
    exact hf ▸ different
  | @missing stem key s unreached =>
    refine .absent (fun f hf same => ?_) fun f => Iff.rfl
    obtain ⟨b, c, hc, e, he, rfl⟩ := mem_entries_inner.1 hf
    exact unreached b e.key c same.symm hc
  | @descend stem rest s t b c o held assignment put sound same replaced ih =>
    obtain ⟨sound, below⟩ := sound_inner.1 hn
    exact Assigned.graft (graft_of_mem sound held stem) (graft_of_mem_iff replaced.2 stem)
      (ih (below _ held))

end AdaptiveRadix.Node
