import AdaptiveRadix.Node.Removal
import AdaptiveRadix.Proofs.Node.Children
import AdaptiveRadix.Proofs.Node.Entries
import AdaptiveRadix.Proofs.Stem

/-!
What a removal below a sound inner node does, case by case: it finds no leaf with the key, takes the
leaf from its parent, or does one of these below an edge. It never faults. The effect on the entries
and on how full the nodes are is read off the cases.
-/

namespace AdaptiveRadix.Node

open Dictionary Edges

variable {V : Type} {n c : Node V} {s : Storage (Node V)} {stem key : Bytes} {b : UInt8}
  {events : List Event} {o : Outcome (Node V) (Except KeyError V)}

section Erasure

variable (h : Erasure stem s b c n events)

include h

theorem Erasure.held : (b, c) ∈ s.children := by
  cases h with
  | kept _ erased => exact erased.1
  | shrunk _ erased => exact erased.1
  | merged erased => exact erased.1
  | emptied _ erased => exact erased.1

theorem Erasure.sound (below : ∀ e ∈ s.children, e.2.Sound) : n.Sound := by
  cases h with
  | kept sound erased => exact sound_inner.2 ⟨sound, fun e he => below e ((erased.2 e).1 he).1⟩
  | shrunk sound erased => exact sound_inner.2 ⟨sound, fun e he => below e ((erased.2 e).1 he).1⟩
  | @merged a d erased =>
    have hd := ((erased.2 (a, d)).1 (List.mem_singleton_self _)).1
    exact sound_withStem.2 (below _ hd)
  | emptied sound erased same none_left =>
    exact sound_inner.2 ⟨sound, fun e he => absurd (none_left ▸ he) List.not_mem_nil⟩

theorem Erasure.built (built : (inner stem s).Built) : n.Built := by
  obtain ⟨here, below⟩ := built_inner.1 built
  cases h with
  | kept _ erased _ _ keeps =>
    exact built_inner.2 ⟨keeps here, fun e he => below e ((erased.2 e).1 he).1⟩
  | shrunk _ erased _ _ _ keeps =>
    exact built_inner.2 ⟨keeps here, fun e he => below e ((erased.2 e).1 he).1⟩
  | @merged a d erased =>
    have hd := ((erased.2 (a, d)).1 (List.mem_singleton_self _)).1
    exact built_withStem.2 (below _ hd)
  | emptied _ _ _ none_left keeps =>
    exact built_inner.2 ⟨keeps here, fun e he => absurd (none_left ▸ he) List.not_mem_nil⟩

theorem Erasure.filled {rule : Layout → Nat → Prop} (stable : Layout.Stable rule)
    (sound : s.Sound) (here : rule s.layout s.count) (below : ∀ e ∈ s.children, e.2.Filled rule) :
    n.Filled rule := by
  cases h with
  | kept sound' erased same enough =>
    rw [Storage.count_of_erased sound sound' erased] at here
    refine filled_inner.2 ⟨?_, fun e he => below e ((erased.2 e).1 he).1⟩
    exact same ▸ stable.erase _ _ here enough
  | shrunk sound' erased larger several few =>
    rw [Storage.count_of_erased sound sound' erased] at here
    refine filled_inner.2 ⟨?_, fun e he => below e ((erased.2 e).1 he).1⟩
    exact stable.shrink _ _ _ here larger few several
  | @merged a d erased =>
    have hd := ((erased.2 (a, d)).1 (List.mem_singleton_self _)).1
    exact filled_withStem.2 (below _ hd)
  | emptied sound' erased =>
    have := stable.several _ _ here
    rw [← Storage.length_children sound,
      erased.length (Storage.ascending_children sound) List.Pairwise.nil] at this
    exact absurd this (Nat.lt_irrefl 1)

theorem Erasure.graft : Graft stem b (Beside stem b s.children) [] n.entries := by
  cases h with
  | kept sound erased => exact graft_nil_of_mem_iff erased.2 stem
  | shrunk sound erased => exact graft_nil_of_mem_iff erased.2 stem
  | merged erased =>
    exact graft_nil_of_stem fun e => List.mem_singleton.symm.trans (erased.2 e)
  | emptied sound erased same none_left => exact graft_nil_of_mem_iff (none_left ▸ erased.2) stem

end Erasure

inductive Removal : Node V → Bytes → Outcome (Node V) (Except KeyError V) → Prop
  | missing {stem key : Bytes} {s : Storage (Node V)}
    (unreached : ∀ b rest c, key = stem ++ b :: rest → (b, c) ∈ s.children →
      ∃ suffix value hits, c = leaf suffix value hits ∧ suffix ≠ rest) :
    Removal (inner stem s) key (.unchanged (inner stem s) (.error .notFound))
  | taken {stem rest : Bytes} {s : Storage (Node V)} {b : UInt8} {value : V} {hits : UInt64}
    {n : Node V} {events : List Event}
    (erasure : Erasure stem s b (leaf rest value hits) n events) :
    Removal (inner stem s) (stem ++ b :: rest) ⟨.ok value, n, events⟩
  | descend {stem rest : Bytes} {s t : Storage (Node V)} {b : UInt8} {c : Node V}
    {o : Outcome (Node V) (Except KeyError V)} (held : (b, c) ∈ s.children)
    (removal : Removal c rest o) (put : s.replace b o.after = .ok t) (sound : t.Sound)
    (same : t.layout = s.layout) (replaced : Replaced b o.after s.children t.children) :
    Removal (inner stem s) (stem ++ b :: rest) ⟨o.answer, inner stem t, o.events⟩

theorem remove_edge (stem : Bytes) (s : Storage (Node V)) (b : UInt8) (rest : Bytes) :
    (inner stem s).remove (stem ++ b :: rest) = do
      match ← s.find? b with
      | none => return .unchanged (inner stem s) (.error .notFound)
      | some (leaf suffix ..) =>
        if suffix = rest then
          let removed ← (inner stem s).eraseChild b
          return removed.mapAnswer fun child? =>
            match child?.bind value? with
            | some value => .ok value
            | none => .error .notFound
        else return .unchanged (inner stem s) (.error .notFound)
      | some child =>
        let below ← child.remove rest
        return ⟨below.answer, inner stem (← s.replace b below.after), below.events⟩ := by
  rw [remove]
  split
  · next missing =>
    rw [Stem.edge?_append] at missing
    contradiction
  · next found =>
    rw [Stem.edge?_append] at found
    cases found
    rfl

theorem remove_no_edge (s : Storage (Node V)) (missing : Stem.edge? stem key = none) :
    (inner stem s).remove key = .ok (.unchanged (inner stem s) (.error .notFound)) := by
  rw [remove]
  split
  · rfl
  · next found =>
    rw [missing] at found
    contradiction

theorem remove_cases (h : n.Sound) (hn : n.isLeaf = false) (key : Bytes) :
    ∃ o, n.remove key = .ok o ∧ Removal n key o := by
  induction n using induct generalizing key with
  | leaf suffix value hits => cases hn
  | inner stem s ih =>
    obtain ⟨sound, below⟩ := sound_inner.1 h
    cases edge : Stem.edge? stem key with
    | none =>
      refine ⟨_, remove_no_edge s edge, .missing fun b rest c same => ?_⟩
      rw [Stem.edge?_eq_some_iff.2 same] at edge
      contradiction
    | some found =>
      obtain ⟨b, rest⟩ := found
      obtain rfl := Stem.edge?_eq_some_iff.1 edge
      rw [remove_edge, Storage.find?_eq sound]
      cases found : s.children.lookup b with
      | none =>
        refine ⟨_, rfl, .missing fun a r c same hc => ?_⟩
        obtain ⟨rfl, -⟩ := List.cons.inj (List.append_cancel_left same)
        exact absurd hc (lookup_eq_none_iff.1 found c)
      | some c =>
        have held := (Storage.ascending_children sound).lookup_eq_some_iff.1 found
        cases c with
        | leaf suffix value hits =>
          by_cases same : suffix = rest
          · subst same
            rcases eraseChild_cases sound stem b with ⟨d, n, events, taken, erasure⟩ | ⟨-, absent⟩
            · obtain rfl := (Storage.ascending_children sound).eq_of_mem held erasure.held
              refine ⟨_, ?_, .taken erasure⟩
              simp only [Checked.ok_bind, if_pos, taken]
              rfl
            · exact absurd held (absent _)
          · refine ⟨.unchanged (inner stem s) (.error .notFound), ?_,
              .missing fun a r c eq hc => ?_⟩
            · simp only [Checked.ok_bind, if_neg same]
              rfl
            · obtain ⟨rfl, rfl⟩ := List.cons.inj (List.append_cancel_left eq)
              exact ⟨suffix, value, hits,
                (Storage.ascending_children sound).eq_of_mem hc held, same⟩
        | inner stem' s' =>
          obtain ⟨o, done, removal⟩ := ih _ held (below _ held) rfl rest
          obtain ⟨t, put, sound', same, replaced⟩ := Storage.replace_eq sound held o.after
          refine ⟨_, ?_, .descend held removal put sound' same replaced⟩
          simp only [Checked.ok_bind, done, put]
          rfl

theorem Removal.sound (h : Removal n key o) (hn : n.Sound) : o.after.Sound := by
  induction h with
  | missing => exact hn
  | taken erasure => exact erasure.sound (sound_inner.1 hn).2
  | descend held removal put sound same replaced ih =>
    exact sound_of_replaced hn sound (ih ((sound_inner.1 hn).2 _ held)) replaced

theorem Removal.built (h : Removal n key o) (built : n.Built) : o.after.Built := by
  induction h with
  | missing => exact built
  | taken erasure => exact erasure.built built
  | descend held removal put sound same replaced ih =>
    exact built_of_replaced built put (ih ((built_inner.1 built).2 _ held)) replaced

theorem Removal.filled {rule : Layout → Nat → Prop} (stable : Layout.Stable rule)
    (h : Removal n key o) (hn : n.Sound) (filled : n.Filled rule) : o.after.Filled rule := by
  induction h with
  | missing => exact filled
  | taken erasure =>
    obtain ⟨here, below⟩ := filled_inner.1 filled
    exact erasure.filled stable (sound_inner.1 hn).1 here below
  | descend held removal put sound same replaced ih =>
    exact filled_of_replaced hn filled sound same
      (ih ((sound_inner.1 hn).2 _ held) ((filled_inner.1 filled).2 _ held)) replaced

theorem Removal.removed (h : Removal n key o) (hn : n.Sound) :
    Removed key n.entries o.after.entries o.answer := by
  induction h with
  | @missing stem key s unreached =>
    refine .absent (fun f hf same => ?_) fun f => Iff.rfl
    obtain ⟨b, c, hc, e, he, rfl⟩ := mem_entries_inner.1 hf
    obtain ⟨suffix, value, hits, rfl, different⟩ := unreached b e.key c same.symm hc
    rw [entries_leaf, List.mem_singleton] at he
    exact different (he ▸ rfl)
  | @taken stem rest s b value hits n events erasure =>
    refine Removed.graft (graft_of_mem (sound_inner.1 hn).1 erasure.held stem) erasure.graft ?_
    refine .taken (e := ⟨rest, value, hits⟩) (by simp [entries_leaf]) rfl fun f => ?_
    simp only [entries_leaf, List.mem_singleton, List.not_mem_nil, false_iff]
    exact fun ⟨same, different⟩ => different (same ▸ rfl)
  | @descend stem rest s t b c o held removal put sound same replaced ih =>
    obtain ⟨sound, below⟩ := sound_inner.1 hn
    exact Removed.graft (graft_of_mem sound held stem) (graft_of_mem_iff replaced.2 stem)
      (ih (below _ held))

end AdaptiveRadix.Node
