import AdaptiveRadix.Node.Insertion
import AdaptiveRadix.Proofs.Node.Children
import AdaptiveRadix.Proofs.Node.Entries
import AdaptiveRadix.Proofs.Stem

/-!
What an insertion below a sound node does, case by case: it is refused, counts a hit, splits a stem,
adds an edge, or does one of these below an edge. The only fault is a hit counter that is full. The
effect on the entries and on how full the nodes are is read off the cases.
-/

namespace AdaptiveRadix

namespace Node

open Dictionary Edges

variable {V : Type} {repetition : Repetition} {value : V} {n : Node V} {key : Bytes}
  {o : Outcome (Node V) (Except KeyError UInt64)}

inductive Insertion (repetition : Repetition) (value : V) :
    Node V → Bytes → Outcome (Node V) (Except KeyError UInt64) → Prop
  | duplicate {key : Bytes} {old : V} {hits : UInt64} (refused : repetition = .refused) :
    Insertion repetition value (leaf key old hits) key
      (.unchanged (leaf key old hits) (.error .duplicateKey))
  | counted {key : Bytes} {old : V} {hits : UInt64} (counted : repetition = .counted)
    (fits : hits.toNat + 1 < UInt64.size) :
    Insertion repetition value (leaf key old hits) key
      ⟨.ok (hits + 1), leaf key old (hits + 1), []⟩
  | conflictLeaf {key suffix : Bytes} {old : V} {hits : UInt64} (nested : Nested key suffix) :
    Insertion repetition value (leaf suffix old hits) key
      (.unchanged (leaf suffix old hits) (.error .prefixConflict))
  | conflictInner {key stem : Bytes} {s : Storage (Node V)} (ends : key <+: stem) :
    Insertion repetition value (inner stem s) key
      (.unchanged (inner stem s) (.error .prefixConflict))
  | fork {n : Node V} {p old new : Bytes} {a b : UInt8} {t : Storage (Node V)}
    (stem : n.stem = p ++ a :: old) (sound : t.Sound) (layout : t.layout = .keyed4)
    (inserted : Inserted b (newLeaf new value) [(a, n.withStem old)] t.children)
    (built : t.Built) :
    Insertion repetition value n (p ++ b :: new) ⟨.ok 1, inner p t, [.split p.length n.stem]⟩
  | edge {stem rest : Bytes} {b : UInt8} {s t : Storage (Node V)} {events : List Event}
    (sound : t.Sound) (inserted : Inserted b (newLeaf rest value) s.children t.children)
    (growth : Growth s t events) :
    Insertion repetition value (inner stem s) (stem ++ b :: rest) ⟨.ok 1, inner stem t, events⟩
  | descend {stem rest : Bytes} {b : UInt8} {c : Node V} {s t : Storage (Node V)}
    {o : Outcome (Node V) (Except KeyError UInt64)} (held : (b, c) ∈ s.children)
    (insertion : Insertion repetition value c rest o) (put : s.replace b o.after = .ok t)
    (sound : t.Sound) (same : t.layout = s.layout)
    (replaced : Replaced b o.after s.children t.children) :
    Insertion repetition value (inner stem s) (stem ++ b :: rest)
      ⟨o.answer, inner stem t, o.events⟩

theorem split_eq {p old : Bytes} {a b : UInt8} (stem : n.stem = p ++ a :: old)
    (different : a ≠ b) (new : Bytes) (value : V) :
    ∃ t, n.split p.length (p ++ b :: new) value = .ok ⟨(), inner p t, [.split p.length n.stem]⟩ ∧
      t.Sound ∧ t.layout = .keyed4 ∧
      Inserted b (newLeaf new value) [(a, n.withStem old)] t.children ∧ t.Built := by
  have bare : (Storage.empty .keyed4 : Storage (Node V)).children = [] :=
    Storage.children_empty .keyed4
  have none_count : (Storage.empty .keyed4 : Storage (Node V)).count = 0 := rfl
  obtain ⟨s, events, added, sound, inserted, growth⟩ :=
    addChild_eq (Storage.sound_empty .keyed4) p (b := a) (by simp [bare]) (n.withStem old)
  have one := growth.built (.empty .keyed4)
  obtain ⟨-, same, -⟩ | ⟨full, -, -⟩ := growth
  case full => exact absurd full (Nat.ne_of_lt (by decide : 0 < 4))
  have only : s.children = [(a, n.withStem old)] := by
    refine (Storage.ascending_children sound).ext (List.pairwise_singleton ..) fun e => ?_
    rw [inserted.2, bare, List.mem_singleton]
    exact or_iff_left List.not_mem_nil
  have other (d : Node V) : (b, d) ∉ s.children := by
    simp [only, Ne.symm different]
  obtain ⟨t, events, added', sound', inserted', growth'⟩ :=
    addChild_eq sound p other (newLeaf new value)
  have two := growth'.built one
  obtain ⟨-, same', -⟩ | ⟨full, -, -⟩ := growth'
  case full =>
    rw [← Storage.length_children sound, only, Storage.width, same] at full
    exact absurd full (Nat.ne_of_lt (by decide : 1 < 4))
  refine ⟨t, ?_, sound', same'.trans same, only ▸ inserted', two⟩
  simp only [split, stem, Stem.byteAt, Stem.before, Stem.after]
  simp [added, added', Checked.assert_eq_ok different]

theorem insert_leaf_same (repetition : Repetition) (value old : V) (key : Bytes) (hits : UInt64) :
    (leaf key old hits).insert repetition value key =
      match repetition with
      | .refused => .ok (.unchanged (leaf key old hits) (.error .duplicateKey))
      | .counted => return (← (leaf key old hits).bumpHits).mapAnswer .ok := by
  have whole : Stem.commonLength key key = key.length :=
    (Stem.commonLength_eq_left_iff _ _).2 List.prefix_rfl
  rw [insert.eq_def]
  exact if_pos ⟨whole, whole⟩

theorem insert_leaf_nested {suffix : Bytes} (nested : Nested key suffix)
    (repetition : Repetition) (value old : V) (hits : UInt64) :
    (leaf suffix old hits).insert repetition value key =
      .ok (.unchanged (leaf suffix old hits) (.error .prefixConflict)) := by
  obtain ⟨different, ⟨t, rfl⟩ | ⟨t, rfl⟩⟩ := nested
  · have common := Stem.commonLength_append_left key t
    rw [insert.eq_def]
    refine (if_neg fun both => different ?_).trans (if_pos (.inr common))
    exact (List.prefix_append key t).eq_of_length (common.symm.trans both.1)
  · have common := Stem.commonLength_append suffix t
    rw [insert.eq_def]
    refine (if_neg fun both => different ?_).trans (if_pos (.inl common))
    exact ((List.prefix_append suffix t).eq_of_length (common.symm.trans both.2)).symm

theorem insert_inner_ends {stem : Bytes} (ends : key <+: stem) (repetition : Repetition)
    (value : V) (s : Storage (Node V)) :
    (inner stem s).insert repetition value key =
      .ok (.unchanged (inner stem s) (.error .prefixConflict)) := by
  obtain ⟨t, rfl⟩ := ends
  have common := Stem.commonLength_append_left key t
  rw [insert.eq_def]
  by_cases whole : t = []
  · subst whole
    simp only [Node.stem, List.append_nil] at common ⊢
    rw [if_neg (Nat.not_lt.2 (Nat.le_of_eq common.symm))]
    split
    · rfl
    · next found =>
      rw [List.append_nil, Stem.edge?_self] at found
      contradiction
  · refine (if_pos ?_).trans (if_pos common)
    have := List.length_pos_iff.2 whole
    simp only [Node.stem, common, List.length_append]
    omega

theorem insert_parted {p as bs : Bytes} {a b : UInt8} (stem : n.stem = p ++ a :: as)
    (different : a ≠ b) (repetition : Repetition) (value : V) :
    n.insert repetition value (p ++ b :: bs) =
      return (← n.split p.length (p ++ b :: bs) value).mapAnswer fun _ => .ok 1 := by
  have common := Stem.commonLength_parted different p as bs
  have right : p.length ≠ (p ++ b :: bs).length := by simp
  have left : p.length < (p ++ a :: as).length := by simp
  rw [insert.eq_def]
  cases n with
  | leaf suffix old hits =>
    obtain rfl : suffix = p ++ a :: as := stem
    simp only [Node.stem, common]
    rw [if_neg fun both => right both.2, if_neg (not_or.2 ⟨Nat.ne_of_lt left, right⟩)]
  | inner old s =>
    obtain rfl : old = p ++ a :: as := stem
    simp only [Node.stem, common]
    rw [if_pos left, if_neg right]

theorem insert_edge (repetition : Repetition) (value : V) (stem : Bytes) (s : Storage (Node V))
    (b : UInt8) (rest : Bytes) :
    (inner stem s).insert repetition value (stem ++ b :: rest) = do
      match ← s.find? b with
      | some child =>
        let below ← child.insert repetition value rest
        return ⟨below.answer, inner stem (← s.replace b below.after), below.events⟩
      | none =>
        return (← (inner stem s).addChild b (newLeaf rest value)).mapAnswer fun _ => .ok 1 := by
  have common := Stem.commonLength_append stem (b :: rest)
  rw [insert.eq_def]
  simp only [Node.stem, common, Nat.lt_irrefl, if_false]
  split
  · next missing =>
    rw [Stem.edge?_append] at missing
    contradiction
  · next found =>
    rw [Stem.edge?_append] at found
    cases found
    rfl

theorem insert_fork {p as : Bytes} {a b : UInt8} (stem : n.stem = p ++ a :: as) (different : a ≠ b)
    (bs : Bytes) (repetition : Repetition) (value : V) :
    ∃ o, n.insert repetition value (p ++ b :: bs) = .ok o ∧
      Insertion repetition value n (p ++ b :: bs) o := by
  obtain ⟨t, done, sound, layout, inserted, built⟩ := split_eq stem different bs value
  refine ⟨_, ?_, .fork stem sound layout inserted built⟩
  rw [insert_parted stem different, done]
  rfl

theorem insert_leaf_cases (suffix : Bytes) (old : V) (hits : UInt64) (repetition : Repetition)
    (value : V) (key : Bytes) :
    (∃ o, (leaf suffix old hits).insert repetition value key = .ok o ∧
      Insertion repetition value (leaf suffix old hits) key o) ∨
      (leaf suffix old hits).insert repetition value key = .error .counterOverflow ∧
        repetition = .counted ∧ suffix = key ∧ ¬ hits.toNat + 1 < UInt64.size := by
  by_cases same : key = suffix
  · subst same
    rw [insert_leaf_same]
    cases repetition with
    | refused => exact .inl ⟨_, rfl, .duplicate rfl⟩
    | counted =>
      by_cases fits : hits.toNat + 1 < UInt64.size
      · refine .inl ⟨_, ?_, .counted rfl fits⟩
        simp only [bumpHits, if_pos fits]
        rfl
      · refine .inr ⟨?_, rfl, rfl, fits⟩
        simp only [bumpHits, if_neg fits]
        rfl
  · rcases Stem.prefix_or_parted suffix key with le | ge | ⟨p, a, as, b, bs, rfl, rfl, different⟩
    · exact .inl ⟨_, insert_leaf_nested ⟨same, .inr le⟩ .., .conflictLeaf ⟨same, .inr le⟩⟩
    · exact .inl ⟨_, insert_leaf_nested ⟨same, .inl ge⟩ .., .conflictLeaf ⟨same, .inl ge⟩⟩
    · exact .inl (insert_fork rfl different bs repetition value)

/-- An insertion into a sound tree is one of the cases, unless it would overflow a hit counter. -/
theorem insert_cases (h : n.Sound) (repetition : Repetition) (value : V) (key : Bytes) :
    (∃ o, n.insert repetition value key = .ok o ∧ Insertion repetition value n key o) ∨
      n.insert repetition value key = .error .counterOverflow ∧ repetition = .counted ∧
        ∃ e ∈ n.entries, e.key = key ∧ ¬ e.hits.toNat + 1 < UInt64.size := by
  induction n using induct generalizing key with
  | leaf suffix old hits =>
    refine (insert_leaf_cases suffix old hits repetition value key).imp_right ?_
    rintro ⟨fault, counted, same, full⟩
    exact ⟨fault, counted, ⟨suffix, old, hits⟩, by simp [entries_leaf], same, full⟩
  | inner stem s ih =>
    obtain ⟨sound, below⟩ := sound_inner.1 h
    rcases Stem.prefix_or_parted stem key with
      ⟨tail, rfl⟩ | ge | ⟨p, a, as, b, bs, rfl, rfl, different⟩
    · cases tail with
      | nil =>
        have ends : stem ++ [] <+: stem := (List.append_nil stem).symm ▸ List.prefix_rfl
        exact .inl ⟨_, insert_inner_ends ends .., .conflictInner ends⟩
      | cons b rest =>
        rw [insert_edge, Storage.find?_eq sound]
        cases found : s.children.lookup b with
        | none =>
          have absent := lookup_eq_none_iff.1 found
          obtain ⟨t, events, added, sound', inserted, growth⟩ :=
            addChild_eq sound stem absent (newLeaf rest value)
          refine .inl ⟨_, ?_, .edge sound' inserted growth⟩
          simp only [added, Checked.ok_bind]
          rfl
        | some c =>
          have held := (Storage.ascending_children sound).lookup_eq_some_iff.1 found
          rcases ih _ held (below _ held) rest with
            ⟨o, done, insertion⟩ | ⟨fault, counted, e, he, same, full⟩
          · obtain ⟨t, put, sound', same, replaced⟩ := Storage.replace_eq sound held o.after
            refine .inl ⟨_, ?_, .descend held insertion put sound' same replaced⟩
            simp only [done, put, Checked.ok_bind]
            rfl
          · refine .inr ⟨?_, counted, e.under stem b,
              mem_entries_inner.2 ⟨b, c, held, e, he, rfl⟩, key_under_eq_iff.2 same, full⟩
            simp only [fault, Checked.ok_bind]
            rfl
    · exact .inl ⟨_, insert_inner_ends ge .., .conflictInner ge⟩
    · exact .inl (insert_fork rfl different bs repetition value)

theorem Insertion.sound (h : Insertion repetition value n key o) (hn : n.Sound) :
    o.after.Sound := by
  induction h with
  | duplicate => exact hn
  | counted => exact sound_leaf ..
  | conflictLeaf => exact hn
  | conflictInner => exact hn
  | fork stem sound layout inserted =>
    refine sound_inner.2 ⟨sound, fun c hc => ?_⟩
    rcases (inserted.2 c).1 hc with rfl | hc
    · exact sound_leaf ..
    · exact List.mem_singleton.1 hc ▸ sound_withStem.2 hn
  | edge sound inserted growth =>
    refine sound_inner.2 ⟨sound, fun c hc => ?_⟩
    rcases (inserted.2 c).1 hc with rfl | hc
    · exact sound_leaf ..
    · exact (sound_inner.1 hn).2 c hc
  | descend held insertion put sound same replaced ih =>
    exact sound_of_replaced hn sound (ih ((sound_inner.1 hn).2 _ held)) replaced

theorem Insertion.built (h : Insertion repetition value n key o) (built : n.Built) :
    o.after.Built := by
  induction h with
  | duplicate => exact built
  | counted => exact built_leaf ..
  | conflictLeaf => exact built
  | conflictInner => exact built
  | fork stem sound layout inserted here =>
    refine built_inner.2 ⟨here, fun c hc => ?_⟩
    rcases (inserted.2 c).1 hc with rfl | hc
    · exact built_leaf ..
    · exact List.mem_singleton.1 hc ▸ built_withStem.2 built
  | edge sound inserted growth =>
    obtain ⟨here, below⟩ := built_inner.1 built
    refine built_inner.2 ⟨growth.built here, fun c hc => ?_⟩
    rcases (inserted.2 c).1 hc with rfl | hc
    · exact built_leaf ..
    · exact below c hc
  | descend held insertion put sound same replaced ih =>
    exact built_of_replaced built put (ih ((built_inner.1 built).2 _ held)) replaced

theorem Insertion.filled {rule : Layout → Nat → Prop} (stable : Layout.Stable rule)
    (h : Insertion repetition value n key o) (hn : n.Sound) (filled : n.Filled rule) :
    o.after.Filled rule := by
  induction h with
  | duplicate => exact filled
  | counted => exact filled_leaf ..
  | conflictLeaf => exact filled
  | conflictInner => exact filled
  | fork stem sound layout inserted =>
    refine filled_inner.2 ⟨?_, fun c hc => ?_⟩
    · rw [layout, ← Storage.length_children sound,
        inserted.length (List.pairwise_singleton ..) (Storage.ascending_children sound)]
      exact stable.fork
    · rcases (inserted.2 c).1 hc with rfl | hc
      · exact filled_leaf ..
      · exact List.mem_singleton.1 hc ▸ filled_withStem.2 filled
  | @edge stem rest b s t events sound inserted growth =>
    obtain ⟨here, below⟩ := filled_inner.1 filled
    have old := (sound_inner.1 hn).1
    refine filled_inner.2 ⟨?_, fun c hc => ?_⟩
    · rw [Storage.count_of_inserted old sound inserted]
      cases growth with
      | room free same => exact same ▸ stable.add _ _ here free
      | full full larger =>
        rw [full] at here ⊢
        exact stable.grow _ _ here larger
    · rcases (inserted.2 c).1 hc with rfl | hc
      · exact filled_leaf ..
      · exact below c hc
  | descend held insertion put sound same replaced ih =>
    exact filled_of_replaced hn filled sound same
      (ih ((sound_inner.1 hn).2 _ held) ((filled_inner.1 filled).2 _ held)) replaced

theorem Insertion.upserted (h : Insertion repetition value n key o) (hn : n.Sound)
    (forked : n.Forked) : Upserted repetition key value n.entries o.after.entries o.answer := by
  induction h with
  | @duplicate key old hits refused =>
    exact .duplicate (e := ⟨key, old, hits⟩) (by simp [entries_leaf]) rfl refused fun f => Iff.rfl
  | @counted key old hits counted fits =>
    refine .counted (e := ⟨key, old, hits⟩) (by simp [entries_leaf]) rfl counted fits fun f => ?_
    simp only [entries_leaf, List.mem_singleton]
    exact ⟨.inl, fun after => after.resolve_right fun ⟨same, different⟩ => different (same ▸ rfl)⟩
  | @conflictLeaf key suffix old hits nested =>
    refine .conflict (e := ⟨suffix, old, hits⟩) (fun f hf => ?_) (by simp [entries_leaf]) nested
      fun f => Iff.rfl
    rw [entries_leaf, List.mem_singleton] at hf
    exact hf ▸ Ne.symm nested.1
  | @conflictInner key stem s ends =>
    obtain ⟨e, he⟩ := exists_entry hn forked
    exact .conflict (fun f hf => Ne.symm (nested_of_ends ends hf).1) he (nested_of_ends ends he)
      fun f => Iff.rfl
  | @fork n p old new a b t stem sound layout inserted =>
    have single (e : UInt8 × Node V) :
        e = (a, n.withStem old) ↔ e ∈ [(a, n.withStem old)] ∧ e.1 ≠ b := by
      rw [List.mem_singleton]
      refine (and_iff_left_of_imp ?_).symm
      rintro rfl (same : a = b)
      exact inserted.1 (n.withStem old) (by rw [same]; exact List.mem_singleton_self _)
    -- the node is read as if it hung below a fork with one edge
    have before := graft_nil_of_stem (p := p) single
    rw [stem_withStem, withStem_withStem, ← stem, withStem_stem] at before
    refine Upserted.graft before (graft_of_inserted inserted p) ?_
    refine .added (by simp) (by simp) fun f => ?_
    rw [newLeaf, entries_leaf]
    simp
  | @edge stem rest b s t events sound inserted growth =>
    refine Upserted.graft (graft_of_absent inserted.1 stem) (graft_of_inserted inserted stem) ?_
    refine .added (by simp) (by simp) fun f => ?_
    rw [newLeaf, entries_leaf]
    simp
  | @descend stem rest b c s t o held insertion put sound same replaced ih =>
    obtain ⟨sound, below⟩ := sound_inner.1 hn
    exact Upserted.graft (graft_of_mem sound held stem) (graft_of_mem_iff replaced.2 stem)
      (ih (below _ held) ((filled_inner.1 forked).2 _ held))

theorem Insertion.hitFits (h : Insertion .counted value n key o) (hn : n.Sound) :
    HitFits n.entries key := by
  induction h with
  | duplicate refused => cases refused
  | counted _ fits =>
    intro e he _
    rw [entries_leaf, List.mem_singleton] at he
    exact he ▸ fits
  | conflictLeaf nested =>
    intro e he same
    rw [entries_leaf, List.mem_singleton] at he
    subst he
    exact absurd same.symm nested.1
  | conflictInner ends => exact fun e he same => absurd same.symm (nested_of_ends ends he).1
  | @fork n p old new a b t stem sound layout inserted =>
    intro e he same
    have starts := stem_prefix_of_mem he
    rw [stem, same, List.prefix_append_right_inj, List.cons_prefix_cons] at starts
    exact absurd (starts.1 ▸ List.mem_singleton_self _) (inserted.1 (n.withStem old))
  | @edge stem rest b s t events sound inserted growth =>
    intro e he same
    obtain ⟨a, c, hc, f, -, rfl⟩ := mem_entries_inner.1 he
    have parted := List.append_cancel_left same
    exact absurd ((List.cons.inj parted).1 ▸ hc) (inserted.1 c)
  | @descend stem rest b c s t o held insertion put sound same replaced ih =>
    intro e he same
    obtain ⟨whole, below⟩ := sound_inner.1 hn
    obtain ⟨a, d, hd, f, hf, rfl⟩ := mem_entries_inner.1 he
    obtain ⟨rfl, tail⟩ := List.cons.inj (List.append_cancel_left same)
    obtain rfl := (Storage.ascending_children whole).eq_of_mem held hd
    exact ih (below _ held) f hf tail

end Node

end AdaptiveRadix
