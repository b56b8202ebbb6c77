import AdaptiveRadix.Proofs.Map

/-!
Operations that answer an error have changed nothing: the tree is the same down to the places of the
children in their storages, and no event is told. Below the root this is so because a child that
comes back unchanged is put where it already is.
-/

namespace AdaptiveRadix

open Dictionary Edges

variable {V α β σ τ : Type}

namespace Outcome

/-- If the answer is an error, the state is the old one and there are no events. -/
def Atomic (before : σ) (o : Outcome σ (Except KeyError α)) : Prop :=
  ∀ e, o.answer = .error e → o = .unchanged before (.error e)

variable {before : σ} {o : Outcome σ (Except KeyError α)}

theorem atomic_unchanged (e : KeyError) :
    Atomic before (.unchanged before (.error e : Except KeyError α)) := by
  rintro _ ⟨⟩
  rfl

theorem atomic_ok (x : α) (after : σ) (events : List Event) :
    Atomic before ⟨.ok x, after, events⟩ := by
  rintro _ ⟨⟩

theorem Atomic.mapAfter (h : o.Atomic before) (f : σ → τ) : (o.mapAfter f).Atomic (f before) := by
  intro e refused
  rw [h e refused]
  rfl

theorem Atomic.mapAnswer (h : o.Atomic before) (f : α → β) :
    (o.mapAnswer (·.map f)).Atomic before := by
  intro e refused
  obtain ⟨_ | x, after, events⟩ := o
  · cases refused
    rw [h e rfl]
    rfl
  · cases refused

end Outcome

namespace Node

variable {n c : Node V} {s t : Storage (Node V)} {stem key : Bytes} {b : UInt8}

theorem atomic_descend {o : Outcome (Node V) (Except KeyError α)} (sound : s.Sound)
    (held : (b, c) ∈ s.children) (put : s.replace b o.after = .ok t) (h : o.Atomic c) :
    Outcome.Atomic (inner stem s) ⟨o.answer, inner stem t, o.events⟩ := by
  intro e refused
  have same := h e refused
  rw [same, Outcome.unchanged, Storage.replace_self sound held] at put
  rw [same, ← Except.ok.inj put]
  rfl

theorem Insertion.atomic {repetition : Repetition} {value : V}
    {o : Outcome (Node V) (Except KeyError UInt64)} (h : Insertion repetition value n key o)
    (hn : n.Sound) : o.Atomic n := by
  induction h with
  | duplicate => exact Outcome.atomic_unchanged _
  | counted => exact Outcome.atomic_ok _ _ _
  | conflictLeaf => exact Outcome.atomic_unchanged _
  | conflictInner => exact Outcome.atomic_unchanged _
  | fork => exact Outcome.atomic_ok _ _ _
  | edge => exact Outcome.atomic_ok _ _ _
  | descend held insertion put sound same replaced ih =>
    obtain ⟨whole, below⟩ := sound_inner.1 hn
    exact atomic_descend whole held put (ih (below _ held))

theorem Assignment.atomic {value : V} {o : Outcome (Node V) (Except KeyError V)}
    (h : Assignment value n key o) (hn : n.Sound) : o.Atomic n := by
  induction h with
  | found => exact Outcome.atomic_ok _ _ _
  | other => exact Outcome.atomic_unchanged _
  | missing => exact Outcome.atomic_unchanged _
  | descend held assignment put sound same replaced ih =>
    obtain ⟨whole, below⟩ := sound_inner.1 hn
    exact atomic_descend whole held put (ih (below _ held))

theorem Removal.atomic {o : Outcome (Node V) (Except KeyError V)} (h : Removal n key o)
    (hn : n.Sound) : o.Atomic n := by
  induction h with
  | missing => exact Outcome.atomic_unchanged _
  | taken => exact Outcome.atomic_ok _ _ _
  | descend held removal put sound same replaced ih =>
    obtain ⟨whole, below⟩ := sound_inner.1 hn
    exact atomic_descend whole held put (ih (below _ held))

end Node

namespace Tree

variable {t : Tree V}

theorem Upsertion.atomic {repetition : Repetition} {value : V} {key : Bytes}
    {o : Outcome (Tree V) (Except KeyError UInt64)} (h : Upsertion repetition value t key o)
    (ht : t.Sound) : o.Atomic t := by
  obtain ⟨root?⟩ := t
  cases h with
  | first bare => exact Outcome.atomic_ok _ _ _
  | @below n o root insertion =>
    obtain rfl : root? = some n := root
    exact (insertion.atomic (sound_some.1 ht)).mapAfter fun n => (⟨some n⟩ : Tree V)

variable (h : t.Sound)

include h

theorem upsert_atomic (repetition : Repetition) (key : Cursor) (value : V) (depth : UInt64) :
    (∃ o, t.upsert repetition key value depth = .ok o ∧ o.Atomic t) ∨
      t.upsert repetition key value depth = .error .counterOverflow ∧ repetition = .counted ∧
        ∃ c, key.advance depth = .ok c ∧ ¬ HitFits t.entries c.rest := by
  rcases upsertion_cases h repetition key value depth with
    ⟨e, -, refused⟩ | ⟨c, advanced, ⟨o, done, upsertion⟩ | ⟨fault, counted, full⟩⟩
  · exact .inl ⟨_, refused, Outcome.atomic_unchanged e⟩
  · exact .inl ⟨o, done, upsertion.atomic h⟩
  · exact .inr ⟨fault, counted, c, advanced, full⟩

theorem insert_atomic (key : Cursor) (value : V) (depth : UInt64) :
    ∃ o, t.insert key value depth = .ok o ∧ o.Atomic t := by
  rcases upsert_atomic h .refused key value depth with ⟨o, done, atomic⟩ | ⟨-, counted, -⟩
  · refine ⟨_, ?_, atomic.mapAnswer fun _ => ()⟩
    simp only [insert, done]
    rfl
  · cases counted

theorem assign_atomic (key : Cursor) (value : V) :
    ∃ o, t.assign key value = .ok o ∧ o.Atomic t := by
  obtain ⟨_ | n⟩ := t
  · exact ⟨_, rfl, Outcome.atomic_unchanged _⟩
  · have sound := sound_some.1 h
    obtain ⟨o, done, assignment⟩ := Node.assign_cases sound value key.rest
    refine ⟨_, ?_, (assignment.atomic sound).mapAfter fun n => (⟨some n⟩ : Tree V)⟩
    simp only [assign, done]
    rfl

theorem delete_atomic (key : Cursor) : ∃ o, t.delete key = .ok o ∧ o.Atomic t := by
  obtain ⟨_ | ⟨suffix, value, hits⟩ | ⟨stem, s⟩⟩ := t
  · exact ⟨_, rfl, Outcome.atomic_unchanged _⟩
  · by_cases same : suffix = key.rest
    · exact ⟨_, if_pos same, Outcome.atomic_ok _ _ _⟩
    · exact ⟨_, if_neg same, Outcome.atomic_unchanged _⟩
  · have sound := sound_some.1 h
    obtain ⟨o, done, removal⟩ := Node.remove_cases sound rfl key.rest
    refine ⟨_, ?_, (removal.atomic sound).mapAfter fun n => (⟨some n⟩ : Tree V)⟩
    simp only [delete, done]
    rfl

end Tree

namespace Map

variable {m : Map V} (h : m.tree.Sound)

include h

theorem insert_atomic (key : Bytes) (value : V) :
    (∃ o, m.insert key value = .ok o ∧ o.Atomic m) ∨
      m.insert key value = .error .counterOverflow ∧ ¬ m.size < sizeLimit := by
  obtain ⟨⟨e | x, after, events⟩, done, atomic⟩ := Tree.insert_atomic h (.ofBytes key) value 0
  · have same := atomic e rfl
    refine .inl ⟨.unchanged m (.error e), ?_, Outcome.atomic_unchanged e⟩
    simp only [insert, done, same]
    rfl
  · by_cases room : m.size < sizeLimit
    · refine .inl ⟨⟨.ok x, ⟨after, m.size + 1⟩, events⟩, ?_, Outcome.atomic_ok _ _ _⟩
      simp only [insert, done, Checked.ok_bind, Checked.increment_eq_ok room]
      rfl
    · refine .inr ⟨?_, room⟩
      simp only [insert, done, Checked.ok_bind, Checked.increment, if_neg room]
      rfl

theorem record_atomic (key : Bytes) (value : V) :
    (∃ o, m.record key value = .ok o ∧ o.Atomic m) ∨
      m.record key value = .error .counterOverflow ∧
        (¬ m.size < sizeLimit ∨ ¬ HitFits m.tree.entries key) := by
  rcases Tree.upsert_atomic h .counted (.ofBytes key) value 0 with
    ⟨⟨e | hits, after, events⟩, done, atomic⟩ | ⟨fault, -, c, advanced, full⟩
  · have same := atomic e rfl
    refine .inl ⟨.unchanged m (.error e), ?_, Outcome.atomic_unchanged e⟩
    simp only [record, Tree.record, done, same]
    rfl
  · by_cases first : hits = 1
    · by_cases room : m.size < sizeLimit
      · refine .inl ⟨⟨.ok hits, ⟨after, m.size + 1⟩, events⟩, ?_, Outcome.atomic_ok _ _ _⟩
        simp only [record, Tree.record, done, Checked.ok_bind, if_pos first,
          Checked.increment_eq_ok room]
        rfl
      · refine .inr ⟨?_, .inl room⟩
        simp only [record, Tree.record, done, Checked.ok_bind, if_pos first, Checked.increment,
          if_neg room]
        rfl
    · refine .inl ⟨⟨.ok hits, ⟨after, m.size⟩, events⟩, ?_, Outcome.atomic_ok _ _ _⟩
      simp only [record, Tree.record, done, Checked.ok_bind, if_neg first]
      rfl
  · rw [Cursor.advance_zero] at advanced
    cases advanced
    refine .inr ⟨?_, .inr full⟩
    simp only [record, Tree.record, fault]
    rfl

theorem set_atomic (key : Bytes) (value : V) :
    ∃ o, m.set key value = .ok o ∧ (o.answer = none → o = .unchanged m none) := by
  obtain ⟨⟨e | old, after, events⟩, done, atomic⟩ := Tree.assign_atomic h (.ofBytes key) value
  · have same := atomic e rfl
    refine ⟨.unchanged m none, ?_, fun _ => rfl⟩
    simp only [set, done, same]
    rfl
  · refine ⟨⟨some old, ⟨after, m.size⟩, events⟩, ?_, ?_⟩
    · simp only [set, done]
      rfl
    · rintro ⟨⟩

theorem remove_atomic (key : Bytes) :
    (∃ o, m.remove key = .ok o ∧ (o.answer = none → o = .unchanged m none)) ∨
      m.remove key = .error .counterUnderflow ∧ m.size = 0 := by
  obtain ⟨⟨e | value, after, events⟩, done, atomic⟩ := Tree.delete_atomic h (.ofBytes key)
  · have same := atomic e rfl
    refine .inl ⟨.unchanged m none, ?_, fun _ => rfl⟩
    simp only [remove, done, same]
    rfl
  · by_cases none_left : m.size = 0
    · refine .inr ⟨?_, none_left⟩
      simp only [remove, done, Checked.ok_bind, none_left]
      rfl
    · refine .inl ⟨⟨some value, ⟨after, m.size - 1⟩, events⟩, ?_, ?_⟩
      · simp only [remove, done, Checked.ok_bind,
          Checked.decrement_eq_ok (Nat.pos_of_ne_zero none_left)]
        rfl
      · rintro ⟨⟩

end Map

/-- In a sound tree, however full its nodes are, an operation that answers an error leaves the tree
as it was and tells of no event, and a map also keeps its size. No other fault arises than a counter
that cannot count a success. -/
theorem Tree.atomic_of_sound {t : Tree V} (h : t.Sound) (key : Cursor) (value : V)
    (depth : UInt64) :
    (∃ o, t.insert key value depth = .ok o ∧ o.Atomic t) ∧
    ((∃ o, t.record key value depth = .ok o ∧ o.Atomic t) ∨
      t.record key value depth = .error .counterOverflow ∧
        ∃ c, key.advance depth = .ok c ∧ ¬ HitFits t.entries c.rest) ∧
    (∃ o, t.assign key value = .ok o ∧ o.Atomic t) ∧
    (∃ o, t.delete key = .ok o ∧ o.Atomic t) ∧
    ∀ (m : Map V) (bytes : Bytes), m.tree = t →
      ((∃ o, m.insert bytes value = .ok o ∧ o.Atomic m) ∨
        m.insert bytes value = .error .counterOverflow ∧ ¬ m.size < Map.sizeLimit) ∧
      ((∃ o, m.record bytes value = .ok o ∧ o.Atomic m) ∨
        m.record bytes value = .error .counterOverflow ∧
          (¬ m.size < Map.sizeLimit ∨ ¬ HitFits t.entries bytes)) ∧
      (∃ o, m.set bytes value = .ok o ∧ (o.answer = none → o = .unchanged m none)) ∧
      ((∃ o, m.remove bytes = .ok o ∧ (o.answer = none → o = .unchanged m none)) ∨
        m.remove bytes = .error .counterUnderflow ∧ m.size = 0) := by
  refine ⟨insert_atomic h key value depth, ?_, assign_atomic h key value, delete_atomic h key,
    fun m bytes same => ?_⟩
  · rcases upsert_atomic h .counted key value depth with done | ⟨fault, -, full⟩
    · exact .inl done
    · exact .inr ⟨fault, full⟩
  · subst same
    exact ⟨Map.insert_atomic h bytes value, Map.record_atomic h bytes value,
      Map.set_atomic h bytes value, Map.remove_atomic h bytes⟩

theorem Tree.atomic_of_sound_one_child :
    ∃ t : Tree Nat, t.root.map (fun n => (n.shape, n.count)) = some (.inner .keyed16, 1) ∧
      t.Sound ∧
      t.insert (.ofBytes [7, 1]) 20 0 = .ok (.unchanged t (.error .prefixConflict)) ∧
      t.delete (.ofBytes [7, 1, 6]) = .ok (.unchanged t (.error .notFound)) ∧
      Map.remove ⟨t, 1⟩ [7, 1, 6] = .ok (.unchanged ⟨t, 1⟩ none) := by
  have bare : (Storage.empty .keyed16 : Storage (Node Nat)).children = [] :=
    Storage.children_empty .keyed16
  obtain ⟨s, added, sound, layout, inserted⟩ := Storage.add_eq (Storage.sound_empty .keyed16)
    (by decide) (b := 1) (by simp [bare]) (Node.leaf [5] 10 1)
  have whole : Tree.Sound ⟨some (.inner [7] s)⟩ := by
    refine Tree.sound_some.2 (Node.sound_inner.2 ⟨sound, fun c hc => ?_⟩)
    rw [inserted.2, bare] at hc
    simp only [List.not_mem_nil, or_false] at hc
    exact hc ▸ Node.sound_leaf ..
  have inserting : ((Storage.empty .keyed16).add 1 (.leaf [5] 10 1) >>= fun s =>
      Tree.insert ⟨some (.inner [7] s)⟩ (.ofBytes [7, 1]) 20 0).map (·.answer) =
        .ok (.error .prefixConflict) := by
    decide +kernel
  have deleting : ((Storage.empty .keyed16).add 1 (.leaf [5] 10 1) >>= fun s =>
      Tree.delete ⟨some (.inner [7] s)⟩ (.ofBytes [7, 1, 6])).map (·.answer) =
        .ok (.error .notFound) := by
    decide +kernel
  have removing : ((Storage.empty .keyed16).add 1 (.leaf [5] 10 1) >>= fun s =>
      Map.remove ⟨⟨some (.inner [7] s)⟩, 1⟩ [7, 1, 6]).map (·.answer) = .ok none := by
    decide +kernel
  rw [added, Checked.ok_bind] at inserting deleting removing
  obtain ⟨⟨o, inserted', atomic⟩, -⟩ := atomic_of_sound whole (.ofBytes [7, 1]) 20 0
  obtain ⟨-, -, -, ⟨p, deleted, atomic'⟩, map⟩ :=
    atomic_of_sound whole (.ofBytes [7, 1, 6]) 20 0
  obtain ⟨q, removed, atomic''⟩ :=
    (map ⟨⟨some (.inner [7] s)⟩, 1⟩ [7, 1, 6] rfl).2.2.2.resolve_right
      fun fault => absurd fault.2 Nat.one_ne_zero
  rw [inserted'] at inserting
  rw [deleted] at deleting
  rw [removed] at removing
  refine ⟨_, ?_, whole, ?_, ?_, ?_⟩
  · have count : s.count = 1 := by
      rw [Storage.count_of_inserted (Storage.sound_empty .keyed16) sound inserted]
      rfl
    simp only [Option.map_some, Node.shape, Node.count, layout, count]
    rfl
  · rw [inserted', atomic _ (Except.ok.inj inserting)]
  · rw [deleted, atomic' _ (Except.ok.inj deleting)]
  · rw [removed, atomic'' (Except.ok.inj removing)]

end AdaptiveRadix
