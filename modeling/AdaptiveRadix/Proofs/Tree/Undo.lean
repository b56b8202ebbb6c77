import AdaptiveRadix.Proofs.Map.Canonical

/-!
A removal right after an insertion takes it back. The entries are those from before, so a compact
tree gets its graph back, and each structural change is answered by its opposite: a stem that was
split is joined again, and a node that was grown for the new leaf is shrunk at the same number of
children.
-/

namespace AdaptiveRadix

open Dictionary Edges

variable {V : Type}

/-- The events of an insertion and those of the removal that takes it back. -/
inductive Event.Undone : List Event → List Event → Prop
  | nothing : Undone [] []
  | split (kept : Nat) (stem : Bytes) : Undone [.split kept stem] [.recompressed stem]
  | promoted (a b : Layout) (n : Nat) : Undone [.promoted a b n] [.shrunk b a n]

namespace Node

variable {n c : Node V} {s t : Storage (Node V)} {stem rest key : Bytes} {b : UInt8} {value : V}
  {hits : UInt64} {events : List Event} {o : Outcome (Node V) (Except KeyError UInt64)}
  {p : Outcome (Node V) (Except KeyError V)}

section Removal

variable (h : Removal (inner stem s) (stem ++ b :: rest) p) (sound : s.Sound)

include h sound

theorem Removal.taken_of_held (held : (b, leaf rest value hits) ∈ s.children) :
    ∃ n events, p = ⟨.ok value, n, events⟩ ∧ Erasure stem s b (leaf rest value hits) n events := by
  generalize whole : stem ++ b :: rest = key at h
  have ascending := Storage.ascending_children sound
  cases h with
  | missing unreached =>
    obtain ⟨suffix, _, _, same, different⟩ := unreached b rest _ whole.symm held
    cases same
    exact absurd rfl different
  | taken erasure =>
    obtain ⟨rfl, rfl⟩ := List.cons.inj (List.append_cancel_left whole)
    cases ascending.eq_of_mem held erasure.held
    exact ⟨_, _, rfl, erasure⟩
  | descend held' removal =>
    obtain ⟨rfl, rfl⟩ := List.cons.inj (List.append_cancel_left whole)
    cases ascending.eq_of_mem held held'
    cases removal

theorem Removal.descend_of_held (held : (b, c) ∈ s.children) (hc : c.isLeaf = false) :
    ∃ q t, Removal c rest q ∧ p = ⟨q.answer, inner stem t, q.events⟩ := by
  generalize whole : stem ++ b :: rest = key at h
  have ascending := Storage.ascending_children sound
  cases h with
  | missing unreached =>
    obtain ⟨_, _, _, rfl, -⟩ := unreached b rest _ whole.symm held
    cases hc
  | taken erasure =>
    obtain ⟨rfl, rfl⟩ := List.cons.inj (List.append_cancel_left whole)
    cases ascending.eq_of_mem held erasure.held
    cases hc
  | descend held' removal =>
    obtain ⟨rfl, rfl⟩ := List.cons.inj (List.append_cancel_left whole)
    obtain rfl := ascending.eq_of_mem held held'
    exact ⟨_, _, removal, rfl⟩

end Removal

theorem Erasure.recompressed {old : Bytes} {a : UInt8} (stemEq : n.stem = stem ++ a :: old)
    (inserted : Inserted b c [(a, n.withStem old)] t.children)
    {m : Node V} (erasure : Erasure stem t b c m events) : events = [.recompressed n.stem] := by
  have lone : Ascending [(a, n.withStem old)] := List.pairwise_singleton ..
  cases erasure with
  | @kept r sound erased same enough =>
    have left := inserted.eq_of_erased erased lone (Storage.ascending_children sound)
    have few := Nat.le_trans t.layout.two_le_minimum enough
    rw [← Storage.length_children sound, left] at few
    exact absurd few (Nat.not_succ_le_self 1)
  | shrunk sound erased larger several few =>
    have left := inserted.eq_of_erased erased lone (Storage.ascending_children sound)
    rw [← Storage.length_children sound, left] at several
    exact absurd several (Nat.not_succ_le_self 1)
  | merged erased =>
    obtain ⟨rfl, rfl⟩ : _ = a ∧ _ = n.withStem old := by
      simpa using inserted.eq_of_erased erased lone (List.pairwise_singleton ..)
    rw [stemEq, stem_withStem]
    rfl
  | emptied sound erased =>
    exact absurd (inserted.eq_of_erased erased lone List.Pairwise.nil) (List.cons_ne_nil _ _).symm

theorem Erasure.undone (hs : s.Sound) (enough : s.layout.minimum ≤ s.count)
    (inserted : Inserted b c s.children t.children) (growth : Growth s t events)
    {m : Node V} {later : List Event} (erasure : Erasure stem t b c m later) :
    Event.Undone events later := by
  have ascending := Storage.ascending_children hs
  have several := Nat.le_trans s.layout.two_le_minimum enough
  cases erasure with
  | @kept r sound erased same enough' =>
    have left := inserted.eq_of_erased erased ascending (Storage.ascending_children sound)
    rw [Storage.count_eq_of_length_eq sound hs (congrArg _ left)] at enough'
    cases growth with
    | room => exact .nothing
    | full full larger =>
      -- a node that was grown is below its minimum without the new child
      rw [full, Layout.minimum_of_larger? larger] at enough'
      exact absurd enough' (Nat.not_succ_le_self _)
  | @shrunk r sound erased larger' several' few =>
    have left := inserted.eq_of_erased erased ascending (Storage.ascending_children sound)
    rw [Storage.count_eq_of_length_eq sound hs (congrArg _ left)] at few ⊢
    cases growth with
    | room free same => exact absurd enough (Nat.not_le.2 (same ▸ few))
    | full full larger =>
      rw [Layout.eq_of_larger? larger' larger]
      exact .promoted ..
  | merged erased =>
    rw [← Storage.length_children hs,
      ← inserted.eq_of_erased erased ascending (List.pairwise_singleton ..)] at several
    exact absurd several (Nat.not_succ_le_self 1)
  | emptied sound erased =>
    rw [← Storage.length_children hs,
      ← inserted.eq_of_erased erased ascending List.Pairwise.nil] at several
    exact absurd several (Nat.not_succ_le_zero 1)

theorem Insertion.undone (h : Insertion .refused value n key o) (hn : n.Sound)
    (compact : n.Filled fun l k => l.minimum ≤ k) (stored : o.answer.isOk) :
    o.after.isLeaf = false ∧ ∀ p, Removal o.after key p → Event.Undone o.events p.events := by
  induction h with
  | duplicate => cases stored
  | counted counted => cases counted
  | conflictLeaf => cases stored
  | conflictInner => cases stored
  | fork stem sound layout inserted =>
    refine ⟨rfl, fun p removal => ?_⟩
    have held := (inserted.2 _).2 (.inl rfl)
    obtain ⟨m, events, rfl, erasure⟩ := removal.taken_of_held sound held
    rw [erasure.recompressed stem inserted]
    exact .split ..
  | edge sound inserted growth =>
    refine ⟨rfl, fun p removal => ?_⟩
    have held := (inserted.2 _).2 (.inl rfl)
    obtain ⟨m, events, rfl, erasure⟩ := removal.taken_of_held sound held
    exact erasure.undone (sound_inner.1 hn).1 (filled_inner.1 compact).1 inserted growth
  | descend held insertion put sound same replaced ih =>
    obtain ⟨inside, below⟩ :=
      ih ((sound_inner.1 hn).2 _ held) ((filled_inner.1 compact).2 _ held) stored
    refine ⟨rfl, fun p removal => ?_⟩
    obtain ⟨q, r, removal', rfl⟩ :=
      removal.descend_of_held sound ((replaced.2 _).2 (.inl rfl)) inside
    exact below q removal'

end Node

namespace Tree

variable {t : Tree V} {key : Cursor} {value : V}

theorem delete_inner {n : Node V} (hn : n.isLeaf = false) (key : Cursor) :
    delete ⟨some n⟩ key = return (← n.remove key.rest).mapAfter (⟨some ·⟩) := by
  cases n with
  | leaf => cases hn
  | inner => rfl

theorem events_undone (h : t.Sound) (compact : t.Filled fun l n => l.minimum ≤ n)
    {o : Outcome (Tree V) (Except KeyError UInt64)} {p : Outcome (Tree V) (Except KeyError V)}
    (done : t.upsert .refused key value 0 = .ok o) (stored : o.answer.isOk)
    (deleted : o.after.delete key = .ok p) : Event.Undone o.events p.events := by
  obtain ⟨_ | n⟩ := t
  · simp only [upsert, Cursor.advance_zero] at done
    obtain rfl := Except.ok.inj done
    obtain rfl := Except.ok.inj ((if_pos rfl).symm.trans deleted)
    exact .nothing
  · have sound := sound_some.1 h
    simp only [upsert, Cursor.advance_zero] at done
    rcases Node.insert_cases sound .refused value key.rest with
      ⟨q, inserted, insertion⟩ | ⟨-, counted, -⟩
    · rw [inserted] at done
      obtain rfl := Except.ok.inj done
      obtain ⟨inside, undone⟩ := insertion.undone sound (filled_some.1 compact) stored
      obtain ⟨r, removed, removal⟩ :=
        Node.remove_cases (insertion.sound sound) inside key.rest
      have deleting := delete_inner inside key
      rw [removed] at deleting
      obtain rfl := Except.ok.inj (deleting.symm.trans deleted)
      exact undone r removal
    · cases counted

theorem undone_of_compact (h : t.Sound) (compact : t.Filled fun l n => l.minimum ≤ n)
    (key : Cursor) (value : V) :
    ∃ o, t.insert key value 0 = .ok o ∧ (o.answer = .ok () →
      ∃ p, o.after.delete key = .ok p ∧ p.answer = .ok value ∧ p.after.graph? = t.graph? ∧
        Event.Undone o.events p.events) := by
  have forked := Filled.forked h Layout.stable_minimum compact
  rcases upsert_zero_cases h forked .refused key value with
    ⟨o, done, keeps, upserted⟩ | ⟨-, counted, -⟩
  case inr => cases counted
  refine ⟨o.mapAnswer (·.map fun _ => ()), by simp only [insert, done]; rfl, fun stored => ?_⟩
  have stored : o.answer.isOk := by
    obtain ⟨_ | _, _, _⟩ := o
    · cases stored
    · rfl
  obtain ⟨p, deleted, keeps', removed⟩ := delete_eq keeps.sound key
  obtain ⟨answer, after⟩ := upserted.removed removed stored
  have entries : p.after.entries = t.entries :=
    (ordered_entries keeps'.sound).ext (ordered_entries h) after
  have compact' := keeps.filled _ Layout.stable_minimum compact
  refine ⟨p, deleted, answer, graph?_eq (keeps'.holds Layout.stable_minimum compact' entries)
    ⟨h, compact, rfl⟩, events_undone h compact done stored deleted⟩

/-- In a tree that a check accepts, a removal of the key that was just inserted answers its value
and restores the graph, and its events undo those of the insertion. -/
theorem delete_insert (built : t.Built) (accepted : t.check = .ok ()) (key : Cursor) (value : V) :
    ∃ o, t.insert key value 0 = .ok o ∧ (o.answer = .ok () →
      ∃ p, o.after.delete key = .ok p ∧ p.answer = .ok value ∧ p.after.graph? = t.graph? ∧
        Event.Undone o.events p.events) :=
  undone_of_compact (built.sound_of_check accepted) (built.filled_of_check accepted) key value

def fourLeaves : Checked (Storage (Node Nat)) := do
  let s ← (Storage.empty .keyed4).add 1 (.leaf [] 10 1)
  let s ← s.add 2 (.leaf [] 20 1)
  let s ← s.add 3 (.leaf [] 30 1)
  s.add 4 (.leaf [] 40 1)

theorem delete_insert_fourLeaves :
    ∃ t : Tree Nat, t.root.map (fun n => (n.shape, n.count)) = some (.inner .keyed4, 4) ∧
      (∃ o p, t.insert (.ofBytes [7, 9]) 90 0 = .ok o ∧ o.events = [.promoted .keyed4 .keyed16 4] ∧
        o.after.delete (.ofBytes [7, 9]) = .ok p ∧ p.answer = .ok 90 ∧
        p.after.graph? = t.graph? ∧ p.events = [.shrunk .keyed16 .keyed4 4]) ∧
      ∃ o p, t.insert (.ofBytes [8]) 80 0 = .ok o ∧ o.events = [.split 0 [7]] ∧
        o.after.delete (.ofBytes [8]) = .ok p ∧ p.answer = .ok 80 ∧
        p.after.graph? = t.graph? ∧ p.events = [.recompressed [7]] := by
  obtain ⟨s, added⟩ := Checked.exists_of_isOk (x := fourLeaves) (by decide +kernel)
  have built : s.Built := by
    obtain ⟨p, first, rest⟩ := Checked.exists_of_bind_eq_ok added
    obtain ⟨q, second, rest⟩ := Checked.exists_of_bind_eq_ok rest
    obtain ⟨r, third, fourth⟩ := Checked.exists_of_bind_eq_ok rest
    exact ((((Storage.Built.empty .keyed4).add first).add second).add third).add fourth
  have numbers : (fourLeaves.map fun s => (s.layout, s.count, s.held, s.children.map (·.1))) =
      .ok (.keyed4, 4, [1, 2, 3, 4], [1, 2, 3, 4]) := by
    decide +kernel
  have leaves : (fourLeaves.map fun s => s.children.all (·.2.isLeaf)) = .ok true := by decide +kernel
  have growing : (fourLeaves >>= fun s => Tree.insert ⟨some (.inner [7] s)⟩ (.ofBytes [7, 9]) 90
      0).map (fun o => (o.answer, o.events)) = .ok (.ok (), [.promoted .keyed4 .keyed16 4]) := by
    decide +kernel
  have splitting : (fourLeaves >>= fun s => Tree.insert ⟨some (.inner [7] s)⟩ (.ofBytes [8]) 80
      0).map (fun o => (o.answer, o.events)) = .ok (.ok (), [.split 0 [7]]) := by
    decide +kernel
  rw [added] at numbers leaves growing splitting
  obtain ⟨layout, count, held, edges⟩ := by simpa using Except.ok.inj numbers
  have regular : s.Regular := {
    several := by rw [count]; decide
    enough := by rw [layout, count]; decide
    room := by rw [Storage.width, layout, count]; decide
    complete := by rw [count, ← List.length_map (·.1), edges]; rfl
    ascending := by rw [edges]; decide
    held := by rw [held, edges] }
  have below (P : Storage (Node Nat) → Prop) (c) (hc : c ∈ s.children) : c.2.Each P := by
    have leaf := List.all_eq_true.1 (Except.ok.inj leaves) c hc
    obtain ⟨a, _ | _⟩ := c
    · exact Node.each_leaf ..
    · cases leaf
  have whole : Tree.Built ⟨some (.inner [7] s)⟩ := fun n hn =>
    Option.some.inj hn ▸ Node.built_inner.2 ⟨built, below _⟩
  have accepted : Tree.check ⟨some (.inner [7] s)⟩ = .ok () :=
    check_eq_ok_iff.2 fun n hn => Option.some.inj hn ▸ Node.each_inner.2 ⟨regular, below _⟩
  obtain ⟨o, inserted, back⟩ := delete_insert whole accepted (.ofBytes [7, 9]) 90
  obtain ⟨o', inserted', back'⟩ := delete_insert whole accepted (.ofBytes [8]) 80
  rw [Checked.ok_bind, inserted] at growing
  rw [Checked.ok_bind, inserted'] at splitting
  obtain ⟨stored, events⟩ := Prod.mk.inj (Except.ok.inj growing)
  obtain ⟨stored', events'⟩ := Prod.mk.inj (Except.ok.inj splitting)
  obtain ⟨p, deleted, answer, graph, undone⟩ := back stored
  obtain ⟨p', deleted', answer', graph', undone'⟩ := back' stored'
  refine ⟨_, ?_, ⟨o, p, inserted, events, deleted, answer, graph, ?_⟩,
    o', p', inserted', events', deleted', answer', graph', ?_⟩
  · simp only [Option.map_some, Node.shape, Node.count, layout, count]
  · generalize p.events = later at undone ⊢
    rw [events] at undone
    cases undone
    rfl
  · generalize p'.events = later at undone' ⊢
    rw [events'] at undone'
    cases undone'
    rfl

end Tree

end AdaptiveRadix
