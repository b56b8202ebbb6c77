import AdaptiveRadix.Proofs.Map.Regular
import AdaptiveRadix.Proofs.Node.Population

/-!
The events of a run are a complete account of the inner nodes. Every step tells at most one event,
of the kind that goes with it, and what has been told since the map was empty adds up to the nodes
that a census finds.
-/

namespace AdaptiveRadix

open Event

variable {V α : Type}

namespace Tree

variable {t u v : Tree V} {l : Layout} {events more : List Event} {key : Cursor} {value : V}

def population (l : Layout) (t : Tree V) : Nat :=
  t.root.elim 0 (Node.population l)

theorem nodes_ofTree (t : Tree V) : ((Census.ofTree t).tally l).nodes = t.population l := by
  obtain ⟨_ | n⟩ := t
  · rfl
  · exact (Node.nodes_addNode n 1 Census.zero).trans (Nat.zero_add _)

/-- The events between two trees say how many inner nodes came and went. -/
def Books (t u : Tree V) (events : List Event) : Prop :=
  ∀ l, (u.population l : Int) = t.population l + gains l events

theorem Books.refl (t : Tree V) : Books t t [] := fun _ => (Int.add_zero _).symm

theorem Books.trans (first : Books t u events) (later : Books u v more) :
    Books t v (events ++ more) := fun l => by
  rw [later l, first l, gains_append, Int.add_assoc]

theorem Upsertion.books {repetition : Repetition} {key : Bytes}
    {o : Outcome (Tree V) (Except KeyError UInt64)} (h : Upsertion repetition value t key o)
    (ht : t.Sound) : OfStoring o.events ∧ Books t o.after o.events := by
  obtain ⟨root?⟩ := t
  cases h with
  | first bare =>
    obtain rfl : root? = none := bare
    exact ⟨.nothing, fun l => congrArg Nat.cast (Node.population_leaf ..)⟩
  | @below n o root insertion =>
    obtain rfl : root? = some n := root
    exact ⟨insertion.ofStoring, fun l => insertion.population_eq (sound_some.1 ht)⟩

theorem books_of_upsert {repetition : Repetition} {depth : UInt64}
    {o : Outcome (Tree V) (Except KeyError UInt64)} (h : t.Sound)
    (done : t.upsert repetition key value depth = .ok o) :
    OfStoring o.events ∧ Books t o.after o.events := by
  rcases upsertion_cases h repetition key value depth with
    ⟨e, -, refused⟩ | ⟨c, -, ⟨o', done', upsertion⟩ | ⟨fault, -⟩⟩
  · rw [refused] at done
    cases done
    exact ⟨.nothing, .refl t⟩
  · rw [done'] at done
    cases done
    exact upsertion.books h
  · rw [fault] at done
    cases done

theorem books_of_assign {o : Outcome (Tree V) (Except KeyError V)} (h : t.Sound)
    (done : t.assign key value = .ok o) : o.events = [] ∧ Books t o.after o.events := by
  obtain ⟨_ | n⟩ := t
  · cases done
    exact ⟨rfl, .refl empty⟩
  · obtain ⟨o, assigned, rfl⟩ := Checked.exists_of_map_eq_ok done
    have sound := sound_some.1 h
    obtain ⟨o', done', assignment⟩ := Node.assign_cases sound value key.rest
    rw [assigned] at done'
    cases done'
    exact ⟨assignment.events_eq, fun l => assignment.population_eq sound⟩

theorem books_of_delete {o : Outcome (Tree V) (Except KeyError V)} (h : t.Sound)
    (filled : t.Filled fun l n => l.minimum ≤ n) (done : t.delete key = .ok o) :
    OfRemoval o.events ∧ Books t o.after o.events := by
  obtain ⟨_ | ⟨suffix, value, hits⟩ | ⟨stem, s⟩⟩ := t
  · cases done
    exact ⟨.nothing, .refl empty⟩
  · by_cases same : suffix = key.rest
    · cases (if_pos same).symm.trans done
      exact ⟨.nothing, fun l => (congrArg Nat.cast (Node.population_leaf ..)).symm⟩
    · cases (if_neg same).symm.trans done
      exact ⟨.nothing, .refl _⟩
  · obtain ⟨o, removed, rfl⟩ := Checked.exists_of_map_eq_ok done
    have sound := sound_some.1 h
    have filled := filled_some.1 filled
    obtain ⟨o', done', removal⟩ := Node.remove_cases sound rfl key.rest
    rw [removed] at done'
    cases done'
    exact ⟨removal.ofRemoval sound filled, fun l => removal.population_eq sound filled⟩

end Tree

namespace Map

variable {m : Map V} {d : Dictionary V} {key : Bytes} {value : V}

/-- What a step may tell: at most one event. -/
def Step.Tells : Step V → List Event → Prop
  | .insert .., events => OfStoring events
  | .record .., events => OfStoring events
  | .remove _, events => OfRemoval events
  | _, events => events = []

theorem Step.Tells.adjacent {s : Step V} {events : List Event} (h : s.Tells events) :
    ∀ e ∈ events, e.Adjacent := by
  cases s with
  | insert | record => exact OfStoring.adjacent h
  | remove => exact OfRemoval.adjacent h
  | _ =>
    obtain rfl : events = [] := h
    exact fun e he => absurd he List.not_mem_nil

theorem exists_of_insert {p : Outcome (Map V) (Except KeyError Unit)}
    (done : m.insert key value = .ok p) :
    ∃ o, m.tree.upsert .refused (.ofBytes key) value 0 = .ok o ∧ p.after.tree = o.after ∧
      p.events = o.events := by
  obtain ⟨o, inserted, rest⟩ := Checked.exists_of_bind_eq_ok done
  obtain ⟨o, upserted, rfl⟩ := Checked.exists_of_map_eq_ok inserted
  refine ⟨o, upserted, ?_⟩
  split at rest
  · cases rest
    exact ⟨rfl, rfl⟩
  · obtain ⟨size, -, rfl⟩ := Checked.exists_of_map_eq_ok rest
    exact ⟨rfl, rfl⟩

theorem exists_of_record {p : Outcome (Map V) (Except KeyError UInt64)}
    (done : m.record key value = .ok p) :
    ∃ o, m.tree.upsert .counted (.ofBytes key) value 0 = .ok o ∧ p.after.tree = o.after ∧
      p.events = o.events := by
  obtain ⟨o, recorded, rest⟩ := Checked.exists_of_bind_eq_ok done
  refine ⟨o, recorded, ?_⟩
  split at rest
  · cases rest
    exact ⟨rfl, rfl⟩
  · split at rest
    · obtain ⟨size, -, rfl⟩ := Checked.exists_of_map_eq_ok rest
      exact ⟨rfl, rfl⟩
    · cases rest
      exact ⟨rfl, rfl⟩

theorem exists_of_remove {p : Outcome (Map V) (Option V)} (done : m.remove key = .ok p) :
    ∃ o, m.tree.delete (.ofBytes key) = .ok o ∧ p.after.tree = o.after ∧
      p.events = o.events := by
  obtain ⟨o, deleted, rest⟩ := Checked.exists_of_bind_eq_ok done
  refine ⟨o, deleted, ?_⟩
  split at rest
  · cases rest
    exact ⟨rfl, rfl⟩
  · obtain ⟨size, -, rfl⟩ := Checked.exists_of_map_eq_ok rest
    exact ⟨rfl, rfl⟩

theorem Represents.books_of_step (h : Represents m d) (s : Step V)
    {p : Outcome (Map V) (Reply V)} (done : m.step s = .ok p) :
    s.Tells p.events ∧ (s ≠ .clear → m.tree.Books p.after.tree p.events) := by
  obtain ⟨sound, filled, -⟩ := h.holds
  cases s with
  | insert key value =>
    obtain ⟨q, inserted, rfl⟩ := Checked.exists_of_map_eq_ok done
    obtain ⟨o, upserted, after, events⟩ := exists_of_insert inserted
    obtain ⟨tells, books⟩ := Tree.books_of_upsert sound upserted
    simp only [Outcome.mapAnswer, after, events]
    exact ⟨tells, fun _ => books⟩
  | record key value =>
    obtain ⟨q, recorded, rfl⟩ := Checked.exists_of_map_eq_ok done
    obtain ⟨o, upserted, after, events⟩ := exists_of_record recorded
    obtain ⟨tells, books⟩ := Tree.books_of_upsert sound upserted
    simp only [Outcome.mapAnswer, after, events]
    exact ⟨tells, fun _ => books⟩
  | remove key =>
    obtain ⟨q, removed, rfl⟩ := Checked.exists_of_map_eq_ok done
    obtain ⟨o, deleted, after, events⟩ := exists_of_remove removed
    obtain ⟨tells, books⟩ := Tree.books_of_delete sound filled deleted
    simp only [Outcome.mapAnswer, after, events]
    exact ⟨tells, fun _ => books⟩
  | set key value =>
    obtain ⟨q, put, rfl⟩ := Checked.exists_of_map_eq_ok done
    obtain ⟨o, assigned, rfl⟩ := Checked.exists_of_map_eq_ok put
    obtain ⟨tells, books⟩ := Tree.books_of_assign sound assigned
    exact ⟨tells, fun _ => books⟩
  | clear =>
    cases done
    -- nothing tells of the nodes that clearing drops
    exact ⟨rfl, fun kept => absurd rfl kept⟩
  | get | contains | hits =>
    obtain ⟨answer, -, rfl⟩ := Checked.exists_of_map_eq_ok done
    exact ⟨rfl, fun _ => .refl _⟩
  | len | isEmpty =>
    cases done
    exact ⟨rfl, fun _ => .refl _⟩

theorem Represents.represents_of_step (h : Represents m d) {s : Step V}
    {p : Outcome (Map V) (Reply V)} (done : m.step s = .ok p) :
    Represents p.after (d.step s).2 := by
  rcases simulates_step h s with ⟨-, p', done', represents, -⟩ | ⟨-, faulted⟩
  · rw [done] at done'
    cases done'
    exact represents
  · rw [done] at faulted
    contradiction

theorem Represents.books_of_run (h : Represents m d) {steps : List (Step V)}
    {o : Outcome (Map V) (List (Reply V))} (kept : ∀ s ∈ steps, s ≠ .clear)
    (reached : run m steps = .ok o) :
    (∀ e ∈ o.events, e.Adjacent) ∧ m.tree.Books o.after.tree o.events := by
  induction steps generalizing m d o with
  | nil =>
    cases reached
    exact ⟨fun e he => absurd he List.not_mem_nil, .refl _⟩
  | cons s steps ih =>
    obtain ⟨here, later⟩ := List.forall_mem_cons.1 kept
    obtain ⟨p, stepped, rest⟩ := Checked.exists_of_bind_eq_ok reached
    obtain ⟨q, ran, rfl⟩ := Checked.exists_of_map_eq_ok rest
    obtain ⟨tells, books⟩ := h.books_of_step s stepped
    obtain ⟨adjacent, books'⟩ := ih (h.represents_of_step stepped) later ran
    exact ⟨List.forall_mem_append.2 ⟨tells.adjacent, adjacent⟩, (books here).trans books'⟩

theorem eq_empty_of_run_clear (steps : List (Step V)) {o : Outcome (Map V) (List (Reply V))}
    (reached : run m (steps ++ [.clear]) = .ok o) : o.after = empty := by
  obtain ⟨a, b, -, cleared, same⟩ := Outcome.exists_of_runAll_append reached
  cases cleared
  exact same

theorem eq_empty_of_fresh {before : List (Step V)} {start : Outcome (Map V) (List (Reply V))}
    (fresh : before = [] ∨ ∃ earlier, before = earlier ++ [.clear])
    (started : run empty before = .ok start) : start.after = empty := by
  rcases fresh with rfl | ⟨earlier, rfl⟩
  · cases started
    rfl
  · exact eq_empty_of_run_clear earlier started

/-- At every point of every run, the events since the map was last empty, at the start or after it
was cleared, are a ledger of the inner nodes that the census finds; and whichever step comes next
tells at most one event, of its kind and with the numbers that go with it. -/
theorem ledger_of_run (before steps : List (Step V))
    (start o : Outcome (Map V) (List (Reply V)))
    (fresh : before = [] ∨ ∃ earlier, before = earlier ++ [.clear])
    (started : run empty before = .ok start) (kept : ∀ s ∈ steps, s ≠ .clear)
    (reached : run start.after steps = .ok o) :
    Ledger o.events (Census.ofTree o.after.tree) ∧
      ∀ s p, o.after.step s = .ok p → s.Tells p.events := by
  rw [eq_empty_of_fresh fresh started] at reached
  obtain ⟨adjacent, books⟩ := represents_empty.books_of_run kept reached
  refine ⟨ledger_of_gains adjacent fun l => ?_, fun s p done => ?_⟩
  · rw [Tree.nodes_ofTree, books l]
    exact Int.zero_add _
  · exact ((represents_of_run reached).books_of_step s done).1

theorem ledger_of_run_grow_shrink :
    ∃ start o, run (empty : Map Nat) [.insert [1] 1, .insert [2] 2, .clear] = .ok start ∧
      run start.after [.insert [7, 1] 10, .insert [7, 2] 20, .insert [7, 3] 30, .insert [7, 4] 40,
        .record [7, 5] 50, .remove [7, 5], .set [7, 1] 11, .remove [7, 4], .remove [7, 3],
        .remove [7, 2], .insert [8] 80] = .ok o ∧
      o.events = [.split 1 [7, 1], .promoted .keyed4 .keyed16 4, .shrunk .keyed16 .keyed4 4,
        .recompressed [7, 1], .split 0 [7, 1]] ∧
      Ledger o.events (Census.ofTree o.after.tree) ∧
      ∀ s p, o.after.step s = .ok p → s.Tells p.events := by
  obtain ⟨start, started⟩ := Checked.exists_of_isOk
    (x := run (empty : Map Nat) [.insert [1] 1, .insert [2] 2, .clear]) (by decide +kernel)
  have bare : start.after = empty :=
    eq_empty_of_run_clear [.insert [1] 1, .insert [2] 2] started
  have told : (run (empty : Map Nat) [.insert [7, 1] 10, .insert [7, 2] 20, .insert [7, 3] 30,
      .insert [7, 4] 40, .record [7, 5] 50, .remove [7, 5], .set [7, 1] 11, .remove [7, 4],
      .remove [7, 3], .remove [7, 2], .insert [8] 80]).map Outcome.events =
      .ok [.split 1 [7, 1], .promoted .keyed4 .keyed16 4, .shrunk .keyed16 .keyed4 4,
        .recompressed [7, 1], .split 0 [7, 1]] := by decide +kernel
  obtain ⟨o, reached, events⟩ := Checked.exists_of_map_eq_ok told
  rw [← bare] at reached
  exact ⟨start, o, started, reached, events, ledger_of_run _ _ start o
    (.inr ⟨[.insert [1] 1, .insert [2] 2], rfl⟩) started (by simp) reached⟩

end Map

end AdaptiveRadix
