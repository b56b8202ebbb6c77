import AdaptiveRadix.Proofs.Map.Ledger
import AdaptiveRadix.Proofs.Tree.Statistics

/-!
The sum of all hits as a balance. A step that stores a key or counts it once more adds one hit, and
a removal takes away the hits of its key; so a census finds as many hits as were stored since the
map was last empty, less those that were lost with the keys removed.
-/

namespace AdaptiveRadix

open Dictionary Edges

variable {V : Type}

namespace Map

def Step.stores : Step V → Reply V → Bool
  | .insert .., .done => true
  | .record .., .hits _ => true
  | _, _ => false

theorem Step.stores_insert (key : Bytes) (value : V) (answer : Except KeyError UInt64) :
    (insert key value).stores (.ofExcept (fun _ => .done) answer) = answer.isOk := by
  cases answer <;> rfl

theorem Step.stores_record (key : Bytes) (value : V) (answer : Except KeyError UInt64) :
    (record key value).stores (.ofExcept (.hits <| some ·) answer) = answer.isOk := by
  cases answer <;> rfl

def stored (steps : List (Step V)) (answers : List (Reply V)) : Nat :=
  (steps.zip answers).countP fun (s, answer) => s.stores answer

/-- The hits that a step takes away with the key that it removes. -/
def lostHits (m : Map V) : Step V → Checked Nat
  | .remove key => return (← m.hits? key).elim 0 (·.toNat)
  | _ => return 0

def runLostHits (m : Map V) : List (Step V) → Checked Nat
  | [] => return 0
  | s :: rest => do
    let lost ← m.lostHits s
    let o ← m.step s
    return lost + (← o.after.runLostHits rest)

end Map

namespace Dictionary

variable {d d' : Dictionary V} {e : Entry V} {key : Bytes} {value : V}

def lostHits (d : Dictionary V) : Map.Step V → Nat
  | .remove key => (d.entry? key).elim 0 (·.hits.toNat)
  | _ => 0

theorem totalHits_cons (e : Entry V) (d : Dictionary V) :
    totalHits (e :: d) = e.hits.toNat + totalHits d := rfl

theorem totalHits_perm (h : d.Perm d') : totalHits d = totalHits d' :=
  foldr_add_perm (fun e : Entry V => e.hits.toNat) h

theorem totalHits_update (h : Ordered d) (found : d.entry? key = some e)
    (change : Entry V → Entry V) :
    totalHits (d.update key change) + e.hits.toNat = totalHits d + (change e).hits.toNat := by
  rw [totalHits_perm (h.perm_update found change), totalHits_perm (h.perm_filter found),
    totalHits_cons, totalHits_cons]
  omega

theorem totalHits_upsert (h : Ordered d) (repetition : Repetition) (key : Bytes) (value : V)
    (fits : repetition = .counted → d.HitFits key) :
    totalHits (d.upsert repetition key value).2 =
      totalHits d + if (d.upsert repetition key value).1.isOk then 1 else 0 := by
  cases found : d.entry? key with
  | some e =>
    cases repetition with
    | refused =>
      simp only [upsert, found]
      rfl
    | counted =>
      obtain ⟨mem, same⟩ := h.entry?_eq_some_iff.1 found
      have more : (e.hits + 1).toNat = e.hits.toNat + 1 :=
        Checked.toNat_add (fits rfl e mem same)
      have changed := totalHits_update h found fun e => { e with hits := e.hits + 1 }
      simp only [more] at changed
      simp only [upsert, found]
      change totalHits (d.update key fun e => { e with hits := e.hits + 1 }) = totalHits d + 1
      omega
  | none =>
    by_cases nested : ∃ f ∈ d, Nested key f.key
    · simp only [upsert, found, if_pos nested]
      rfl
    · simp only [upsert, found, if_neg nested]
      rw [totalHits_perm (perm_add d _), totalHits_cons]
      exact Nat.add_comm ..

theorem totalHits_step {s : Map.Step V} (h : Ordered d) (fits : d.StepFits s)
    (kept : s ≠ .clear) : totalHits (d.step s).2 + d.lostHits s =
      totalHits d + if s.stores (d.step s).1 then 1 else 0 := by
  cases s with
  | insert key value =>
    have upserted := totalHits_upsert h .refused key value (fun counted => by cases counted)
    rw [← Map.Step.stores_insert key value] at upserted
    exact upserted
  | record key value =>
    have upserted := totalHits_upsert h .counted key value fun _ => fits.2
    rw [← Map.Step.stores_record key value] at upserted
    exact upserted
  | set key value =>
    refine totalHits_map (fun e => ?_) d
    split <;> rfl
  | remove key =>
    simp only [step, lostHits]
    cases found : d.entry? key with
    | none =>
      rw [List.filter_eq_self.2 fun f hf => by simpa using entry?_eq_none_iff.1 found f hf]
      rfl
    | some e =>
      rw [totalHits_perm (h.perm_filter found), totalHits_cons]
      exact Nat.add_comm ..
  | clear => exact absurd rfl kept
  | _ => rfl

end Dictionary

namespace Map

variable {m : Map V} {d : Dictionary V}

theorem Represents.lostHits_eq (h : Represents m d) (s : Step V) :
    m.lostHits s = .ok (d.lostHits s) := by
  cases s with
  | remove key =>
    simp only [lostHits, h.hits?_eq, Dictionary.lostHits]
    cases d.entry? key <;> rfl
  | _ => rfl

theorem stored_cons (s : Step V) (steps : List (Step V)) (answer : Reply V)
    (answers : List (Reply V)) : stored (s :: steps) (answer :: answers) =
      stored steps answers + if s.stores answer then 1 else 0 :=
  List.countP_cons

theorem Represents.totalHits_of_run (h : Represents m d) {steps : List (Step V)}
    {o : Outcome (Map V) (List (Reply V))} (kept : ∀ s ∈ steps, s ≠ .clear)
    (reached : run m steps = .ok o) :
    ∃ lost, m.runLostHits steps = .ok lost ∧
      totalHits o.after.tree.entries + lost = totalHits d + stored steps o.answer := by
  induction steps generalizing m d o with
  | nil =>
    cases reached
    exact ⟨0, rfl, congrArg totalHits h.holds.entries⟩
  | cons s steps ih =>
    obtain ⟨here, later⟩ := List.forall_mem_cons.1 kept
    obtain ⟨p, stepped, rest⟩ := Checked.exists_of_bind_eq_ok reached
    obtain ⟨q, ran, rfl⟩ := Checked.exists_of_map_eq_ok rest
    rcases simulates_step h s with ⟨fits, p', done, represents, answer⟩ | ⟨-, faulted⟩
    · obtain rfl := Except.ok.inj (stepped.symm.trans done)
      obtain ⟨lost, reads, balance⟩ := ih represents later ran
      have step := totalHits_step h.ordered fits here
      refine ⟨d.lostHits s + lost, ?_, ?_⟩
      · rw [runLostHits, h.lostHits_eq, Checked.ok_bind, stepped, Checked.ok_bind, reads]
        rfl
      · rw [stored_cons, answer]
        dsimp only at balance ⊢
        omega
    · rw [stepped] at faulted
      contradiction

/-- A census of a sound tree, however full its nodes are, agrees with the other readers of the tree.
After every run the leaves of a census are the entries that the map counts, and its hits are the
steps that stored a key or counted it once more since the map was last empty, at the start or after
it was cleared, less the hits of the keys removed since then; a census faults only where they do not
fit in a word. -/
theorem statistics_agree :
    (∀ t : Tree V, t.Sound → totalHits t.entries < UInt64.size →
      ∃ c, t.readStats = .ok c ∧ t.Surveyed c) ∧
    ∀ (before steps : List (Step V)) (start o : Outcome (Map V) (List (Reply V))),
      (before = [] ∨ ∃ earlier, before = earlier ++ [.clear]) →
      run empty before = .ok start → (∀ s ∈ steps, s ≠ .clear) →
      run start.after steps = .ok o →
      ∃ lost, start.after.runLostHits steps = .ok lost ∧
        ((∃ c, o.after.tree.readStats = .ok c ∧ c.leaves = o.after.size ∧
            c.hits.toNat + lost = stored steps o.answer) ∨
          UInt64.size + lost ≤ stored steps o.answer ∧
            o.after.tree.readStats = .error .counterOverflow) := by
  refine ⟨fun t sound fits => Tree.exists_surveyed sound fits,
    fun before steps start o fresh started kept reached => ?_⟩
  rw [eq_empty_of_fresh fresh started] at reached ⊢
  obtain ⟨lost, reads, balance⟩ := represents_empty.totalHits_of_run kept reached
  have total : totalHits o.after.tree.entries + lost = stored steps o.answer :=
    balance.trans (Nat.zero_add _)
  have represents := represents_of_run reached
  refine ⟨lost, reads, ?_⟩
  rcases Tree.readStats_cases represents.holds.sound with ⟨fits, taken⟩ | ⟨overflow, faulted⟩
  · refine .inl ⟨_, taken, ?_, ?_⟩
    · rw [Tree.leaves_ofTree, represents.holds.entries, represents.size]
    · rw [Tree.hits_ofTree fits, total]
  · exact .inr ⟨by omega, faulted⟩

def countsAndRemovals : List (Step Nat) :=
  [.insert [7, 1] 10, .insert [7, 1] 11, .record [7, 1] 12, .record [7, 2] 20, .remove [7, 1],
    .remove [7, 1], .record [7, 2] 21]

theorem statistics_agree_underfull :
    (∃ (s : Storage (Node Nat)) (c : Census), s.layout = .direct256 ∧
      s.children = [(1, .inner [] (.empty .indexed48)), (2, .leaf [9] 20 4)] ∧
      Tree.readStats ⟨some (.inner [7] s)⟩ = .ok c ∧ Tree.Surveyed ⟨some (.inner [7] s)⟩ c) ∧
    ∃ start o c, run (empty : Map Nat) [.insert [1] 1, .clear] = .ok start ∧
      run start.after countsAndRemovals = .ok o ∧
      start.after.runLostHits countsAndRemovals = .ok 2 ∧
      stored countsAndRemovals o.answer = 4 ∧
      o.after.tree.readStats = .ok c ∧ c.leaves = 1 ∧ c.hits.toNat = 2 := by
  obtain ⟨trees, runs⟩ := statistics_agree (V := Nat)
  refine ⟨?_, ?_⟩
  · have ascending : Ascending [(1, Node.inner [] (.empty .indexed48)), (2, .leaf [9] 20 4)] := by
      simp [Ascending]
    obtain ⟨s, sound, layout, children⟩ :=
      Storage.exists_children_eq .direct256 ascending (by simp [Layout.width])
    have whole : Tree.Sound ⟨some (.inner [7] s)⟩ := by
      refine Tree.sound_some.2 (Node.sound_inner.2 ⟨sound, ?_⟩)
      simp [children, Node.sound_leaf, Node.sound_inner, Storage.sound_empty,
        Storage.children_empty]
    have hits : totalHits (Tree.entries ⟨some (.inner [7] s)⟩) = 4 := by
      rw [Tree.entries_some]
      simp [Node.entries_inner, Node.entries_leaf, children, Storage.children_empty, totalHits]
    obtain ⟨c, taken, surveyed⟩ := trees _ whole (hits ▸ by decide)
    exact ⟨s, c, layout, children, taken, surveyed⟩
  · obtain ⟨start, started⟩ := Checked.exists_of_isOk
      (x := run (empty : Map Nat) [.insert [1] 1, .clear]) (by decide +kernel)
    have bare : start.after = empty := eq_empty_of_run_clear [.insert [1] 1] started
    have told : (run (empty : Map Nat) countsAndRemovals).map
        (fun o => (o.after.size, stored countsAndRemovals o.answer)) = .ok (1, 4) := by decide +kernel
    have lost : (empty : Map Nat).runLostHits countsAndRemovals = .ok 2 := by decide +kernel
    obtain ⟨o, reached, both⟩ := Checked.exists_of_map_eq_ok told
    obtain ⟨size, number⟩ := Prod.mk.inj both
    rw [← bare] at reached lost
    obtain ⟨k, reads, outcome⟩ := runs [.insert [1] 1, .clear] countsAndRemovals start o
      (.inr ⟨[.insert [1] 1], rfl⟩) started (by simp [countsAndRemovals]) reached
    obtain rfl : 2 = k := Except.ok.inj (lost.symm.trans reads)
    rcases outcome with ⟨c, taken, leaves, hits⟩ | ⟨overflow, -⟩
    · exact ⟨start, o, c, started, reached, lost, number, taken, leaves.trans size, by omega⟩
    · rw [number] at overflow
      exact absurd overflow (by decide)

end Map

end AdaptiveRadix
