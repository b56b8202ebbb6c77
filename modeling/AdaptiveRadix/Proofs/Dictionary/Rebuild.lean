import AdaptiveRadix.Proofs.Tree

/-!
Dictionaries filled step by step. Keys of which none is a beginning of another can be inserted in
any order, with the same dictionary at the end, and recording stored keys again only raises their
hits.
-/

namespace AdaptiveRadix

open Outcome

variable {V : Type}

namespace Tree

def inserts (items : List (Bytes × V)) : List (Step V) :=
  items.map fun x => .insert (.ofBytes x.1) x.2 0

def records (items : List (Bytes × V)) : List (Step V) :=
  items.map fun x => .record (.ofBytes x.1) x.2 0

end Tree

namespace Dictionary

open AdaptiveRadix.Tree

variable {d : Dictionary V} {items : List (Bytes × V)} {key : Bytes} {value : V}

/-- Neither key is a beginning of the other. -/
def Apart (a b : Bytes) : Prop :=
  a ≠ b ∧ ¬ Nested a b

theorem Apart.symm {a b : Bytes} (h : Apart a b) : Apart b a :=
  ⟨Ne.symm h.1, fun nested => h.2 ⟨Ne.symm nested.1, nested.2.symm⟩⟩

theorem treeStep_insert (apart : ∀ f ∈ d, Apart key f.key) :
    treeStep d (.insert (.ofBytes key) value 0) = (.done, d.add ⟨key, value, 1⟩) := by
  have absent : d.entry? key = none := entry?_eq_none_iff.2 fun f hf => Ne.symm (apart f hf).1
  have free : ¬ ∃ f ∈ d, Nested key f.key := by
    rintro ⟨f, hf, nested⟩
    exact (apart f hf).2 nested
  have stored : d.upsert .refused key value = (.ok 1, d.add ⟨key, value, 1⟩) := by
    rw [upsert, absent]
    exact if_neg free
  simp only [treeStep, Cursor.advance_zero, Cursor.rest_ofBytes, stored]
  rfl

theorem allFit_inserts (d : Dictionary V) (items : List (Bytes × V)) :
    AllFit treeStep TreeStepFits d (inserts items) := by
  induction items generalizing d with
  | nil => trivial
  | cons x items ih => exact ⟨trivial, ih _⟩

theorem replay_inserts (ordered : Ordered d) (new : ∀ x ∈ items, ∀ f ∈ d, Apart x.1 f.key)
    (apart : items.Pairwise fun x y => Apart x.1 y.1) :
    (replay treeStep d (inserts items)).1 = items.map (fun _ => .done) ∧
      Ordered (replay treeStep d (inserts items)).2 ∧
      ∀ f, f ∈ (replay treeStep d (inserts items)).2 ↔
        f ∈ d ∨ ∃ x ∈ items, f = ⟨x.1, x.2, 1⟩ := by
  induction items generalizing d with
  | nil => exact ⟨rfl, ordered, fun f => (or_iff_left (by simp)).symm⟩
  | cons x items ih =>
    obtain ⟨here, later⟩ := List.forall_mem_cons.1 new
    obtain ⟨first, others⟩ := List.pairwise_cons.1 apart
    have stored : treeStep d (.insert (.ofBytes x.1) x.2 0) = (.done, d.add ⟨x.1, x.2, 1⟩) :=
      treeStep_insert here
    -- once it is stored, the first key must part from those that follow
    have new' : ∀ y ∈ items, ∀ f ∈ d.add ⟨x.1, x.2, 1⟩, Apart y.1 f.key := by
      intro y hy f hf
      rcases mem_add.1 hf with rfl | hf
      · exact (first y hy).symm
      · exact later y hy f hf
    obtain ⟨answers, ordered', members⟩ :=
      ih (ordered.add fun f hf => Ne.symm (here f hf).1) new' others
    rw [inserts, List.map_cons, replay, stored]
    refine ⟨congrArg _ answers, ordered', fun f => (members f).trans ?_⟩
    rw [mem_add, or_assoc, or_left_comm]
    simp

def counted (d : Dictionary V) (key : Bytes) : Dictionary V :=
  d.update key fun e => { e with hits := e.hits + 1 }

def repeats (items : List (Bytes × V)) (key : Bytes) : Nat :=
  items.countP fun x => x.1 = key

/-- Every entry with as many more hits as it is repeated. -/
def raised (d : Dictionary V) (items : List (Bytes × V)) : Dictionary V :=
  d.map fun e => { e with hits := e.hits + UInt64.ofNat (repeats items e.key) }

def HasRoom (d : Dictionary V) (items : List (Bytes × V)) : Prop :=
  ∀ e ∈ d, e.hits.toNat + repeats items e.key < UInt64.size

theorem repeats_cons_self (x : Bytes × V) (items : List (Bytes × V)) :
    repeats (x :: items) x.1 = repeats items x.1 + 1 := by
  simp [repeats]

theorem repeats_cons_ne {x : Bytes × V} (different : key ≠ x.1) (items : List (Bytes × V)) :
    repeats (x :: items) key = repeats items key := by
  simp [repeats, Ne.symm different]

theorem raised_nil (d : Dictionary V) : d.raised [] = d := by
  simp [raised, repeats]

theorem raised_counted (d : Dictionary V) (x : Bytes × V) (items : List (Bytes × V)) :
    (d.counted x.1).raised items = d.raised (x :: items) := by
  rw [raised, raised, counted, update, List.map_map]
  refine List.map_congr_left fun e _ => ?_
  by_cases same : e.key = x.1
  · simp [same, repeats_cons_self, UInt64.ofNat_add, UInt64.add_assoc, UInt64.add_comm]
  · simp [same, repeats_cons_ne same]

theorem exists_key_counted {k : Bytes} (h : ∃ e ∈ d, e.key = k) :
    ∃ e ∈ d.counted key, e.key = k := by
  obtain ⟨e, he, same⟩ := h
  refine ⟨_, List.mem_map.2 ⟨e, he, rfl⟩, ?_⟩
  split <;> exact same

theorem HasRoom.hitFits {x : Bytes × V} (room : d.HasRoom (x :: items)) : d.HitFits x.1 := by
  intro e he same
  have := room e he
  rw [same, repeats_cons_self] at this
  omega

theorem HasRoom.counted {x : Bytes × V} (room : d.HasRoom (x :: items)) :
    (d.counted x.1).HasRoom items := by
  intro f hf
  obtain ⟨e, he, rfl⟩ := List.mem_map.1 hf
  have here := room e he
  by_cases same : e.key = x.1
  · have more : (e.hits + 1).toNat = e.hits.toNat + 1 :=
      Checked.toNat_add (room.hitFits e he same)
    rw [same, repeats_cons_self] at here
    rw [if_pos same, more, same]
    omega
  · rw [repeats_cons_ne same] at here
    rwa [if_neg same]

theorem treeStep_record (stored : ∃ e ∈ d, e.key = key) (value : V) :
    ∃ hits, treeStep d (.record (.ofBytes key) value 0) = (.hits (some hits), d.counted key) := by
  cases found : d.entry? key with
  | none =>
    obtain ⟨e, he, same⟩ := stored
    exact absurd same (entry?_eq_none_iff.1 found e he)
  | some e =>
    refine ⟨e.hits + 1, ?_⟩
    simp only [treeStep, Cursor.advance_zero, Cursor.rest_ofBytes, upsert, found]
    rfl

theorem replay_records (stored : ∀ x ∈ items, ∃ e ∈ d, e.key = x.1) (room : d.HasRoom items) :
    AllFit treeStep TreeStepFits d (records items) ∧
      (∀ r ∈ (replay treeStep d (records items)).1, ∃ hits, r = .hits (some hits)) ∧
      (replay treeStep d (records items)).2 = d.raised items := by
  induction items generalizing d with
  | nil => exact ⟨trivial, fun r hr => absurd hr List.not_mem_nil, (raised_nil d).symm⟩
  | cons x items ih =>
    obtain ⟨here, later⟩ := List.forall_mem_cons.1 stored
    obtain ⟨hits, step⟩ := treeStep_record here x.2
    obtain ⟨allowed, answers, after⟩ :=
      ih (fun y hy => exists_key_counted (later y hy)) room.counted
    rw [records, List.map_cons, replay, AllFit, step]
    refine ⟨⟨fun c advanced => ?_, allowed⟩, List.forall_mem_cons.2 ⟨⟨hits, rfl⟩, answers⟩, ?_⟩
    · rw [Cursor.advance_zero] at advanced
      cases advanced
      exact room.hitFits
    · exact after.trans (raised_counted d x items)

end Dictionary

end AdaptiveRadix
