import AdaptiveRadix.Proofs.Tree
import AdaptiveRadix.Tree.Reading

/-!
Reading a sound tree meets no fault but a sum of hits that is too large: every place read lies in
its row, so the readers answer what the folds answer that pass over the places outside.
-/

namespace AdaptiveRadix

open Dictionary Edges

variable {V α β : Type}

namespace Checked

theorem mapM_eq_ok {f : α → Checked β} {g : α → β} {l : List α} (h : ∀ a ∈ l, f a = .ok (g a)) :
    l.mapM f = .ok (l.map g) := by
  induction l with
  | nil => rfl
  | cons a l ih =>
    obtain ⟨first, rest⟩ := List.forall_mem_cons.1 h
    rw [List.mapM_cons, first, ok_bind, ih rest]
    rfl

theorem exists_collect {find? : UInt8 → Checked (Option α)}
    (found : ∀ b, ∃ child?, find? b = .ok child?) (bytes : Bytes) :
    ∃ cs, collect find? bytes = .ok cs := by
  induction bytes with
  | nil => exact ⟨[], rfl⟩
  | cons b bytes ih =>
    obtain ⟨child?, here⟩ := found b
    obtain ⟨cs, rest⟩ := ih
    rw [collect, here]
    cases child? with
    | none => exact ⟨cs, rest⟩
    | some child => exact ⟨(b, child) :: cs, by rw [ok_bind, rest]; rfl⟩

end Checked

theorem Storage.read_eq {s : Storage α} (h : s.Sound) : s.read = .ok s.children := by
  have whole : ∃ cs, s.read = .ok cs := by
    cases s with
    | keyed4 s => exact ⟨_, if_pos (Keyed.Sound.count_le h)⟩
    | keyed16 s => exact ⟨_, if_pos (Keyed.Sound.count_le h)⟩
    | indexed48 s => exact Checked.exists_collect (fun b => ⟨_, Indexed.find?_eq h b⟩) Bytes.all
    | direct256 s =>
      exact Checked.exists_collect (fun b => ⟨_, Direct.find?_eq h.size_slots b⟩) Bytes.all
  obtain ⟨cs, read⟩ := whole
  rw [read, children_of_read read]

theorem Node.read_eq {n : Node V} (h : n.Sound) (onLeaf : Bytes → V → UInt64 → β)
    (onInner : Bytes → Storage (Node V) → List (UInt8 × β) → β) :
    n.read onLeaf onInner = .ok (n.fold onLeaf onInner) := by
  induction n using induct with
  | leaf suffix value hits =>
    rw [read, fold_leaf]
    rfl
  | inner stem s ih =>
    obtain ⟨sound, below⟩ := sound_inner.1 h
    rw [read, fold_inner]
    split
    · next fault =>
      rw [Storage.read_eq sound] at fault
      cases fault
    · next cs done =>
      rw [Storage.read_eq sound] at done
      cases done
      have results := Checked.mapM_eq_ok (l := s.children.attach)
        (f := fun c => return (c.1.1, ← read onLeaf onInner c.1.2))
        (g := fun c => (c.1.1, fold onLeaf onInner c.1.2)) fun c _ => by
          rw [ih c.1 c.2 (below c.1 c.2)]
          rfl
      rw [results]
      exact congrArg (fun l => Except.ok (onInner stem s l))
        (List.attach_map_val (f := fun c : UInt8 × Node V => (c.1, fold onLeaf onInner c.2)))

namespace Walk

structure Sound (w : Walk V) : Prop where
  root : ∀ n ∈ w.root, n.Sound
  left : ∀ f ∈ w.stack, ∀ c ∈ f.left, c.2.Sound

theorem sound_none {stack : List (Frame V)} {key : Bytes} :
    Sound ⟨none, stack, key⟩ ↔ ∀ f ∈ stack, ∀ c ∈ f.left, c.2.Sound :=
  ⟨Sound.left, fun h => ⟨by simp, h⟩⟩

theorem Sound.close {f : Frame V} {stack : List (Frame V)} {key : Bytes}
    (h : Sound ⟨none, f :: stack, key⟩) : Sound ⟨none, stack, key⟩ :=
  sound_none.2 (List.forall_mem_cons.1 h.left).2

theorem Sound.take {depth : Nat} {c : UInt8 × Node V} {others : List (UInt8 × Node V)}
    {stack : List (Frame V)} {key : Bytes} (h : Sound ⟨none, ⟨depth, c :: others⟩ :: stack, key⟩)
    (key' : Bytes) : c.2.Sound ∧ Sound ⟨none, ⟨depth, others⟩ :: stack, key'⟩ := by
  obtain ⟨top, rest⟩ := List.forall_mem_cons.1 h.left
  obtain ⟨first, others⟩ := List.forall_mem_cons.1 top
  exact ⟨first, sound_none.2 (List.forall_mem_cons.2 ⟨others, rest⟩)⟩

theorem Sound.push {stem : Bytes} {s : Storage (Node V)} {stack : List (Frame V)}
    (h : ∀ f ∈ stack, ∀ c ∈ f.left, c.2.Sound) (hs : (Node.inner stem s).Sound) (depth : Nat)
    (key : Bytes) : Sound ⟨none, ⟨depth, s.children⟩ :: stack, key⟩ :=
  sound_none.2 (List.forall_mem_cons.2 ⟨(Node.sound_inner.1 hs).2, h⟩)

end Walk

namespace Dictionary

def totalHits (d : Dictionary V) : Nat :=
  d.foldr (fun e sum => e.hits.toNat + sum) 0

theorem totalHits_append (d d' : Dictionary V) :
    totalHits (d ++ d') = totalHits d + totalHits d' :=
  foldr_add_append (fun e : Entry V => e.hits.toNat) d d'

theorem totalHits_map {f : Entry V → Entry V} (keeps : ∀ e, (f e).hits = e.hits)
    (d : Dictionary V) : totalHits (d.map f) = totalHits d := by
  rw [totalHits, List.foldr_map]
  simp only [keeps]
  rfl

end Dictionary

theorem Node.totalHits_entries_inner (stem : Bytes) (s : Storage (Node V)) :
    totalHits (inner stem s).entries = total (fun c => totalHits c.entries) s.children := by
  rw [entries_inner]
  induction s.children with
  | nil => rfl
  | cons c cs ih =>
    rw [List.flatMap_cons, totalHits_append, ih, total_cons]
    exact congrArg (· + _) (totalHits_map (f := Entry.under stem c.1) (fun _ => rfl) _)

namespace Census

/-- Counting adds what `add` adds, among it so many hits, and faults only if they do not fit. -/
structure Counts (count : Census → Checked Census) (add : Census → Census) (hits : Nat) : Prop where
  fits : ∀ c, c.hits.toNat + hits < UInt64.size →
    count c = .ok (add c) ∧ (add c).hits.toNat = c.hits.toNat + hits
  full : ∀ c, ¬ c.hits.toNat + hits < UInt64.size → count c = .error .counterOverflow

theorem counts_leaf (hits : UInt64) (level : Nat) :
    Counts (countLeaf hits level) (addLeaf hits level) hits.toNat where
  fits _ fits := ⟨if_pos fits, Checked.toNat_add fits⟩
  full _ full := if_neg full

theorem Counts.comp {count count' : Census → Checked Census} {add add' : Census → Census}
    {hits hits' : Nat} (first : Counts count add hits) (second : Counts count' add' hits') :
    Counts (fun c => count c >>= count') (add' ∘ add) (hits + hits') where
  fits c fits := by
    obtain ⟨counted, sum⟩ := first.fits c (by omega)
    obtain ⟨counted', sum'⟩ := second.fits (add c) (by omega)
    refine ⟨?_, ?_⟩
    · rw [counted, Checked.ok_bind, counted']
      rfl
    · rw [Function.comp, sum', sum, Nat.add_assoc]
  full c full := by
    by_cases here : c.hits.toNat + hits < UInt64.size
    · obtain ⟨counted, sum⟩ := first.fits c here
      rw [counted, Checked.ok_bind, second.full (add c) (by omega)]
    · rw [first.full c here]
      rfl

theorem counts_below {ι : Type} {count : ι → Census → Checked Census}
    {add : ι → Census → Census} {hits : ι → Nat} {below : List ι}
    (each : ∀ i ∈ below, Counts (count i) (add i) (hits i)) :
    Counts (fun c => below.foldlM (fun c i => count i c) c)
      (fun c => below.foldl (fun c i => add i c) c)
      (below.foldr (fun i sum => hits i + sum) 0) := by
  induction below with
  | nil => exact ⟨fun _ _ => ⟨rfl, rfl⟩, fun c full => absurd c.hits.toNat_lt full⟩
  | cons i below ih =>
    obtain ⟨first, rest⟩ := List.forall_mem_cons.1 each
    exact first.comp (ih rest)

theorem counts_node (n : Node V) (level : Nat) :
    Counts (n.fold (fun _ _ hits => countLeaf hits) (fun _ s => countInner s) level)
      (addNode n level) (totalHits n.entries) := by
  induction n using Node.induct generalizing level with
  | leaf suffix value hits =>
    rw [Node.fold_leaf, addNode, Node.fold_leaf, Node.entries_leaf]
    exact counts_leaf hits level
  | inner stem s ih =>
    have below := counts_below fun c hc => ih c hc (level + 1)
    rw [Node.totalHits_entries_inner]
    refine ⟨fun c fits => ?_, fun c full => ?_⟩
    · -- Counting the inner node itself leaves the hits as they are.
      obtain ⟨counted, sum⟩ := below.fits (c.addInner s.layout s.count level) fits
      rw [Node.fold_inner, addNode, Node.fold_inner, countInner, List.foldlM_map, List.foldl_map]
      exact ⟨counted, sum⟩
    · rw [Node.fold_inner, countInner, List.foldlM_map]
      exact below.full (c.addInner s.layout s.count level) full

end Census

namespace Tree

variable {t : Tree V}

theorem read_eq (h : t.Sound) (onLeaf : Bytes → V → UInt64 → β)
    (onInner : Bytes → Storage (Node V) → List (UInt8 × β) → β) :
    t.read onLeaf onInner = .ok (t.root.map (Node.fold onLeaf onInner)) := by
  obtain ⟨_ | root⟩ := t
  · rfl
  · simp only [read, Node.read_eq (sound_some.1 h)]
    rfl

theorem readHeight_eq (h : t.Sound) : t.readHeight = .ok t.height := by
  rw [readHeight, read_eq h, height]
  cases t.root <;> rfl

theorem readStats_cases (h : t.Sound) :
    (totalHits t.entries < UInt64.size ∧ t.readStats = .ok (Census.ofTree t)) ∨
      ¬ totalHits t.entries < UInt64.size ∧ t.readStats = .error .counterOverflow := by
  obtain ⟨_ | root⟩ := t
  · exact .inl ⟨show 0 < UInt64.size by decide, rfl⟩
  · have counts := Census.counts_node root 1
    have reads : (⟨some root⟩ : Tree V).readStats =
        root.fold (fun _ _ hits => Census.countLeaf hits) (fun _ s => Census.countInner s) 1
          Census.zero := by
      rw [readStats, read_eq h]
      rfl
    have start : Census.zero.hits.toNat + totalHits root.entries = totalHits root.entries :=
      Nat.zero_add _
    rw [reads, entries_some, ← start]
    by_cases fits : Census.zero.hits.toNat + totalHits root.entries < UInt64.size
    · exact .inl ⟨fits, (counts.fits .zero fits).1⟩
    · exact .inr ⟨fits, counts.full .zero fits⟩

end Tree

end AdaptiveRadix
