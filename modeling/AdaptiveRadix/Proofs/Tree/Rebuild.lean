import AdaptiveRadix.Proofs.Dictionary.Rebuild
import AdaptiveRadix.Proofs.Map.Canonical
import AdaptiveRadix.Proofs.Walk

/-!
Every tree that a check accepts can be built by the operations. Its entries, inserted in any order
and recorded as often as they have hits, give a tree with the same graph: the rules of the check
leave no choice but the places of children in a storage.
-/

namespace AdaptiveRadix

open Dictionary Outcome

namespace Dictionary

variable {V : Type} {d : Dictionary V} {order again : List (Bytes × V)}

/-- The entries when each has been stored, and none recorded again. -/
def fresh (d : Dictionary V) : Dictionary V :=
  d.map fun e => { e with hits := 1 }

theorem ordered_fresh (h : Ordered d) : Ordered (fresh d) :=
  List.pairwise_map.2 h

theorem replay_inserts_perm (ordered : Ordered d)
    (free : ∀ e ∈ d, ∀ f ∈ d, ¬ Nested e.key f.key)
    (perm : order.Perm (d.map fun e => (e.key, e.value))) :
    replay treeStep [] (Tree.inserts order) = (order.map (fun _ => .done), fresh d) := by
  have apart : (d.map fun e => (e.key, e.value)).Pairwise fun x y => Apart x.1 y.1 :=
    List.pairwise_map.2 (ordered.imp_of_mem fun he hf lt => ⟨ne_of_lt lt, free _ he _ hf⟩)
  obtain ⟨answers, ordered', members⟩ := replay_inserts List.Pairwise.nil
    (fun _ _ f hf => absurd hf List.not_mem_nil) ((perm.pairwise_iff Apart.symm).2 apart)
  refine Prod.ext answers (ordered'.ext (ordered_fresh ordered) fun f => ?_)
  rw [members, fresh, List.mem_map, or_iff_right List.not_mem_nil]
  constructor
  · rintro ⟨x, hx, rfl⟩
    obtain ⟨e, he, rfl⟩ := List.mem_map.1 (perm.mem_iff.1 hx)
    exact ⟨e, he, rfl⟩
  · rintro ⟨e, he, rfl⟩
    exact ⟨(e.key, e.value), perm.mem_iff.2 (List.mem_map.2 ⟨e, he, rfl⟩), rfl⟩

theorem toNat_pos {n : UInt64} (h : n ≠ 0) : 0 < n.toNat :=
  Nat.pos_of_ne_zero fun zero => h (UInt64.toNat_inj.1 zero)

section Recorded

variable (recorded : ∀ e ∈ d, e.hits ≠ 0)
  (repeated : ∀ e ∈ d, repeats again e.key = e.hits.toNat - 1)

include recorded repeated

theorem hasRoom_fresh : (fresh d).HasRoom again := by
  intro f hf
  obtain ⟨e, he, rfl⟩ := List.mem_map.1 hf
  have positive := toNat_pos (recorded e he)
  have bound := e.hits.toNat_lt
  change 1 + repeats again e.key < UInt64.size
  rw [repeated e he, Nat.add_sub_cancel' positive]
  exact bound

theorem raised_fresh : (fresh d).raised again = d := by
  rw [raised, fresh, List.map_map]
  refine (List.map_congr_left fun e he => ?_).trans (List.map_id d)
  have positive := toNat_pos (recorded e he)
  have restored : 1 + UInt64.ofNat (repeats again e.key) = e.hits := by
    rw [repeated e he, ← UInt64.ofNat_one, ← UInt64.ofNat_add, Nat.add_sub_cancel' positive,
      UInt64.ofNat_toNat]
  simp only [Function.comp, restored, id]

end Recorded

end Dictionary

namespace Tree

variable {V : Type} {t : Tree V}

/-- A tree that a check accepts, and whose hits are all positive, is what its entries make of an
empty slot, inserted in any order and then each recorded as often as it has further hits: every
step succeeds, and the tree prints the same. -/
theorem rebuild (built : t.Built) (accepted : t.check = .ok ())
    (recorded : ∀ e ∈ t.entries, e.hits ≠ 0) (order again : List (Bytes × V))
    (ordering : order.Perm (Walk.ofTree t).toList)
    (stored : ∀ x ∈ again, ∃ e ∈ t.entries, e.key = x.1)
    (repeated : ∀ e ∈ t.entries, repeats again e.key = e.hits.toNat - 1) :
    ∃ o p, empty.run (inserts order) = .ok o ∧ o.answer = order.map (fun _ => .done) ∧
      o.after.run (records again) = .ok p ∧
      (∀ r ∈ p.answer, ∃ hits, r = .hits (some hits)) ∧ p.after.dump = t.dump ∧
      ∀ value : V → String, p.after.root.map (DebugText.node value) =
        t.root.map (DebugText.node value) := by
  have sound := built.sound_of_check accepted
  have holds : t.Holds (fun l n => l.minimum ≤ n) t.entries :=
    ⟨sound, built.filled_of_check accepted, rfl⟩
  rw [Walk.toList_ofTree] at ordering
  have inserted := replay_inserts_perm (ordered_entries sound)
    (fun e he f hf => not_nested_of_mem sound he hf) ordering
  have bare : (empty : Tree V).Holds (fun l n => l.minimum ≤ n) [] :=
    ⟨sound_empty, filled_empty, rfl⟩
  rcases simulates_run Layout.stable_minimum bare (inserts order) with
    ⟨-, o, done, holds', answers⟩ | ⟨misfit, -⟩
  case inr => exact absurd (allFit_inserts [] order) misfit
  rw [inserted] at holds' answers
  have known : ∀ x ∈ again, ∃ e ∈ fresh t.entries, e.key = x.1 := by
    intro x hx
    obtain ⟨e, he, same⟩ := stored x hx
    exact ⟨_, List.mem_map.2 ⟨e, he, rfl⟩, same⟩
  obtain ⟨fits, counted, raised⟩ := replay_records known (hasRoom_fresh recorded repeated)
  rcases simulates_run Layout.stable_minimum holds' (records again) with
    ⟨-, p, done', holds'', answers'⟩ | ⟨misfit, -⟩
  case inr => exact absurd fits misfit
  rw [raised, raised_fresh recorded repeated] at holds''
  exact ⟨o, p, done, answers, done', answers' ▸ counted, dump_eq holds'' holds,
    map_debugText_root_eq holds'' holds⟩

theorem rebuild_threeKeys :
    ∃ t : Tree Nat, t.entries = [⟨[7, 1], 10, 3⟩, ⟨[7, 2], 20, 1⟩, ⟨[8], 30, 1⟩] ∧
      ∃ o p, empty.run (inserts [([8], 30), ([7, 2], 20), ([7, 1], 10)]) = .ok o ∧
        o.answer = [.done, .done, .done] ∧
        o.after.run (records [([7, 1], 0), ([7, 1], 11)]) = .ok p ∧ p.after.dump = t.dump ∧
        ∀ value : Nat → String, p.after.root.map (DebugText.node value) =
          t.root.map (DebugText.node value) := by
  obtain ⟨q, reached⟩ := Checked.exists_of_isOk (x := Map.run (Map.empty : Map Nat)
    [.insert [7, 1] 10, .record [7, 2] 20, .record [7, 1] 0, .insert [8] 30, .record [7, 1] 11])
    (by decide +kernel)
  have represents := Map.represents_of_run reached
  have entries : q.after.tree.entries = [⟨[7, 1], 10, 3⟩, ⟨[7, 2], 20, 1⟩, ⟨[8], 30, 1⟩] :=
    represents.holds.entries
  have items : (Walk.ofTree q.after.tree).toList = [([7, 1], 10), ([7, 2], 20), ([8], 30)] := by
    rw [Walk.toList_ofTree, entries]
    rfl
  obtain ⟨o, p, inserted, answers, recorded, -, same⟩ := rebuild represents.built
    (check_eq_ok_iff.2 represents.regular) (by rw [entries]; decide)
    [([8], 30), ([7, 2], 20), ([7, 1], 10)] [([7, 1], 0), ([7, 1], 11)]
    (by rw [items]; exact List.reverse_perm [([7, 1], 10), ([7, 2], 20), ([8], 30)])
    (by rw [entries]; decide) (by rw [entries]; decide)
  exact ⟨q.after.tree, entries, o, p, inserted, answers, recorded, same⟩

end Tree

end AdaptiveRadix
