import AdaptiveRadix.Proofs.Checked
import AdaptiveRadix.Proofs.Edges
import AdaptiveRadix.Storage.Sound

/-!
A sound storage with a slot for every byte acts on its list of children. The list is the table of
the slots, so each operation is one entry of it.
-/

namespace AdaptiveRadix.Direct

open Edges

variable {α : Type} {s t : Direct α} {b : UInt8} {c : α}

theorem children_eq (s : Direct α) : s.children = table fun b => s.slots[b.toNat]?.join :=
  rfl

theorem mem_children_iff : (b, c) ∈ s.children ↔ s.slots[b.toNat]? = some (some c) := by
  rw [children_eq, mem_table, Option.join_eq_some_iff]

theorem ascending_children (s : Direct α) : Ascending s.children :=
  ascending_table _

section Size

variable (size : s.slots.size = width)

include size

theorem lt_size (b : UInt8) : b.toNat < s.slots.size := by
  rw [size]
  exact b.toNat_lt

theorem getElem?_slots (b : UInt8) : s.slots[b.toNat]? = some (s.children.lookup b) := by
  obtain ⟨child?, hc⟩ : ∃ child?, s.slots[b.toNat]? = some child? :=
    ⟨_, Array.getElem?_eq_getElem (lt_size size b)⟩
  rw [hc, Option.some.injEq]
  cases child? with
  | none =>
    refine (lookup_eq_none_iff.2 fun c mem => ?_).symm
    rw [mem_children_iff, hc] at mem
    simp at mem
  | some c => exact ((ascending_children s).lookup_eq_some_iff.2 (mem_children_iff.2 hc)).symm

theorem find?_eq (b : UInt8) : s.find? b = .ok (s.children.lookup b) :=
  Checked.read_of_getElem? (getElem?_slots size b)

theorem write_eq (b : UInt8) (child? : Option α) :
    ∃ slots, Checked.write s.slots b.toNat child? = .ok slots ∧ slots.size = width ∧
      ∀ a : UInt8, slots[a.toNat]? = if a = b then some child? else s.slots[a.toNat]? := by
  obtain ⟨slots, put, size', slots_eq⟩ := Checked.write_eq (lt_size size b) child?
  exact ⟨slots, put, size'.trans size, fun a => by simp only [slots_eq, UInt8.toNat_inj]⟩

theorem clear_eq (held : (b, c) ∈ s.children) :
    ∃ slots, Checked.write s.slots b.toNat none = .ok slots ∧ slots.size = width ∧
      ∀ count, Erased b c s.children (children ⟨slots, count⟩) := by
  obtain ⟨slots, put, size', slots_eq⟩ := write_eq size b none
  refine ⟨slots, put, size', fun count => ⟨held, fun ⟨a, d⟩ => ?_⟩⟩
  rw [mem_children_iff, mem_children_iff, slots_eq]
  by_cases same : a = b
  · simp [same]
  · simp [same]

end Size

section Sound

variable (h : s.Sound)

include h

theorem add_eq (absent : ∀ d, (b, d) ∉ s.children) (c : α) :
    ∃ t, s.add b c = .ok t ∧ t.Sound ∧ Inserted b c s.children t.children := by
  obtain ⟨slots, put, size, slots_eq⟩ := write_eq h.size_slots b (some c)
  have inserted : Inserted b c s.children (children ⟨slots, s.count + 1⟩) := by
    refine ⟨absent, fun ⟨a, d⟩ => ?_⟩
    rw [mem_children_iff, mem_children_iff, slots_eq]
    by_cases same : a = b
    · subst same
      have := absent d
      rw [mem_children_iff] at this
      simp [this, eq_comm]
    · simp [same]
  have length := inserted.length (ascending_children s) (ascending_children _)
  have bound := (ascending_children s).length_le
  rw [← h.count_eq] at length bound
  refine ⟨⟨slots, s.count + 1⟩, ?_, ⟨size, length.symm⟩, inserted⟩
  rw [add, find?_eq h.size_slots, lookup_eq_none_iff.2 absent]
  simp only [put, Checked.ok_bind]
  rw [Checked.increment_eq_ok (Nat.lt_of_le_of_lt bound (by decide))]
  rfl

theorem erase_cases (b : UInt8) :
    (∃ c t, s.erase b = .ok (some c, t) ∧ t.Sound ∧ Erased b c s.children t.children) ∨
      s.erase b = .ok (none, s) ∧ ∀ c, (b, c) ∉ s.children := by
  cases found : s.children.lookup b with
  | none =>
    refine .inr ⟨?_, lookup_eq_none_iff.1 found⟩
    obtain ⟨slots, put, -, slots_eq⟩ := Checked.write_eq (lt_size h.size_slots b) none
    have same : slots = s.slots := by
      refine Array.ext_getElem? fun i => ?_
      rw [slots_eq]
      split
      · next here => rw [here, getElem?_slots h.size_slots, found]
      · rfl
    rw [erase, find?_eq h.size_slots, found]
    simp only [put, Checked.ok_bind, same]
    rfl
  | some c =>
    have held := (ascending_children s).lookup_eq_some_iff.1 found
    have positive : 0 < s.count := h.count_eq ▸ List.length_pos_of_mem held
    obtain ⟨slots, put, size, erased⟩ := clear_eq h.size_slots held
    have erased := erased (s.count - 1)
    have length := erased.length (ascending_children s) (ascending_children _)
    rw [← h.count_eq] at length
    refine .inl ⟨c, ⟨slots, s.count - 1⟩, ?_, ⟨size, Nat.sub_eq_of_eq_add length⟩, erased⟩
    rw [erase, find?_eq h.size_slots, found]
    simp only [put, Checked.ok_bind, Checked.decrement_eq_ok positive]
    rfl

theorem replace_cases (b : UInt8) (c : α) :
    (∃ t, s.replace b c = .ok t ∧ t.Sound ∧ Replaced b c s.children t.children) ∨
      s.replace b c = .ok s ∧ ∀ d, (b, d) ∉ s.children := by
  cases found : s.children.lookup b with
  | none =>
    refine .inr ⟨?_, lookup_eq_none_iff.1 found⟩
    rw [replace, find?_eq h.size_slots, found]
    rfl
  | some d =>
    obtain ⟨slots, put, size, slots_eq⟩ := write_eq h.size_slots b (some c)
    have replaced : Replaced b c s.children (children ⟨slots, s.count⟩) := by
      refine ⟨⟨d, (ascending_children s).lookup_eq_some_iff.1 found⟩, fun ⟨a, e⟩ => ?_⟩
      rw [mem_children_iff, mem_children_iff, slots_eq]
      by_cases same : a = b
      · simp [same, eq_comm]
      · simp [same]
    have length := replaced.length (ascending_children s) (ascending_children _)
    refine .inl ⟨⟨slots, s.count⟩, ?_, ⟨size, h.count_eq.trans length.symm⟩, replaced⟩
    rw [replace, find?_eq h.size_slots, found]
    simp only [put, Checked.ok_bind]
    rfl

end Sound

theorem replace_self (found : s.find? b = .ok (some c)) : s.replace b c = .ok s := by
  rw [replace, found]
  rw [find?] at found
  simp only [Checked.ok_bind, Checked.write_self found]
  rfl

end AdaptiveRadix.Direct
