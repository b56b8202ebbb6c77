import AdaptiveRadix.Storage

/-!
What the four storages keep between operations. In a sound storage the bytes are listed once and in
order, every place that is in use holds a child, every other place holds none, and the counter is
right. The empty storages are sound.
-/

namespace AdaptiveRadix

variable {α : Type} {w : Nat}

structure Keyed.Sound (s : Keyed w α) : Prop where
  size_slots : s.slots.size = w
  count_le : s.count ≤ w
  ascending : s.held.Pairwise (· < ·)
  filled : ∀ i < s.count, ∃ child, s.slots[i]? = some (some child)
  spare : ∀ i, s.count ≤ i → i < w → s.keys[i]? = some filler ∧ s.slots[i]? = some none

structure Indexed.Sound (s : Indexed α) : Prop where
  size_slots : s.slots.size = width
  entry_lt : ∀ b, s.entry b ≠ vacant → (s.entry b).toNat < width
  entry_injective : ∀ a b, s.entry a ≠ vacant → s.entry a = s.entry b → a = b
  filled_iff : ∀ i < width,
    (∃ child, s.slots[i]? = some (some child)) ↔ ∃ b, s.entry b ≠ vacant ∧ (s.entry b).toNat = i
  occupied_iff : ∀ i < 64,
    s.occupied.check i = .ok true ↔ ∃ b, s.entry b ≠ vacant ∧ (s.entry b).toNat = i
  count_eq : s.count = (Bytes.all.filter fun b => s.entry b ≠ vacant).length

structure Direct.Sound (s : Direct α) : Prop where
  size_slots : s.slots.size = width
  count_eq : s.count = s.children.length

def Storage.Sound : Storage α → Prop
  | keyed4 s => s.Sound
  | keyed16 s => s.Sound
  | indexed48 s => s.Sound
  | direct256 s => s.Sound

theorem Keyed.sound_empty : (empty : Keyed w α).Sound where
  size_slots := Array.size_replicate
  count_le := Nat.zero_le _
  ascending := List.Pairwise.nil
  filled _ h := absurd h (Nat.not_lt_zero _)
  spare i _ h := by simp [empty, h]

theorem Keyed.children_empty : (empty : Keyed w α).children = [] := rfl

theorem Indexed.entry_empty (b : UInt8) : (empty : Indexed α).entry b = vacant := by
  simp [entry, empty]

theorem Indexed.sound_empty : (empty : Indexed α).Sound where
  size_slots := Array.size_replicate
  entry_lt b h := absurd (entry_empty b) h
  entry_injective a _ h := absurd (entry_empty a) h
  filled_iff i h := by
    simp only [entry_empty, ne_eq, not_true_eq_false, false_and, exists_false, iff_false]
    simp [empty, h]
  occupied_iff i h := by
    simp only [entry_empty, ne_eq, not_true_eq_false, false_and, exists_false, iff_false]
    simp [empty, Bitset.check, Bitset.empty, h]
  count_eq := by simp [entry_empty]; rfl

theorem Indexed.children_empty : (empty : Indexed α).children = [] := by
  simp [children, entry_empty]

theorem Direct.children_empty : (empty : Direct α).children = [] := by
  refine List.filterMap_eq_nil_iff.2 fun b _ => ?_
  rw [empty, Array.getElem?_replicate]
  split <;> rfl

theorem Direct.sound_empty : (empty : Direct α).Sound where
  size_slots := Array.size_replicate
  count_eq := by rw [children_empty]; rfl

theorem Storage.sound_empty (l : Layout) : (empty l : Storage α).Sound := by
  cases l
  · exact Keyed.sound_empty
  · exact Keyed.sound_empty
  · exact Indexed.sound_empty
  · exact Direct.sound_empty

theorem Storage.children_empty (l : Layout) : (empty l : Storage α).children = [] := by
  cases l
  · exact Keyed.children_empty
  · exact Keyed.children_empty
  · exact Indexed.children_empty
  · exact Direct.children_empty

end AdaptiveRadix
