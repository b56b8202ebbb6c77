import AdaptiveRadix.Proofs.Bitset
import AdaptiveRadix.Proofs.Checked
import AdaptiveRadix.Proofs.Edges
import AdaptiveRadix.Storage.Sound
import Mathlib.Data.List.Basic

/-!
A sound storage behind a table of positions acts on its list of children. The bytes in use and the
slots in use are in one-to-one correspondence, so there is a free slot as long as fewer than 48
children are held, and the bit set finds one that no byte names.
-/

namespace AdaptiveRadix.Indexed

open Edges

variable {α : Type} {s t : Indexed α} {b : UInt8} {c : α}

theorem entry_setEntry (s : Indexed α) (a b position : UInt8) :
    (s.setEntry b position).entry a = if a = b then position else s.entry a := by
  simp only [entry, setEntry, Vector.getElem_set, UInt8.toNat_inj]
  by_cases same : a = b
  · rw [if_pos same, if_pos same.symm]
  · rw [if_neg same, if_neg (Ne.symm same)]

def named? (s : Indexed α) (b : UInt8) : Option UInt8 :=
  if s.entry b = vacant then none else some (s.entry b)

theorem named?_eq_some {p : UInt8} : s.named? b = some p ↔ s.entry b ≠ vacant ∧ s.entry b = p := by
  rw [named?]
  split <;> simp [*]

def child? (s : Indexed α) (b : UInt8) : Option α :=
  (s.named? b).bind fun p => s.slots[p.toNat]?.join

theorem children_eq (s : Indexed α) : s.children = table s.child? := by
  refine List.filterMap_congr fun b _ => ?_
  rw [child?, named?]
  split <;> rfl

theorem child?_eq_some :
    s.child? b = some c ↔ s.entry b ≠ vacant ∧ s.slots[(s.entry b).toNat]? = some (some c) := by
  rw [child?, named?]
  split <;> simp [*, Option.join_eq_some_iff]

theorem mem_children_iff :
    (b, c) ∈ s.children ↔ s.entry b ≠ vacant ∧ s.slots[(s.entry b).toNat]? = some (some c) := by
  rw [children_eq, mem_table, child?_eq_some]

theorem ascending_children (s : Indexed α) : Ascending s.children := by
  rw [children_eq]
  exact ascending_table _

theorem length_named (s : Indexed α) :
    (table s.named?).length = (Bytes.all.filter fun b => s.entry b ≠ vacant).length := by
  rw [length_table]
  congr 2
  funext b
  rw [named?]
  split <;> simp [*]

theorem length_children_of_filled
    (filled : ∀ b, s.entry b ≠ vacant → ∃ c, s.slots[(s.entry b).toNat]? = some (some c)) :
    s.children.length = (Bytes.all.filter fun b => s.entry b ≠ vacant).length := by
  rw [children_eq, length_table]
  congr 2
  funext b
  by_cases free : s.entry b = vacant
  · simp [child?, named?, free]
  · obtain ⟨c, hc⟩ := filled b free
    simp [child?_eq_some.2 ⟨free, hc⟩, free]

theorem nodup_positions
    (injective : ∀ a b, s.entry a ≠ vacant → s.entry a = s.entry b → a = b) :
    ((table s.named?).map (·.2.toNat)).Nodup := by
  refine List.pairwise_map.2 ((ascending_table _).imp_of_mem fun {x y} hx hy lt same => ?_)
  obtain ⟨used, hx⟩ := named?_eq_some.1 (mem_table.1 hx)
  obtain ⟨-, hy⟩ := named?_eq_some.1 (mem_table.1 hy)
  rw [UInt8.toNat_inj, ← hx, ← hy] at same
  exact absurd (injective _ _ used same) (UInt8.ne_of_lt lt)

theorem mem_positions {i : Nat} :
    i ∈ (table s.named?).map (·.2.toNat) ↔ ∃ b, s.entry b ≠ vacant ∧ (s.entry b).toNat = i := by
  rw [List.mem_map]
  constructor
  · rintro ⟨⟨b, p⟩, hb, rfl⟩
    obtain ⟨used, rfl⟩ := named?_eq_some.1 (mem_table.1 hb)
    exact ⟨b, used, rfl⟩
  · rintro ⟨b, used, rfl⟩
    exact ⟨(b, s.entry b), mem_table.2 (named?_eq_some.2 ⟨used, rfl⟩), rfl⟩

section Sound

variable (h : s.Sound)

include h

theorem exists_child (used : s.entry b ≠ vacant) :
    ∃ c, s.slots[(s.entry b).toNat]? = some (some c) :=
  (h.filled_iff _ (h.entry_lt b used)).2 ⟨b, used, rfl⟩

theorem entry_eq_vacant (absent : ∀ c, (b, c) ∉ s.children) : s.entry b = vacant := by
  by_contra used
  obtain ⟨c, hc⟩ := exists_child h used
  exact absent c (mem_children_iff.2 ⟨used, hc⟩)

theorem count_eq_named : s.count = (table s.named?).length :=
  h.count_eq.trans (length_named s).symm

theorem length_children : s.children.length = s.count :=
  (length_children_of_filled fun _ used => exists_child h used).trans h.count_eq.symm

theorem find?_eq (b : UInt8) : s.find? b = .ok (s.children.lookup b) := by
  rw [find?]
  by_cases free : s.entry b = vacant
  · rw [if_pos free, lookup_eq_none_iff.2 fun c hc => (mem_children_iff.1 hc).1 free]
  · obtain ⟨c, hc⟩ := exists_child h free
    rw [if_neg free, Checked.read_of_getElem? hc,
      (ascending_children s).lookup_eq_some_iff.2 (mem_children_iff.2 ⟨free, hc⟩)]

theorem positions_subset : (table s.named?).map (·.2.toNat) ⊆ List.range width := by
  intro i hi
  obtain ⟨b, used, rfl⟩ := mem_positions.1 hi
  exact List.mem_range.2 (h.entry_lt b used)

theorem count_le : s.count ≤ width := by
  have := (nodup_positions h.entry_injective).length_le_of_subset (positions_subset h)
  rwa [List.length_map, List.length_range, ← count_eq_named h] at this

theorem exists_free (room : s.count < width) :
    ∃ i < width, ∀ b, s.entry b ≠ vacant → (s.entry b).toNat ≠ i := by
  by_contra full
  have covered : List.range width ⊆ (table s.named?).map (·.2.toNat) := by
    intro i hi
    by_contra unnamed
    exact full ⟨i, List.mem_range.1 hi, fun b used same => unnamed
      (mem_positions.2 ⟨b, used, same⟩)⟩
  have := List.nodup_range.length_le_of_subset covered
  rw [List.length_range, List.length_map, ← count_eq_named h] at this
  omega

theorem slot_eq_none {i : Nat} (hi : i < width)
    (free : ∀ b, s.entry b ≠ vacant → (s.entry b).toNat ≠ i) : s.slots[i]? = some none := by
  have inside : i < s.slots.size := h.size_slots ▸ hi
  rw [Array.getElem?_eq_getElem inside]
  cases held : s.slots[i] with
  | none => rfl
  | some c =>
    obtain ⟨b, used, same⟩ :=
      (h.filled_iff i hi).1 ⟨c, held ▸ Array.getElem?_eq_getElem inside⟩
    exact absurd same (free b used)

theorem firstEmpty_eq (room : s.count < width) :
    ∃ p < width, s.occupied.firstEmpty = some p ∧
      ∀ b, s.entry b ≠ vacant → (s.entry b).toNat ≠ p := by
  obtain ⟨i, hi, free⟩ := exists_free h room
  have clear : s.occupied.check i ≠ .ok true := fun taken => by
    obtain ⟨b, used, same⟩ := (h.occupied_iff i (Nat.lt_trans hi (by decide))).1 taken
    exact free b used same
  cases found : s.occupied.firstEmpty with
  | none =>
    have bound : i < 1 * 64 := Nat.lt_trans hi (by decide)
    exact absurd (Bitset.firstEmpty_eq_none found bound) clear
  | some p =>
    obtain ⟨empty, below⟩ := Bitset.firstEmpty_eq_some found
    have hp : p ≤ i := Nat.le_of_not_lt fun lt => clear (below i lt)
    have bound : p < width := by omega
    refine ⟨p, bound, rfl, fun b used same => ?_⟩
    have := (h.occupied_iff p (Nat.lt_trans bound (by decide))).2 ⟨b, used, same⟩
    rw [empty] at this
    exact absurd this (by decide)

theorem check_of_count_eq (full : s.count = width) {i : Nat} (hi : i < width) :
    s.occupied.check i = .ok true := by
  refine (h.occupied_iff i (Nat.lt_trans hi (by decide))).2 (mem_positions.1 ?_)
  by_contra unnamed
  have nodup := List.nodup_cons.2 ⟨unnamed, nodup_positions h.entry_injective⟩
  have within := List.cons_subset.2 ⟨List.mem_range.2 hi, positions_subset h⟩
  have := nodup.length_le_of_subset within
  rw [List.length_cons, List.length_map, List.length_range, ← count_eq_named h] at this
  omega

theorem size_occupied : s.occupied.size = s.count := by
  have same : ((List.range (1 * 64)).filter fun p => s.occupied.check p = .ok true).Perm
      ((table s.named?).map (·.2.toNat)) := by
    refine (List.perm_ext_iff_of_nodup (List.nodup_range.filter _)
      (nodup_positions h.entry_injective)).2 fun i => ?_
    rw [List.mem_filter, List.mem_range, decide_eq_true_eq, mem_positions]
    constructor
    · rintro ⟨bound, taken⟩
      exact (h.occupied_iff i bound).1 taken
    · intro named
      have bound : i < 64 := by
        obtain ⟨b, used, rfl⟩ := named
        exact Nat.lt_trans (h.entry_lt b used) (by decide)
      exact ⟨bound, (h.occupied_iff i bound).2 named⟩
  rw [Bitset.size_eq, List.countP_eq_length_filter, same.length_eq, List.length_map,
    ← count_eq_named h]

end Sound

/-- In `t`, byte `b` has another entry than in `s`, and slot `i` other contents. -/
structure Rewritten (b position : UInt8) (i : Nat) (child? : Option α) (s t : Indexed α) :
    Prop where
  entry_eq : ∀ a, t.entry a = if a = b then position else s.entry a
  size_slots : t.slots.size = s.slots.size
  slots_eq : ∀ k : Nat, t.slots[k]? = if k = i then some child? else s.slots[k]?
  check_eq : ∀ k, t.occupied.check k = if k = i then .ok child?.isSome else s.occupied.check k

section Rewritten

variable {position : UInt8} {i : Nat} {child? : Option α} (h : Rewritten b position i child? s t)

include h

theorem Rewritten.entry_self : t.entry b = position :=
  (h.entry_eq b).trans (if_pos rfl)

theorem Rewritten.entry_ne {a : UInt8} (apart : a ≠ b) : t.entry a = s.entry a :=
  (h.entry_eq a).trans (if_neg apart)

end Rewritten

/-- `t` has the child `c` in a slot `i` that is free in `s`, and `b` names it. -/
structure Filled (i : Nat) (b : UInt8) (c : α) (s t : Indexed α) : Prop
    extends Rewritten b i.toUInt8 i (some c) s t where
  bound : i < width
  unused : s.entry b = vacant
  free : ∀ a, s.entry a ≠ vacant → (s.entry a).toNat ≠ i
  count_eq : t.count = s.count + 1

theorem toNat_toUInt8 {i : Nat} (bound : i < width) : i.toUInt8.toNat = i :=
  Nat.mod_eq_of_lt (Nat.lt_trans bound (by decide))

theorem toUInt8_ne_vacant {i : Nat} (bound : i < width) : i.toUInt8 ≠ vacant := by
  intro same
  rw [← toNat_toUInt8 bound, same] at bound
  exact absurd bound (by decide)

section Filled

variable {i : Nat} (h : Filled i b c s t)

include h

theorem Filled.names_iff (a : UInt8) (k : Nat) : t.entry a ≠ vacant ∧ (t.entry a).toNat = k ↔
    a = b ∧ k = i ∨ s.entry a ≠ vacant ∧ (s.entry a).toNat = k := by
  by_cases same : a = b
  · subst same
    simp [h.entry_self, toUInt8_ne_vacant h.bound, toNat_toUInt8 h.bound, h.unused, eq_comm]
  · simp [h.entry_ne same, same]

theorem Filled.named : Inserted b i.toUInt8 (table s.named?) (table t.named?) := by
  refine ⟨fun d hd => (named?_eq_some.1 (mem_table.1 hd)).1 h.unused, fun ⟨a, q⟩ => ?_⟩
  rw [mem_table, mem_table, named?_eq_some, named?_eq_some]
  by_cases same : a = b
  · subst same
    simp [h.entry_self, toUInt8_ne_vacant h.bound, h.unused, eq_comm]
  · simp [h.entry_ne same, same]

theorem Filled.sound (hs : s.Sound) : t.Sound where
  size_slots := h.size_slots.trans hs.size_slots
  entry_lt a used := by
    rcases (h.names_iff a _).1 ⟨used, rfl⟩ with ⟨-, same⟩ | ⟨used, same⟩
    · exact same ▸ h.bound
    · exact same ▸ hs.entry_lt a used
  entry_injective a d used same := by
    have used' : t.entry d ≠ vacant := same ▸ used
    rcases (h.names_iff a _).1 ⟨used, rfl⟩ with ⟨rfl, here⟩ | ⟨named, here⟩
    · rcases (h.names_iff d _).1 ⟨used', rfl⟩ with ⟨rfl, -⟩ | ⟨named, there⟩
      · rfl
      · exact absurd (there.trans (same ▸ here)) (h.free d named)
    · rcases (h.names_iff d _).1 ⟨used', rfl⟩ with ⟨rfl, there⟩ | ⟨named', there⟩
      · exact absurd (here.trans (same ▸ there)) (h.free a named)
      · exact hs.entry_injective a d named (UInt8.toNat_inj.1 (by rw [here, there, same]))
  filled_iff k hk := by
    rw [h.slots_eq]
    by_cases same : k = i
    · rw [if_pos same]
      exact ⟨fun _ => ⟨b, (h.names_iff b k).2 (.inl ⟨rfl, same⟩)⟩, fun _ => ⟨c, rfl⟩⟩
    · simp [h.names_iff, same, hs.filled_iff k hk]
  occupied_iff k hk := by
    rw [h.check_eq]
    by_cases same : k = i
    · rw [if_pos same]
      exact ⟨fun _ => ⟨b, (h.names_iff b k).2 (.inl ⟨rfl, same⟩)⟩, fun _ => rfl⟩
    · simp [h.names_iff, same, hs.occupied_iff k hk]
  count_eq := by
    rw [h.count_eq, ← length_named, h.named.length (ascending_table _) (ascending_table _),
      ← count_eq_named hs]

theorem Filled.inserted (absent : ∀ d, (b, d) ∉ s.children) :
    Inserted b c s.children t.children := by
  refine ⟨absent, fun ⟨a, d⟩ => ?_⟩
  rw [mem_children_iff, mem_children_iff, h.slots_eq]
  by_cases same : a = b
  · subst same
    simp [h.entry_self, toUInt8_ne_vacant h.bound, toNat_toUInt8 h.bound, h.unused, eq_comm]
  · rw [h.entry_ne same]
    constructor
    · rintro ⟨used, hd⟩
      exact .inr ⟨used, by rwa [if_neg (h.free a used)] at hd⟩
    · rintro (same' | ⟨used, hd⟩)
      · exact absurd (Prod.mk.inj same').1 same
      · exact ⟨used, by rwa [if_neg (h.free a used)]⟩

end Filled

theorem add_rewritten (size : s.slots.size = width) {i : Nat}
    (found : s.occupied.firstEmpty = some i) (hi : i < width) (small : s.count < 255) (b : UInt8)
    (c : α) :
    ∃ t, s.add b c = .ok t ∧ Rewritten b i.toUInt8 i (some c) s t ∧ t.count = s.count + 1 := by
  have bit : i < 1 * 64 := Nat.lt_trans hi (by decide)
  have clear := (Bitset.firstEmpty_eq_some found).1
  obtain ⟨occupied, marked, check⟩ := Bitset.set_eq_ok s.occupied bit
  obtain ⟨slots, put, size', slots_eq⟩ := Checked.write_eq (size ▸ hi) (some c)
  refine ⟨⟨(s.setEntry b i.toUInt8).index, slots, occupied, s.count + 1⟩, ?_,
    ⟨fun a => entry_setEntry s a b _, size', slots_eq, check⟩, rfl⟩
  rw [add, found]
  simp only [if_pos hi, clear, Checked.assert_eq_ok Bool.not_false, marked, put,
    Checked.increment_eq_ok small, Checked.ok_bind]
  rfl

theorem add_filled (h : s.Sound) (room : s.count < width) (absent : ∀ d, (b, d) ∉ s.children)
    (c : α) :
    ∃ i t, s.occupied.firstEmpty = some i ∧ s.add b c = .ok t ∧ Filled i b c s t := by
  obtain ⟨i, hi, found, free⟩ := firstEmpty_eq h room
  obtain ⟨t, added, rewritten, count⟩ :=
    add_rewritten h.size_slots found hi (Nat.lt_trans room (by decide)) b c
  exact ⟨i, t, found, added, {
    rewritten with
    bound := hi
    unused := entry_eq_vacant h absent
    free := free
    count_eq := count }⟩

theorem add_eq (h : s.Sound) (room : s.count < width) (absent : ∀ d, (b, d) ∉ s.children) (c : α) :
    ∃ t, s.add b c = .ok t ∧ t.Sound ∧ Inserted b c s.children t.children := by
  obtain ⟨i, t, -, added, filled⟩ := add_filled h room absent c
  exact ⟨t, added, filled.sound h, filled.inserted absent⟩

theorem add_of_count_eq (h : s.Sound) (full : s.count = width) (b : UInt8) (c : α) :
    s.add b c = .error .noSpaceLeft := by
  rw [add]
  cases found : s.occupied.firstEmpty with
  | none => rfl
  | some p =>
    have beyond : ¬ p < width := fun inside => by
      have taken := check_of_count_eq h full inside
      rw [(Bitset.firstEmpty_eq_some found).1] at taken
      exact absurd taken (by decide)
    exact if_neg beyond

/-- `b` names the slot `i` in `s`, and in `t` both are free. -/
structure Freed (i : Nat) (b : UInt8) (s t : Indexed α) : Prop
    extends Rewritten b vacant i none s t where
  used : s.entry b ≠ vacant
  position : (s.entry b).toNat = i
  count_eq : s.count = t.count + 1

section Freed

variable {i : Nat} (h : Freed i b s t) (hs : s.Sound)

include h

theorem Freed.named : Erased b (s.entry b) (table s.named?) (table t.named?) := by
  refine ⟨mem_table.2 (named?_eq_some.2 ⟨h.used, rfl⟩), fun ⟨a, q⟩ => ?_⟩
  rw [mem_table, mem_table, named?_eq_some, named?_eq_some]
  by_cases same : a = b
  · subst same
    simp [h.entry_self]
  · simp [h.entry_ne same, same]

include hs

theorem Freed.position_ne {a : UInt8} (apart : a ≠ b) (named : s.entry a ≠ vacant) :
    (s.entry a).toNat ≠ i := by
  intro same
  exact apart (hs.entry_injective a b named (UInt8.toNat_inj.1 (same.trans h.position.symm)))

theorem Freed.names_iff (a : UInt8) (k : Nat) : t.entry a ≠ vacant ∧ (t.entry a).toNat = k ↔
    k ≠ i ∧ s.entry a ≠ vacant ∧ (s.entry a).toNat = k := by
  by_cases same : a = b
  · subst same
    refine iff_of_false (fun named => named.1 h.entry_self) ?_
    rintro ⟨other, -, here⟩
    exact other (here.symm.trans h.position)
  · rw [h.entry_ne same]
    refine ⟨fun named => ⟨?_, named⟩, And.right⟩
    exact named.2 ▸ h.position_ne hs same named.1

theorem Freed.sound : t.Sound where
  size_slots := h.size_slots.trans hs.size_slots
  entry_lt a used := by
    obtain ⟨-, used, same⟩ := (h.names_iff hs a _).1 ⟨used, rfl⟩
    exact same ▸ hs.entry_lt a used
  entry_injective a d used same := by
    obtain ⟨-, named, here⟩ := (h.names_iff hs a _).1 ⟨used, rfl⟩
    obtain ⟨-, -, there⟩ := (h.names_iff hs d _).1 ⟨same ▸ used, rfl⟩
    exact hs.entry_injective a d named (UInt8.toNat_inj.1 (by rw [here, there, same]))
  filled_iff k hk := by
    rw [h.slots_eq]
    by_cases same : k = i
    · simp [h.names_iff hs, same]
    · simp [h.names_iff hs, same, hs.filled_iff k hk]
  occupied_iff k hk := by
    rw [h.check_eq]
    by_cases same : k = i
    · simp [h.names_iff hs, same]
    · simp [h.names_iff hs, same, hs.occupied_iff k hk]
  count_eq := by
    have named := h.named.length (ascending_table _) (ascending_table _)
    rw [← count_eq_named hs, h.count_eq] at named
    exact (Nat.succ.inj named).trans (length_named t)

theorem Freed.erased (held : (b, c) ∈ s.children) : Erased b c s.children t.children := by
  refine ⟨held, fun ⟨a, d⟩ => ?_⟩
  rw [mem_children_iff, mem_children_iff, h.slots_eq]
  by_cases same : a = b
  · subst same
    simp [h.entry_self]
  · rw [h.entry_ne same]
    constructor
    · rintro ⟨named, hd⟩
      rw [if_neg (h.position_ne hs same named)] at hd
      exact ⟨⟨named, hd⟩, same⟩
    · rintro ⟨⟨named, hd⟩, -⟩
      exact ⟨named, by rwa [if_neg (h.position_ne hs same named)]⟩

end Freed

theorem erase_vacant (free : s.entry b = vacant) : s.erase b = .ok (none, s) := by
  rw [erase, if_pos free]
  rfl

/-- An erasure answers if the bit set it leaves has as many positions as there are children. -/
theorem erase_rewritten (size : s.slots.size = width) (used : s.entry b ≠ vacant)
    {child? : Option α} (hc : s.slots[(s.entry b).toNat]? = some child?) (positive : 0 < s.count) :
    ∃ t, Rewritten b vacant (s.entry b).toNat none s t ∧ s.count = t.count + 1 ∧
      s.erase b = do
        Checked.assert (t.occupied.size = t.count)
        return (child?, t) := by
  obtain ⟨slot, -⟩ := Array.getElem?_eq_some_iff.1 hc
  have bit : (s.entry b).toNat < 1 * 64 := Nat.lt_trans (size ▸ slot) (by decide)
  obtain ⟨occupied, cleared, check⟩ := Bitset.unset_eq_ok s.occupied bit
  obtain ⟨slots, emptied, size', slots_eq⟩ := Checked.write_eq slot none
  refine ⟨⟨(s.setEntry b vacant).index, slots, occupied, s.count - 1⟩,
    ⟨fun a => entry_setEntry s a b _, size', slots_eq, check⟩, (Nat.sub_add_cancel positive).symm,
    ?_⟩
  rw [erase, if_neg used]
  simp only [Checked.read_of_getElem? hc, cleared, Checked.decrement_eq_ok positive, emptied,
    Checked.ok_bind]

theorem erase_freed (h : s.Sound) (used : s.entry b ≠ vacant) :
    ∃ c t, s.erase b = .ok (some c, t) ∧ (b, c) ∈ s.children ∧
      Freed (s.entry b).toNat b s t := by
  obtain ⟨c, hc⟩ := exists_child h used
  have held : (b, s.entry b) ∈ table s.named? := mem_table.2 (named?_eq_some.2 ⟨used, rfl⟩)
  have positive : 0 < s.count := count_eq_named h ▸ List.length_pos_of_mem held
  obtain ⟨t, rewritten, count, erased⟩ := erase_rewritten h.size_slots used hc positive
  have freed : Freed (s.entry b).toNat b s t := {
    rewritten with
    used := used
    position := rfl
    count_eq := count }
  rw [Checked.assert_eq_ok (size_occupied (freed.sound h))] at erased
  exact ⟨c, t, erased, mem_children_iff.2 ⟨used, hc⟩, freed⟩

theorem erase_cases (h : s.Sound) (b : UInt8) :
    (∃ c t, s.erase b = .ok (some c, t) ∧ t.Sound ∧ Erased b c s.children t.children) ∨
      s.erase b = .ok (none, s) ∧ ∀ c, (b, c) ∉ s.children := by
  by_cases free : s.entry b = vacant
  · exact .inr ⟨erase_vacant free, fun c hc => (mem_children_iff.1 hc).1 free⟩
  · obtain ⟨c, t, erased, held, freed⟩ := erase_freed h free
    exact .inl ⟨c, t, erased, freed.sound h, freed.erased h held⟩

theorem replace_cases (h : s.Sound) (b : UInt8) (c : α) :
    (∃ t, s.replace b c = .ok t ∧ t.Sound ∧ Replaced b c s.children t.children) ∨
      s.replace b c = .ok s ∧ ∀ d, (b, d) ∉ s.children := by
  cases found : s.children.lookup b with
  | none =>
    refine .inr ⟨?_, lookup_eq_none_iff.1 found⟩
    rw [replace, find?_eq h, found]
    rfl
  | some d =>
    have mem := (ascending_children s).lookup_eq_some_iff.1 found
    obtain ⟨used, hd⟩ := mem_children_iff.1 mem
    have inside : (s.entry b).toNat < s.slots.size := h.size_slots ▸ h.entry_lt b used
    obtain ⟨slots, put, size, slots_eq⟩ := Checked.write_eq inside (some c)
    have apart {a : UInt8} (other : a ≠ b) (named : s.entry a ≠ vacant) :
        (s.entry a).toNat ≠ (s.entry b).toNat := fun same =>
      other (h.entry_injective a b named (UInt8.toNat_inj.1 same))
    refine .inl ⟨{ s with slots }, ?_, ?_, ⟨d, mem⟩, fun ⟨a, e⟩ => ?_⟩
    · rw [replace, find?_eq h, found]
      simp only [put, Checked.ok_bind]
      rfl
    · refine { h with size_slots := size.trans h.size_slots, filled_iff := fun i hi => ?_ }
      rw [slots_eq]
      by_cases same : i = (s.entry b).toNat
      · rw [if_pos same]
        exact ⟨fun _ => ⟨b, used, same.symm⟩, fun _ => ⟨c, rfl⟩⟩
      · rw [if_neg same]
        exact h.filled_iff i hi
    · have entry_eq : entry { s with slots } a = s.entry a := rfl
      rw [mem_children_iff, mem_children_iff, entry_eq, slots_eq]
      by_cases same : a = b
      · subst same
        simp [used, eq_comm]
      · constructor
        · rintro ⟨named, he⟩
          rw [if_neg (apart same named)] at he
          exact .inr ⟨⟨named, he⟩, same⟩
        · rintro (same' | ⟨⟨named, he⟩, -⟩)
          · exact absurd (Prod.mk.inj same').1 same
          · exact ⟨named, by rwa [if_neg (apart same named)]⟩

theorem replace_self (found : s.find? b = .ok (some c)) : s.replace b c = .ok s := by
  rw [replace, found]
  rw [find?] at found
  split at found
  · cases found
  · simp only [Checked.ok_bind, Checked.write_self found]
    rfl

end AdaptiveRadix.Indexed
