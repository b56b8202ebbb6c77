import AdaptiveRadix.Proofs.Checked
import AdaptiveRadix.Proofs.Edges
import AdaptiveRadix.Proofs.SortedBytes
import AdaptiveRadix.Storage.Sound
import Mathlib.Data.List.Basic

/-!
A sound storage of sorted rows acts on its list of children: a search reads the list, and adding,
replacing and erasing change it at one byte. The rows are described place by place; a shift moves
the places between two bounds and leaves one of them free.
-/

namespace AdaptiveRadix.Keyed

open Edges

variable {α : Type} {w : Nat} {s t : Keyed w α} {b : UInt8} {c : α}

def place (s : Keyed w α) (k : Nat) : Option UInt8 × Option (Option α) :=
  (s.keys[k]?, s.slots[k]?)

theorem place_eq_iff {k : Nat} {key? : Option UInt8} {slot? : Option (Option α)} :
    s.place k = (key?, slot?) ↔ s.keys[k]? = key? ∧ s.slots[k]? = slot? :=
  Prod.mk.injEq _ _ _ _ ▸ Iff.rfl

theorem mem_children_iff :
    (b, c) ∈ s.children ↔ ∃ k < s.count, s.place k = (some b, some (some c)) := by
  simp only [children, List.mem_filterMap, Option.map_eq_some_iff, Prod.mk.injEq, place_eq_iff]
  constructor
  · rintro ⟨⟨a, child?⟩, mem, d, rfl, rfl, rfl⟩
    obtain ⟨i, hi⟩ := List.mem_iff_getElem?.1 mem
    rw [List.getElem?_take] at hi
    split at hi
    · next inside =>
      obtain ⟨hk, hs⟩ := List.getElem?_zip_eq_some.1 hi
      exact ⟨i, inside, by rwa [Vector.getElem?_toList] at hk, by rwa [Array.getElem?_toList] at hs⟩
    · contradiction
  · rintro ⟨i, inside, hk, hs⟩
    refine ⟨(b, some c), List.mem_iff_getElem?.2 ⟨i, ?_⟩, c, rfl, rfl, rfl⟩
    rw [List.getElem?_take, if_pos inside, List.getElem?_zip_eq_some, Vector.getElem?_toList,
      Array.getElem?_toList]
    exact ⟨hk, hs⟩

theorem getElem?_held_eq_some {i : Nat} :
    s.held[i]? = some b ↔ i < s.count ∧ s.keys[i]? = some b := by
  rw [held, SortedBytes.getElem?_held]
  split <;> simp [*]

/-- The places in use hold children and the others none, in whatever order the bytes stand. -/
structure Packed (s : Keyed w α) : Prop where
  size_slots : s.slots.size = w
  count_le : s.count ≤ w
  filled : ∀ k < s.count, ∃ b c, s.place k = (some b, some (some c))
  spare : ∀ k, s.count ≤ k → k < w → s.place k = (some filler, some none)

theorem map_fst_children_of_filled (size : s.slots.size = w)
    (filled : ∀ i < s.count, ∃ c, s.slots[i]? = some (some c)) :
    s.children.map (·.1) = s.held := by
  have lengths : s.keys.toList.length ≤ s.slots.toList.length := by simp [size]
  have filled (p : UInt8 × Option α) (mem : p ∈ (s.keys.toList.zip s.slots.toList).take s.count) :
      (p.2.map (p.1, ·)).map (·.1) = some p.1 := by
    obtain ⟨i, hi⟩ := List.mem_iff_getElem?.1 mem
    rw [List.getElem?_take] at hi
    split at hi
    · next inside =>
      obtain ⟨-, hs⟩ := List.getElem?_zip_eq_some.1 hi
      obtain ⟨d, hd⟩ := filled i inside
      rw [Array.getElem?_toList, hd] at hs
      rw [← Option.some.inj hs]
      rfl
    · contradiction
  rw [children, List.map_filterMap, List.filterMap_congr filled]
  rw [List.filterMap_eq_map', List.map_take, List.map_fst_zip lengths, held, SortedBytes.held]

section Sound

variable (h : s.Sound)

include h

theorem filled_place {k : Nat} (inside : k < s.count) :
    ∃ b c, s.place k = (some b, some (some c)) := by
  obtain ⟨c, hc⟩ := h.filled k inside
  have bound : k < w := Nat.lt_of_lt_of_le inside h.count_le
  exact ⟨s.keys[k], c, place_eq_iff.2 ⟨Vector.getElem?_eq_getElem bound, hc⟩⟩

theorem lt_of_place {i j : Nat} {a b : UInt8} {c d : Option (Option α)} (hij : i < j)
    (hj : j < s.count) (ha : s.place i = (some a, c)) (hb : s.place j = (some b, d)) : a < b :=
  SortedBytes.lt_of_getElem? h.ascending hij
    (getElem?_held_eq_some.2 ⟨by omega, (place_eq_iff.1 ha).1⟩)
    (getElem?_held_eq_some.2 ⟨hj, (place_eq_iff.1 hb).1⟩)

theorem map_fst_children : s.children.map (·.1) = s.held :=
  map_fst_children_of_filled h.size_slots h.filled

theorem ascending_children : Ascending s.children := by
  have ascending := h.ascending
  rwa [← map_fst_children h, List.pairwise_map] at ascending

theorem length_held : s.held.length = s.count :=
  SortedBytes.length_held h.count_le

theorem length_children : s.children.length = s.count := by
  rw [← List.length_map (·.1), map_fst_children h, length_held h]

theorem position?_cases (b : UInt8) :
    (∃ k c, s.position? b = .ok (some k) ∧ k < s.count ∧ s.place k = (some b, some (some c))) ∨
      s.position? b = .ok none ∧ ∀ c, (b, c) ∉ s.children := by
  have found : s.position? b = .ok (SortedBytes.position? b s.keys s.count) := if_pos h.count_le
  have exact_place {k : Nat} :
      SortedBytes.position? b s.keys s.count = some k ↔
        (SortedBytes.held s.keys s.count)[k]? = some b :=
    SortedBytes.position?_eq_some_iff h.count_le h.ascending
  cases hp : SortedBytes.position? b s.keys s.count with
  | some k =>
    obtain ⟨inside, hk⟩ := getElem?_held_eq_some.1 (exact_place.1 hp)
    obtain ⟨c, hc⟩ := h.filled k inside
    exact .inl ⟨k, c, hp ▸ found, inside, place_eq_iff.2 ⟨hk, hc⟩⟩
  | none =>
    refine .inr ⟨hp ▸ found, fun c hc => ?_⟩
    obtain ⟨k, inside, hk⟩ := mem_children_iff.1 hc
    have := exact_place.2 (getElem?_held_eq_some.2 ⟨inside, (place_eq_iff.1 hk).1⟩)
    rw [hp] at this
    contradiction

theorem find?_eq (b : UInt8) : s.find? b = .ok (s.children.lookup b) := by
  rcases position?_cases h b with ⟨k, c, found, inside, hk⟩ | ⟨found, absent⟩
  · have mem := mem_children_iff.2 ⟨k, inside, hk⟩
    rw [(ascending_children h).lookup_eq_some_iff.2 mem, find?, found]
    exact Checked.read_of_getElem? (place_eq_iff.1 hk).2
  · rw [lookup_eq_none_iff.2 absent, find?, found]
    rfl

end Sound

theorem Sound.packed (h : s.Sound) : s.Packed where
  size_slots := h.size_slots
  count_le := h.count_le
  filled _ inside := filled_place h inside
  spare k above below := place_eq_iff.2 (h.spare k above below)

theorem Packed.filled_slots (h : s.Packed) (k : Nat) (inside : k < s.count) :
    ∃ c, s.slots[k]? = some (some c) := by
  obtain ⟨b, c, hk⟩ := h.filled k inside
  exact ⟨c, (place_eq_iff.1 hk).2⟩

theorem Packed.map_fst_children (h : s.Packed) : s.children.map (·.1) = s.held :=
  map_fst_children_of_filled h.size_slots h.filled_slots

theorem Packed.length_children (h : s.Packed) : s.children.length = s.count := by
  rw [← List.length_map (·.1), h.map_fst_children]
  exact SortedBytes.length_held h.count_le

theorem Packed.sound_of_ascending (h : s.Packed) (ascending : s.held.Pairwise (· < ·)) :
    s.Sound where
  size_slots := h.size_slots
  count_le := h.count_le
  ascending := ascending
  filled := h.filled_slots
  spare k above below := place_eq_iff.1 (h.spare k above below)

theorem Packed.sound (h : s.Packed)
    (order : ∀ i j a b c d, i < j → j < s.count → s.place i = (some a, some (some c)) →
      s.place j = (some b, some (some d)) → a < b) : s.Sound := by
  refine h.sound_of_ascending (List.pairwise_iff_getElem.2 fun i j hi hj hij => ?_)
  obtain ⟨before, ha⟩ := getElem?_held_eq_some.1 (List.getElem?_eq_getElem hi)
  obtain ⟨inside, hb⟩ := getElem?_held_eq_some.1 (List.getElem?_eq_getElem hj)
  obtain ⟨a, c, hi'⟩ := h.filled i before
  obtain ⟨b, d, hj'⟩ := h.filled j inside
  obtain rfl := Option.some.inj (ha.symm.trans (place_eq_iff.1 hi').1)
  obtain rfl := Option.some.inj (hb.symm.trans (place_eq_iff.1 hj').1)
  exact order i j _ _ c d hij inside hi' hj'

theorem writeKey_eq (s : Keyed w α) {i : Nat} (hi : i < w) (b : UInt8) :
    ∃ t, s.writeKey i b = .ok t ∧ t.count = s.count ∧ t.slots = s.slots ∧
      ∀ k : Nat, t.keys[k]? = if k = i then some b else s.keys[k]? := by
  refine ⟨_, dif_pos hi, rfl, rfl, fun k => ?_⟩
  rw [Vector.getElem?_set]
  by_cases same : i = k
  · rw [if_pos same, if_pos same.symm]
  · rw [if_neg same, if_neg (Ne.symm same)]

theorem move_eq {s : Keyed w α} (size : s.slots.size = w) {i j : Nat} (hi : i < w) (hj : j < w) :
    ∃ t, s.move i j = .ok t ∧ t.count = s.count ∧ t.slots.size = w ∧
      (∀ k : Nat, t.keys[k]? = if k = j then s.keys[i]? else s.keys[k]?) ∧
      ∀ k : Nat, t.slots[k]? =
        if k = j then s.slots[i]? else if k = i then some none else s.slots[k]? := by
  have hi' : i < s.slots.size := by omega
  obtain ⟨cleared, clear, size₁, slots₁⟩ := Checked.write_eq hi' none
  have hj' : j < cleared.size := by omega
  obtain ⟨slots, put, size₂, slots₂⟩ := Checked.write_eq hj' s.slots[i]
  obtain ⟨t, written, count, same, keys⟩ :=
    writeKey_eq (⟨s.keys, slots, s.count⟩ : Keyed w α) hj s.keys[i]
  refine ⟨t, ?_, count, by rw [same, size₂, size₁, size], fun k => ?_, fun k => ?_⟩
  · rw [move, dif_pos hi, Checked.read_eq_ok hi']
    simp only [Checked.ok_bind, clear, put]
    exact written
  · rw [keys, Vector.getElem?_eq_getElem hi]
  · rw [same, slots₂, slots₁, Array.getElem?_eq_getElem hi']

theorem shiftUp_eq {s : Keyed w α} (size : s.slots.size = w) {i n : Nat} (fits : i + n < w) :
    ∃ t, s.shiftUp i n = .ok t ∧ t.count = s.count ∧ t.slots.size = w ∧
      (∀ k : Nat, t.keys[k]? = if i < k ∧ k ≤ i + n then s.keys[k - 1]? else s.keys[k]?) ∧
      ∀ k : Nat, k ≠ i →
        t.slots[k]? = if i < k ∧ k ≤ i + n then s.slots[k - 1]? else s.slots[k]? := by
  induction n generalizing s with
  | zero => exact ⟨s, rfl, rfl, size, fun k => by rw [if_neg (by omega)], fun k _ => by
      rw [if_neg (by omega)]⟩
  | succ n ih =>
    -- the last place moves first, into one that no later move reads
    obtain ⟨m, moved, count, size', keys, slots⟩ :=
      move_eq size (i := i + n) (j := i + n + 1) (by omega) fits
    obtain ⟨t, shifted, count', size'', keys', slots'⟩ := ih size' (by omega)
    refine ⟨t, ?_, by omega, size'', fun k => ?_, fun k hk => ?_⟩
    · rw [shiftUp, moved]
      exact shifted
    · clear ih
      grind
    · clear ih
      grind

theorem shiftDown_eq {s : Keyed w α} (size : s.slots.size = w) {i n : Nat} (fits : i + n < w)
    (free : s.slots[i]? = some none) :
    ∃ t, s.shiftDown i n = .ok t ∧ t.count = s.count ∧ t.slots.size = w ∧
      (∀ k : Nat, t.keys[k]? = if i ≤ k ∧ k < i + n then s.keys[k + 1]? else s.keys[k]?) ∧
      ∀ k : Nat, t.slots[k]? =
        if i ≤ k ∧ k < i + n then s.slots[k + 1]?
        else if k = i + n then some none else s.slots[k]? := by
  induction n generalizing s i with
  | zero => exact ⟨s, rfl, rfl, size, by grind, by grind⟩
  | succ n ih =>
    obtain ⟨m, moved, count, size', keys, slots⟩ :=
      move_eq size (i := i + 1) (j := i) (by omega) (by omega)
    obtain ⟨t, shifted, count', size'', keys', slots'⟩ :=
      ih (i := i + 1) size' (by omega) (by rw [slots]; simp)
    refine ⟨t, ?_, by omega, size'', fun k => ?_, fun k => ?_⟩
    · rw [shiftDown, moved]
      exact shifted
    · clear ih
      grind
    · clear ih
      grind

/-- The rows of `t` are those of `s` with `b` and `c` put in at place `i`. -/
structure Spread (i : Nat) (b : UInt8) (c : α) (s t : Keyed w α) : Prop where
  size_slots : t.slots.size = w
  count_eq : t.count = s.count + 1
  below : ∀ k < i, t.place k = s.place k
  here : t.place i = (some b, some (some c))
  above : ∀ k, i ≤ k → k < s.count → t.place (k + 1) = s.place k
  beyond : ∀ k, s.count < k → t.place k = s.place k

theorem Spread.inserted {i : Nat} (h : Spread i b c s t) (hi : i ≤ s.count)
    (absent : ∀ d, (b, d) ∉ s.children) : Inserted b c s.children t.children := by
  have count := h.count_eq
  refine ⟨absent, fun ⟨a, d⟩ => ?_⟩
  rw [mem_children_iff, mem_children_iff]
  constructor
  · rintro ⟨k, inside, hk⟩
    rcases Nat.lt_trichotomy k i with lt | rfl | gt
    · exact .inr ⟨k, by omega, h.below k lt ▸ hk⟩
    · rw [h.here] at hk
      obtain ⟨rfl, rfl⟩ : b = a ∧ c = d := by simpa using hk
      exact .inl rfl
    · obtain ⟨k, rfl⟩ : ∃ j, k = j + 1 := ⟨k - 1, by omega⟩
      exact .inr ⟨k, by omega, h.above k (by omega) (by omega) ▸ hk⟩
  · rintro (same | ⟨k, inside, hk⟩)
    · obtain ⟨rfl, rfl⟩ := Prod.mk.inj same
      exact ⟨i, by omega, h.here⟩
    · rcases Nat.lt_or_ge k i with lt | ge
      · exact ⟨k, by omega, (h.below k lt).trans hk⟩
      · exact ⟨k + 1, by omega, (h.above k ge inside).trans hk⟩

theorem Spread.packed {i : Nat} (h : Spread i b c s t) (hs : s.Packed) (room : s.count < w)
    (hi : i ≤ s.count) : t.Packed := by
  have count := h.count_eq
  refine ⟨h.size_slots, by omega, fun k inside => ?_, fun k above below => ?_⟩
  · rcases Nat.lt_trichotomy k i with lt | rfl | gt
    · exact h.below k lt ▸ hs.filled k (by omega)
    · exact ⟨b, c, h.here⟩
    · obtain ⟨k, rfl⟩ : ∃ j, k = j + 1 := ⟨k - 1, by omega⟩
      exact h.above k (by omega) (by omega) ▸ hs.filled k (by omega)
  · exact (h.beyond k (by omega)).trans (hs.spare k (by omega) below)

theorem Spread.held_eq {i : Nat} (h : Spread i b c s t) (hi : i ≤ s.count) (room : s.count < w) :
    t.held = s.held.insertIdx i b := by
  have count := h.count_eq
  have length : s.held.length = s.count := SortedBytes.length_held (Nat.le_of_lt room)
  have key {j k : Nat} (same : t.place j = s.place k) : t.keys[j]? = s.keys[k]? :=
    congrArg Prod.fst same
  apply List.ext_getElem?
  intro k
  rw [List.getElem?_insertIdx, length, held, held, SortedBytes.getElem?_held,
    SortedBytes.getElem?_held, SortedBytes.getElem?_held, count]
  rcases Nat.lt_trichotomy k i with lt | rfl | gt
  · rw [if_pos (by omega), if_pos lt, if_pos (by omega), key (h.below k lt)]
  · rw [if_pos (by omega), if_neg (Nat.lt_irrefl k), if_pos rfl, if_pos hi,
      (place_eq_iff.1 h.here).1]
  · obtain ⟨k, rfl⟩ : ∃ j, k = j + 1 := ⟨k - 1, by omega⟩
    rw [if_neg (Nat.lt_asymm gt), if_neg (Nat.ne_of_gt gt), Nat.add_sub_cancel]
    by_cases inside : k < s.count
    · rw [if_pos (Nat.succ_lt_succ inside), if_pos inside, key (h.above k (by omega) inside)]
    · rw [if_neg (mt Nat.lt_of_succ_lt_succ inside), if_neg inside]

theorem Spread.sound {i : Nat} (h : Spread i b c s t) (hs : s.Sound) (room : s.count < w)
    (cut : SortedBytes.IsCut b s.held i) (absent : ∀ d, (b, d) ∉ s.children) : t.Sound := by
  have count := h.count_eq
  have hi : i ≤ s.count := length_held hs ▸ cut.1
  have low {k : Nat} {a : UInt8} {d : α} (hk : k < i) (ha : s.place k = (some a, some (some d))) :
      a < b :=
    (cut.2 k a (getElem?_held_eq_some.2 ⟨by omega, (place_eq_iff.1 ha).1⟩)).2 hk
  have high {k : Nat} {a : UInt8} {d : α} (hk : i ≤ k) (inside : k < s.count)
      (ha : s.place k = (some a, some (some d))) : b < a := by
    have above := mt (cut.2 k a (getElem?_held_eq_some.2 ⟨inside, (place_eq_iff.1 ha).1⟩)).1
      (by omega)
    have other : b ≠ a := fun same => absent d (mem_children_iff.2 ⟨k, inside, same ▸ ha⟩)
    exact UInt8.lt_of_le_of_ne (UInt8.not_lt.1 above) other
  refine (h.packed hs.packed room hi).sound fun j k x y d e hjk inside hx hy => ?_
  rcases Nat.lt_trichotomy k i with lt | rfl | gt
  · rw [h.below j (by omega)] at hx
    rw [h.below k lt] at hy
    exact lt_of_place hs hjk (by omega) hx hy
  · rw [h.below j hjk] at hx
    obtain ⟨rfl, -⟩ : b = y ∧ c = e := by simpa [h.here] using hy
    exact low hjk hx
  · obtain ⟨k, rfl⟩ : ∃ m, k = m + 1 := ⟨k - 1, by omega⟩
    rw [h.above k (by omega) (by omega)] at hy
    rcases Nat.lt_trichotomy j i with lt | rfl | gt
    · rw [h.below j lt] at hx
      exact lt_of_place hs (by omega) (by omega) hx hy
    · obtain ⟨rfl, -⟩ : b = x ∧ c = d := by simpa [h.here] using hx
      exact high (by omega) (by omega) hy
    · obtain ⟨j, rfl⟩ : ∃ m, j = m + 1 := ⟨j - 1, by omega⟩
      rw [h.above j (by omega) (by omega)] at hx
      exact lt_of_place hs (by omega) (by omega) hx hy

theorem add_spread (size : s.slots.size = w) (narrow : w ≤ 255) (room : s.count < w) (b : UInt8)
    (c : α) :
    ∃ t, s.add b c = .ok t ∧ Spread (SortedBytes.insertPosition b s.keys s.count) b c s t := by
  have hi := SortedBytes.insertPosition_le b s.keys s.count
  generalize position : SortedBytes.insertPosition b s.keys s.count = i at hi ⊢
  obtain ⟨m, shifted, count, size', keys, slots⟩ :=
    shiftUp_eq size (i := i) (n := s.count - i) (by omega)
  obtain ⟨r, written, count', same, keys'⟩ := writeKey_eq m (i := i) (by omega) b
  have inside : i < r.slots.size := by rw [same, size']; omega
  obtain ⟨put, filled, size'', slots'⟩ := Checked.write_eq inside (some c)
  have counted : Checked.increment 255 s.count = .ok (s.count + 1) :=
    Checked.increment_eq_ok (by omega)
  have other {k : Nat} (hk : k ≠ i) : place ⟨r.keys, put, s.count + 1⟩ k =
      if i < k ∧ k ≤ s.count then s.place (k - 1) else s.place k := by
    rw [place_eq_iff, keys', slots', if_neg hk, if_neg hk, same, keys, slots k hk,
      Nat.add_sub_cancel' hi]
    split <;> exact ⟨rfl, rfl⟩
  refine ⟨⟨r.keys, put, s.count + 1⟩, ?_, {
    size_slots := by rw [size'', same, size']
    count_eq := rfl
    below := fun k hk => by rw [other (by omega), if_neg (by omega)]
    here := place_eq_iff.2 ⟨by rw [keys', if_pos rfl], by rw [slots', if_pos rfl]⟩
    above := fun k hk inside => by rw [other (by omega), if_pos (by omega), Nat.add_sub_cancel]
    beyond := fun k hk => by rw [other (by omega), if_neg (by omega)] }⟩
  rw [add, if_pos room, position]
  simp only [shifted, written, filled, counted, count, count', Checked.ok_bind]
  rfl

theorem add_of_count_eq (full : s.count = w) (b : UInt8) (c : α) :
    s.add b c = .error .noSpaceLeft :=
  if_neg (Nat.not_lt.2 (Nat.le_of_eq full.symm))

theorem add_eq (h : s.Sound) (narrow : w ≤ 255) (room : s.count < w)
    (absent : ∀ d, (b, d) ∉ s.children) (c : α) :
    ∃ t, s.add b c = .ok t ∧ t.Sound ∧ Inserted b c s.children t.children := by
  have unused : b ∉ SortedBytes.held s.keys s.count := by
    intro mem
    rw [← held, ← map_fst_children h] at mem
    obtain ⟨⟨a, d⟩, hd, rfl⟩ := List.mem_map.1 mem
    exact absent d hd
  have cut := SortedBytes.isCut_insertPosition h.ascending unused
  obtain ⟨t, added, spread⟩ := add_spread h.size_slots narrow room b c
  exact ⟨t, added, spread.sound h room cut absent,
    spread.inserted (SortedBytes.insertPosition_le ..) absent⟩

/-- The rows of `t` are those of `s` without place `i`. -/
structure Gathered (i : Nat) (s t : Keyed w α) : Prop where
  size_slots : t.slots.size = w
  count_eq : s.count = t.count + 1
  below : ∀ k < i, t.place k = s.place k
  above : ∀ k, i ≤ k → k < t.count → t.place k = s.place (k + 1)
  last : t.place t.count = (some filler, some none)
  beyond : ∀ k, t.count < k → t.place k = s.place k

theorem Gathered.erased {i : Nat} (h : Gathered i s t) (hs : s.Sound) (hi : i < s.count)
    (hb : s.place i = (some b, some (some c))) : Erased b c s.children t.children := by
  have count := h.count_eq
  refine ⟨mem_children_iff.2 ⟨i, hi, hb⟩, fun ⟨a, d⟩ => ?_⟩
  rw [mem_children_iff, mem_children_iff]
  constructor
  · rintro ⟨k, inside, hk⟩
    rcases Nat.lt_or_ge k i with lt | ge
    · rw [h.below k lt] at hk
      exact ⟨⟨k, by omega, hk⟩, UInt8.ne_of_lt (lt_of_place hs lt hi hk hb)⟩
    · rw [h.above k ge inside] at hk
      exact ⟨⟨k + 1, by omega, hk⟩,
        (UInt8.ne_of_lt (lt_of_place hs (by omega) (by omega) hb hk)).symm⟩
  · rintro ⟨⟨k, inside, hk⟩, other⟩
    rcases Nat.lt_trichotomy k i with lt | rfl | gt
    · exact ⟨k, by omega, (h.below k lt).trans hk⟩
    · obtain ⟨rfl, -⟩ : b = a ∧ c = d := by simpa [hb] using hk
      exact absurd rfl other
    · obtain ⟨k, rfl⟩ : ∃ j, k = j + 1 := ⟨k - 1, by omega⟩
      exact ⟨k, by omega, (h.above k (by omega) (by omega)).trans hk⟩

theorem Gathered.packed {i : Nat} (h : Gathered i s t) (hs : s.Packed) : t.Packed := by
  have count := h.count_eq
  have bound := hs.count_le
  refine ⟨h.size_slots, by omega, fun k inside => ?_, fun k above below => ?_⟩
  · rcases Nat.lt_or_ge k i with lt | ge
    · exact h.below k lt ▸ hs.filled k (by omega)
    · exact h.above k ge inside ▸ hs.filled (k + 1) (by omega)
  · rcases Nat.eq_or_lt_of_le above with rfl | above
    · exact h.last
    · exact (h.beyond k above).trans (hs.spare k (by omega) below)

theorem Gathered.sound {i : Nat} (h : Gathered i s t) (hs : s.Sound) : t.Sound := by
  have count := h.count_eq
  refine (h.packed hs.packed).sound fun j k x y d e hjk inside hx hy => ?_
  rcases Nat.lt_or_ge k i with lt | ge
  · rw [h.below j (by omega)] at hx
    rw [h.below k lt] at hy
    exact lt_of_place hs hjk (by omega) hx hy
  · rw [h.above k ge inside] at hy
    rcases Nat.lt_or_ge j i with lt' | ge'
    · rw [h.below j lt'] at hx
      exact lt_of_place hs (by omega) (by omega) hx hy
    · rw [h.above j ge' (by omega)] at hx
      exact lt_of_place hs (by omega) (by omega) hx hy

theorem erase_gathered (size : s.slots.size = w) (bound : s.count ≤ w) {i : Nat}
    (found : s.position? b = .ok (some i)) (inside : i < s.count) {child? : Option α}
    (hc : s.slots[i]? = some child?) : ∃ t, s.erase b = .ok (child?, t) ∧ Gathered i s t := by
  have slot : i < s.slots.size := by rw [size]; omega
  obtain ⟨cleared, clear, size', slots⟩ := Checked.write_eq slot none
  have free : cleared[i]? = some none := by rw [slots, if_pos rfl]
  obtain ⟨m, shifted, -, size'', keys', slots'⟩ :=
    shiftDown_eq (s := ⟨s.keys, cleared, s.count⟩) (i := i) (n := s.count - 1 - i)
      (size'.trans size) (by omega) free
  obtain ⟨r, written, -, same, keys''⟩ := writeKey_eq m (i := s.count - 1) (by omega) filler
  have counted : Checked.decrement s.count = .ok (s.count - 1) :=
    Checked.decrement_eq_ok (by omega)
  have other {k : Nat} (apart : k ≠ s.count - 1) : place ⟨r.keys, r.slots, s.count - 1⟩ k =
      if i ≤ k ∧ k < s.count - 1 then s.place (k + 1) else s.place k := by
    rw [place_eq_iff, keys'', if_neg apart, keys', same, slots', show i + (s.count - 1 - i) =
      s.count - 1 by omega, if_neg apart]
    split
    · exact ⟨rfl, (slots _).trans (if_neg (by omega))⟩
    · exact ⟨rfl, (slots _).trans (if_neg (by omega))⟩
  refine ⟨⟨r.keys, r.slots, s.count - 1⟩, ?_, {
    size_slots := by rw [same, size'']
    count_eq := (Nat.sub_add_cancel (by omega)).symm
    below := fun k hk => by rw [other (by omega), if_neg (by omega)]
    above := fun k hk inside => by rw [other (Nat.ne_of_lt inside), if_pos ⟨hk, inside⟩]
    last := by
      change place _ (s.count - 1) = _
      rw [place_eq_iff, keys'', if_pos rfl, same, slots', if_neg (by omega), if_pos (by omega)]
      exact ⟨rfl, rfl⟩
    beyond := fun k (hk : s.count - 1 < k) => by rw [other (by omega), if_neg (by omega)] }⟩
  rw [erase, found]
  simp only [Checked.ok_bind, Checked.read_of_getElem? hc, clear, counted, shifted, written]
  rfl

theorem erase_cases (h : s.Sound) (b : UInt8) :
    (∃ c t, s.erase b = .ok (some c, t) ∧ t.Sound ∧ Erased b c s.children t.children) ∨
      s.erase b = .ok (none, s) ∧ ∀ c, (b, c) ∉ s.children := by
  rcases position?_cases h b with ⟨i, c, found, inside, hb⟩ | ⟨found, absent⟩
  · obtain ⟨t, erased, gathered⟩ :=
      erase_gathered h.size_slots h.count_le found inside (place_eq_iff.1 hb).2
    exact .inl ⟨c, t, erased, gathered.sound h, gathered.erased h inside hb⟩
  · refine .inr ⟨?_, absent⟩
    rw [erase, found]
    rfl

/-- The rows of `t` are those of `s` with `b` and `c` at place `i`. -/
structure Swapped (i : Nat) (b : UInt8) (c : α) (s t : Keyed w α) : Prop where
  size_slots : t.slots.size = w
  count_eq : t.count = s.count
  here : t.place i = (some b, some (some c))
  other : ∀ k, k ≠ i → t.place k = s.place k

section Swapped

variable {i : Nat} {d : α} (h : Swapped i b c s t) (hb : s.place i = (some b, some (some d)))

include h hb

theorem Swapped.packed (hs : s.Packed) : t.Packed := by
  have count := h.count_eq
  have bound := hs.count_le
  refine ⟨h.size_slots, by omega, fun k inside => ?_, fun k above below => ?_⟩
  · by_cases same : k = i
    · exact ⟨b, c, same ▸ h.here⟩
    · exact h.other k same ▸ hs.filled k (by omega)
  · have spare := hs.spare k (by omega) below
    have same : k ≠ i := by
      rintro rfl
      simp [hb] at spare
    exact (h.other k same).trans spare

variable (hs : s.Sound)

include hs

theorem Swapped.sound : t.Sound := by
  have count := h.count_eq
  have byte {k : Nat} {a : UInt8} {e : α} (hk : t.place k = (some a, some (some e))) :
      ∃ e, s.place k = (some a, some (some e)) := by
    by_cases same : k = i
    · subst same
      obtain ⟨rfl, -⟩ : b = a ∧ c = e := by simpa [h.here] using hk
      exact ⟨d, hb⟩
    · exact ⟨e, h.other k same ▸ hk⟩
  refine (h.packed hb hs.packed).sound fun j k x y d e hjk inside hx hy => ?_
  obtain ⟨_, hx⟩ := byte hx
  obtain ⟨_, hy⟩ := byte hy
  exact lt_of_place hs hjk (by omega) hx hy

theorem Swapped.replaced (hi : i < s.count) : Replaced b c s.children t.children := by
  have count := h.count_eq
  refine ⟨⟨d, mem_children_iff.2 ⟨i, hi, hb⟩⟩, fun ⟨a, e⟩ => ?_⟩
  rw [mem_children_iff, mem_children_iff]
  constructor
  · rintro ⟨k, inside, hk⟩
    by_cases same : k = i
    · subst same
      obtain ⟨rfl, rfl⟩ : b = a ∧ c = e := by simpa [h.here] using hk
      exact .inl rfl
    · rw [h.other k same] at hk
      refine .inr ⟨⟨k, by omega, hk⟩, ?_⟩
      rcases Nat.lt_or_gt_of_ne same with lt | gt
      · exact UInt8.ne_of_lt (lt_of_place hs lt hi hk hb)
      · exact (UInt8.ne_of_lt (lt_of_place hs gt (by omega) hb hk)).symm
  · rintro (same | ⟨⟨k, inside, hk⟩, apart⟩)
    · obtain ⟨rfl, rfl⟩ := Prod.mk.inj same
      exact ⟨i, by omega, h.here⟩
    · refine ⟨k, by omega, (h.other k ?_).trans hk⟩
      rintro rfl
      obtain ⟨rfl, -⟩ : b = a ∧ d = e := by simpa [hb] using hk
      exact apart rfl

end Swapped

theorem replace_swapped (size : s.slots.size = w) (bound : s.count ≤ w) {i : Nat}
    (found : s.position? b = .ok (some i)) (inside : i < s.count) {a : UInt8} {d : α}
    (ha : s.place i = (some a, some (some d))) (c : α) :
    ∃ t, s.replace b c = .ok t ∧ Swapped i a c s t := by
  obtain ⟨hk, hd⟩ := place_eq_iff.1 ha
  have slot : i < s.slots.size := by rw [size]; omega
  obtain ⟨filled, put, size', slots⟩ := Checked.write_eq slot (some c)
  refine ⟨⟨s.keys, filled, s.count⟩, ?_, {
    size_slots := size'.trans size
    count_eq := rfl
    here := place_eq_iff.2 ⟨hk, by rw [slots, if_pos rfl]⟩
    other := fun k apart => place_eq_iff.2 ⟨rfl, by rw [slots, if_neg apart]⟩ }⟩
  rw [replace, found]
  simp only [Checked.ok_bind, Checked.read_of_getElem? hd, put]
  rfl

theorem replace_cases (h : s.Sound) (b : UInt8) (c : α) :
    (∃ t, s.replace b c = .ok t ∧ t.Sound ∧ Replaced b c s.children t.children) ∨
      s.replace b c = .ok s ∧ ∀ d, (b, d) ∉ s.children := by
  rcases position?_cases h b with ⟨i, d, found, inside, hb⟩ | ⟨found, absent⟩
  · obtain ⟨t, put, swapped⟩ := replace_swapped h.size_slots h.count_le found inside hb c
    exact .inl ⟨t, put, swapped.sound hb h, swapped.replaced hb h inside⟩
  · refine .inr ⟨?_, absent⟩
    rw [replace, found]
    rfl

theorem place_of_find? (found : s.find? b = .ok (some c)) :
    ∃ i, s.position? b = .ok (some i) ∧ Checked.read s.slots i = .ok (some c) := by
  rw [find?] at found
  obtain ⟨i?, position, here⟩ := Checked.exists_of_bind_eq_ok found
  cases i? with
  | none => cases here
  | some i => exact ⟨i, position, here⟩

theorem replace_self (found : s.find? b = .ok (some c)) : s.replace b c = .ok s := by
  obtain ⟨i, position, here⟩ := place_of_find? found
  rw [replace, position]
  simp only [Checked.ok_bind, here, Checked.write_self here]
  rfl

end AdaptiveRadix.Keyed
