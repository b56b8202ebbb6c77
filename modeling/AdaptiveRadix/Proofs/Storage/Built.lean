import AdaptiveRadix.Proofs.Storage
import Mathlib.Data.List.Perm.Subperm

/-!
Storages that the operations lead to, also where a byte was added while it was held. A keyed storage
then lists the byte twice, and an indexed one keeps the older child in a slot that no byte names any
more. Either can be told from outside: a storage with as many children as it counts, under ascending
bytes, is sound.
-/

namespace AdaptiveRadix

open Edges

variable {α σ τ : Type} {w : Nat} {b : UInt8} {c : α} {child? : Option α}

namespace Keyed

variable {s t : Keyed w α}

theorem packed_empty : (empty : Keyed w α).Packed :=
  sound_empty.packed

section Packed

variable (h : s.Packed)

include h

theorem Packed.position?_cases (b : UInt8) :
    (∃ i a d, s.position? b = .ok (some i) ∧ i < s.count ∧ s.place i = (some a, some (some d))) ∨
      s.position? b = .ok none := by
  have found : s.position? b = .ok (SortedBytes.position? b s.keys s.count) := if_pos h.count_le
  cases position : SortedBytes.position? b s.keys s.count with
  | none => exact .inr (position ▸ found)
  | some i =>
    have inside := SortedBytes.lt_of_position?_eq_some h.count_le position
    obtain ⟨a, d, hi⟩ := h.filled i inside
    exact .inl ⟨i, a, d, position ▸ found, inside, hi⟩

theorem packed_of_add (narrow : w ≤ 255) (added : s.add b c = .ok t) : t.Packed := by
  by_cases room : s.count < w
  · obtain ⟨t', added', spread⟩ := add_spread h.size_slots narrow room b c
    obtain rfl := Except.ok.inj (added'.symm.trans added)
    exact spread.packed h room (SortedBytes.insertPosition_le ..)
  · rw [add, if_neg room] at added
    cases added

theorem packed_of_erase (erased : s.erase b = .ok (child?, t)) : t.Packed := by
  rcases h.position?_cases b with ⟨i, a, d, found, inside, hi⟩ | missing
  · obtain ⟨t', erased', gathered⟩ :=
      erase_gathered h.size_slots h.count_le found inside (place_eq_iff.1 hi).2
    cases erased'.symm.trans erased
    exact gathered.packed h
  · rw [erase, missing] at erased
    cases erased
    exact h

theorem packed_of_replace (put : s.replace b c = .ok t) : t.Packed := by
  rcases h.position?_cases b with ⟨i, a, d, found, inside, hi⟩ | missing
  · obtain ⟨t', put', swapped⟩ := replace_swapped h.size_slots h.count_le found inside hi c
    obtain rfl := Except.ok.inj (put'.symm.trans put)
    exact swapped.packed hi h
  · rw [replace, missing] at put
    cases put
    exact h

theorem packed_of_resize {v : Nat} {p : Keyed v α × Keyed w α} (moved : s.resize = .ok p) :
    p.1.Packed := by
  by_cases fits : s.count ≤ v
  · obtain ⟨q, moved', packed, -⟩ := resize_packed h fits
    exact Except.ok.inj (moved'.symm.trans moved) ▸ packed
  · rw [resize, if_neg fits] at moved
    cases moved

end Packed

end Keyed

namespace Indexed

variable {s t : Indexed α}

def filledSlots (s : Indexed α) : List Nat :=
  (List.range width).filter fun i => (s.slots[i]?.join).isSome

/-- Bytes in use name distinct slots in use, but not each of these has a name. -/
structure Loose (s : Indexed α) : Prop where
  size_slots : s.slots.size = width
  filled : ∀ b, s.entry b ≠ vacant → ∃ c, s.slots[(s.entry b).toNat]? = some (some c)
  entry_injective : ∀ a b, s.entry a ≠ vacant → s.entry a = s.entry b → a = b
  occupied_iff : ∀ i < 64, s.occupied.check i = .ok true ↔ ∃ c, s.slots[i]? = some (some c)
  count_eq : s.count = s.filledSlots.length

theorem mem_filledSlots {i : Nat} :
    i ∈ s.filledSlots ↔ i < width ∧ ∃ c, s.slots[i]? = some (some c) := by
  rw [filledSlots, List.mem_filter, List.mem_range, Option.isSome_iff_exists]
  simp only [Option.join_eq_some_iff]

theorem nodup_filledSlots : s.filledSlots.Nodup :=
  List.nodup_range.filter _

theorem Loose.count_le (h : s.Loose) : s.count ≤ width := by
  rw [h.count_eq, filledSlots]
  exact Nat.le_trans (List.length_filter_le ..) (Nat.le_of_eq List.length_range)

theorem loose_empty : (empty : Indexed α).Loose := by
  have bare (i : Nat) (c : α) : (empty : Indexed α).slots[i]? ≠ some (some c) := by
    rw [empty, Array.getElem?_replicate]
    split <;> simp
  refine ⟨sound_empty.size_slots, fun b used => absurd (entry_empty b) used,
    sound_empty.entry_injective, fun i hi => ?_, ?_⟩
  · rw [sound_empty.occupied_iff i hi]
    refine iff_of_false ?_ ?_
    · rintro ⟨b, used, -⟩
      exact used (entry_empty b)
    · rintro ⟨c, hc⟩
      exact bare i c hc
  · have none_filled : (empty : Indexed α).filledSlots = [] :=
      List.eq_nil_iff_forall_not_mem.2 fun i hi => by
        obtain ⟨-, c, hc⟩ := mem_filledSlots.1 hi
        exact bare i c hc
    rw [none_filled]
    rfl

theorem perm_filledSlots_of_filled {i : Nat} (hi : i < width)
    (free : ∀ d, s.slots[i]? ≠ some (some d))
    (slots_eq : ∀ k : Nat, t.slots[k]? = if k = i then some (some c) else s.slots[k]?) :
    t.filledSlots.Perm (i :: s.filledSlots) := by
  have fresh : i ∉ s.filledSlots := fun mem => by
    obtain ⟨-, d, hd⟩ := mem_filledSlots.1 mem
    exact free d hd
  refine (List.perm_ext_iff_of_nodup nodup_filledSlots
    (List.nodup_cons.2 ⟨fresh, nodup_filledSlots⟩)).2 fun k => ?_
  rw [List.mem_cons, mem_filledSlots, mem_filledSlots, slots_eq]
  by_cases same : k = i
  · simp [same, hi]
  · simp [same]

theorem Rewritten.loose_of_free {i : Nat} (h : Rewritten b i.toUInt8 i (some c) s t)
    (hs : s.Loose) (hi : i < width) (free : ∀ d, s.slots[i]? ≠ some (some d))
    (count : t.count = s.count + 1) : t.Loose := by
  have apart {a : UInt8} (used : s.entry a ≠ vacant) : (s.entry a).toNat ≠ i := fun here => by
    obtain ⟨d, hd⟩ := hs.filled a used
    exact free d (here ▸ hd)
  refine ⟨h.size_slots.trans hs.size_slots, fun a used => ?_, fun a d used same => ?_,
    fun k hk => ?_, ?_⟩
  · by_cases same : a = b
    · rw [same, h.entry_self, toNat_toUInt8 hi, h.slots_eq, if_pos rfl]
      exact ⟨c, rfl⟩
    · rw [h.entry_ne same] at used ⊢
      rw [h.slots_eq, if_neg (apart used)]
      exact hs.filled a used
  · have other {a : UInt8} (distinct : a ≠ b) (used : t.entry a ≠ vacant) :
        t.entry a ≠ t.entry b := fun same => by
      rw [h.entry_ne distinct] at used same
      rw [h.entry_self] at same
      exact apart used (same ▸ toNat_toUInt8 hi)
    by_cases ha : a = b
    · by_contra distinct
      subst ha
      exact other (Ne.symm distinct) (same ▸ used) same.symm
    · by_cases hd : d = b
      · subst hd
        exact absurd same (other ha used)
      · rw [h.entry_ne ha] at used same
        exact hs.entry_injective a d used (h.entry_ne hd ▸ same)
  -- if `b` named another slot before, that slot stays in use without a name
  · rw [h.check_eq, h.slots_eq]
    by_cases same : k = i
    · simp [same]
    · simp [same, hs.occupied_iff k hk]
  · rw [count, hs.count_eq, (perm_filledSlots_of_filled hi free h.slots_eq).length_eq]
    rfl

theorem Rewritten.loose_of_used (h : Rewritten b vacant (s.entry b).toNat none s t)
    (hs : s.Loose) (used : s.entry b ≠ vacant) (count : s.count = t.count + 1) : t.Loose := by
  obtain ⟨c, hc⟩ := hs.filled b used
  have apart {a : UInt8} (distinct : a ≠ b) (used : s.entry a ≠ vacant) :
      (s.entry a).toNat ≠ (s.entry b).toNat := fun same =>
    distinct (hs.entry_injective a b used (UInt8.toNat_inj.1 same))
  have named {a : UInt8} (used : t.entry a ≠ vacant) : a ≠ b := fun same =>
    used (same ▸ h.entry_self)
  have hi : (s.entry b).toNat < width := hs.size_slots ▸ (Array.getElem?_eq_some_iff.1 hc).1
  refine ⟨h.size_slots.trans hs.size_slots, fun a used => ?_, fun a d used same => ?_,
    fun k hk => ?_, ?_⟩
  · have distinct := named used
    rw [h.entry_ne distinct] at used ⊢
    rw [h.slots_eq, if_neg (apart distinct used)]
    exact hs.filled a used
  · have ha := named used
    have hd := named (same ▸ used)
    rw [h.entry_ne ha] at used same
    exact hs.entry_injective a d used (h.entry_ne hd ▸ same)
  · rw [h.check_eq, h.slots_eq]
    by_cases same : k = (s.entry b).toNat
    · simp [same]
    · simp [same, hs.occupied_iff k hk]
  · have back (k : Nat) : s.slots[k]? =
        if k = (s.entry b).toNat then some (some c) else t.slots[k]? := by
      rw [h.slots_eq]
      split
      · next here => rw [here, hc]
      · rfl
    have free (d : α) : t.slots[(s.entry b).toNat]? ≠ some (some d) := by
      simp [h.slots_eq]
    have := (perm_filledSlots_of_filled hi free back).length_eq
    rw [← hs.count_eq, count, List.length_cons] at this
    exact Nat.succ.inj this

section Loose

variable (h : s.Loose)

include h

theorem loose_of_add (added : s.add b c = .ok t) : t.Loose := by
  cases found : s.occupied.firstEmpty with
  | none =>
    rw [add, found] at added
    cases added
  | some i =>
    by_cases hi : i < width
    · obtain ⟨t', added', rewritten, count⟩ :=
        add_rewritten h.size_slots found hi (Nat.lt_of_le_of_lt h.count_le (by decide)) b c
      obtain rfl := Except.ok.inj (added'.symm.trans added)
      refine rewritten.loose_of_free h hi (fun d taken => ?_) count
      have marked := (h.occupied_iff i (Nat.lt_trans hi (by decide))).2 ⟨d, taken⟩
      rw [(Bitset.firstEmpty_eq_some found).1] at marked
      cases marked
    · rw [add, found] at added
      simp only [if_neg hi] at added
      cases added

theorem loose_of_erase (erased : s.erase b = .ok (child?, t)) : t.Loose := by
  by_cases used : s.entry b = vacant
  · cases (erase_vacant used).symm.trans erased
    exact h
  · obtain ⟨c, hc⟩ := h.filled b used
    have slot : (s.entry b).toNat ∈ s.filledSlots :=
      mem_filledSlots.2 ⟨h.size_slots ▸ (Array.getElem?_eq_some_iff.1 hc).1, c, hc⟩
    obtain ⟨t', rewritten, count, erased'⟩ :=
      erase_rewritten h.size_slots used hc (h.count_eq ▸ List.length_pos_of_mem slot)
    obtain ⟨-, -, same⟩ := Checked.exists_of_bind_eq_ok (erased'.symm.trans erased)
    cases same
    exact rewritten.loose_of_used h used count

theorem loose_of_replace (put : s.replace b c = .ok t) : t.Loose := by
  by_cases used : s.entry b = vacant
  · rw [replace, find?, if_pos used] at put
    cases put
    exact h
  · obtain ⟨d, hd⟩ := h.filled b used
    obtain ⟨slot, -⟩ := Array.getElem?_eq_some_iff.1 hd
    obtain ⟨slots, written, size, slots_eq⟩ := Checked.write_eq slot (some c)
    rw [replace, find?, if_neg used, Checked.read_of_getElem? hd] at put
    simp only [written, Checked.ok_bind] at put
    cases put
    have filled (k : Nat) :
        (∃ c, slots[k]? = some (some c)) ↔ ∃ c, s.slots[k]? = some (some c) := by
      rw [slots_eq]
      split
      · next here => simp [here, hd]
      · rfl
    refine { h with
      size_slots := size.trans h.size_slots
      filled := fun a used => (filled _).2 (h.filled a used)
      occupied_iff := fun i hi => (h.occupied_iff i hi).trans (filled i).symm
      count_eq := h.count_eq.trans (congrArg List.length (List.filter_congr fun k _ => ?_)) }
    rw [Bool.eq_iff_iff, Option.isSome_iff_exists, Option.isSome_iff_exists]
    simp only [Option.join_eq_some_iff, filled]

theorem Loose.sound (complete : s.children.length = s.count) : s.Sound := by
  have names : s.count = (Bytes.all.filter fun b => s.entry b ≠ vacant).length :=
    complete.symm.trans (length_children_of_filled h.filled)
  have bound {i : Nat} (there : ∃ c, s.slots[i]? = some (some c)) : i < width := by
    obtain ⟨c, hc⟩ := there
    exact h.size_slots ▸ (Array.getElem?_eq_some_iff.1 hc).1
  have within : (table s.named?).map (·.2.toNat) ⊆ s.filledSlots := fun i hi => by
    obtain ⟨b, used, rfl⟩ := mem_positions.1 hi
    exact mem_filledSlots.2 ⟨bound (h.filled b used), h.filled b used⟩
  have lengths : s.filledSlots.length ≤ ((table s.named?).map (·.2.toNat)).length := by
    rw [List.length_map, length_named, ← names]
    exact Nat.le_of_eq h.count_eq.symm
  have all :=
    ((nodup_positions h.entry_injective).subperm within).perm_of_length_le lengths
  have named (i : Nat) : (∃ c, s.slots[i]? = some (some c)) ↔
      ∃ b, s.entry b ≠ vacant ∧ (s.entry b).toNat = i := by
    rw [← mem_positions, all.mem_iff, mem_filledSlots]
    exact (and_iff_right_of_imp bound).symm
  exact {
    size_slots := h.size_slots
    entry_lt := fun b used => bound (h.filled b used)
    entry_injective := h.entry_injective
    filled_iff := fun i _ => named i
    occupied_iff := fun i hi => (h.occupied_iff i hi).trans (named i)
    count_eq := names }

end Loose

theorem moveInto_keeps {P : τ → Prop} {put : τ → UInt8 → α → Checked τ}
    (keeps : ∀ x b c y, P x → put x b c = .ok y → P y) {x : τ} (hx : P x) {p : τ × Indexed α}
    (moved : s.moveInto put x = .ok p) : P p.1 := by
  refine Checked.foldlM_keeps (P := fun p : τ × Indexed α => P p.1) (fun p b q hp stepped => ?_)
    hx moved
  obtain ⟨⟨_ | c, s'⟩, -, stepped⟩ := Checked.exists_of_bind_eq_ok stepped
  · cases stepped
    exact hp
  · obtain ⟨y, added, stepped⟩ := Checked.exists_of_bind_eq_ok stepped
    cases stepped
    exact keeps p.1 b c y hp added

end Indexed

namespace Direct

variable {s t : Direct α}

section Sound

variable (h : s.Sound)

include h

theorem sound_of_replace (put : s.replace b c = .ok t) : t.Sound := by
  rcases replace_cases h b c with ⟨t', put', sound, -⟩ | ⟨put', -⟩
  · exact Except.ok.inj (put'.symm.trans put) ▸ sound
  · exact Except.ok.inj (put'.symm.trans put) ▸ h

/-- Adding a byte that is held puts the new child in place of the old one. -/
theorem add_eq_replace {d : α} (held : (b, d) ∈ s.children) (c : α) :
    s.add b c = s.replace b c := by
  obtain ⟨slots, put, -, -⟩ := write_eq h.size_slots b (some c)
  rw [add, replace, find?_eq h.size_slots, (ascending_children s).lookup_eq_some_iff.2 held]
  simp only [put, Checked.ok_bind]

theorem sound_of_add (added : s.add b c = .ok t) : t.Sound := by
  by_cases absent : ∀ d, (b, d) ∉ s.children
  · obtain ⟨t', added', sound, -⟩ := add_eq h absent c
    exact Except.ok.inj (added'.symm.trans added) ▸ sound
  · obtain ⟨d, held⟩ := not_forall_not.1 absent
    exact sound_of_replace h (add_eq_replace h held c ▸ added)

theorem sound_of_erase (erased : s.erase b = .ok (child?, t)) : t.Sound := by
  rcases erase_cases h b with ⟨c, t', erased', sound, -⟩ | ⟨erased', -⟩
  · cases erased'.symm.trans erased
    exact sound
  · cases erased'.symm.trans erased
    exact h

end Sound

theorem moveInto_keeps {P : τ → Prop} {put : τ → UInt8 → α → Checked τ}
    (keeps : ∀ x b c y, P x → put x b c = .ok y → P y) {x : τ} (hx : P x) {p : τ × Direct α}
    (moved : s.moveInto put x = .ok p) : P p.1 := by
  obtain ⟨q, folded, moved⟩ := Checked.exists_of_bind_eq_ok moved
  cases moved
  refine Checked.foldlM_keeps (P := fun p : τ × Array (Option α) => P p.1)
    (fun p b q hp stepped => ?_) hx folded
  obtain ⟨_ | c, -, stepped⟩ := Checked.exists_of_bind_eq_ok stepped
  · cases stepped
    exact hp
  · obtain ⟨y, added, stepped⟩ := Checked.exists_of_bind_eq_ok stepped
    obtain ⟨slots, -, stepped⟩ := Checked.exists_of_bind_eq_ok stepped
    cases stepped
    exact keeps p.1 b c y hp added

end Direct

theorem Keyed.loose_of_toIndexed {s : Keyed w α} {p : Indexed α × Keyed w α}
    (moved : s.toIndexed = .ok p) : p.1.Loose := by
  rw [toIndexed] at moved
  split at moved
  · refine Checked.foldlM_keeps (P := fun p : Indexed α × Keyed w α => p.1.Loose)
      (fun p b q hp stepped => ?_) Indexed.loose_empty moved
    obtain ⟨⟨_ | c, s'⟩, -, stepped⟩ := Checked.exists_of_bind_eq_ok stepped
    · cases stepped
      exact hp
    · obtain ⟨y, added, stepped⟩ := Checked.exists_of_bind_eq_ok stepped
      cases stepped
      exact Indexed.loose_of_add hp added
  · cases moved

namespace Storage

variable {s t : Storage α}

/-- Storages that the operations lead to from empty ones. A byte that is added need not be
absent. -/
inductive Built : Storage α → Prop
  | empty (l : Layout) : Built (empty l)
  | add {s t : Storage α} {b : UInt8} {c : α} (built : Built s) (added : s.add b c = .ok t) :
    Built t
  | erase {s t : Storage α} {b : UInt8} {child? : Option α} (built : Built s)
    (erased : s.erase b = .ok (child?, t)) : Built t
  | replace {s t : Storage α} {b : UInt8} {c : α} (built : Built s)
    (put : s.replace b c = .ok t) : Built t
  | grow {s t : Storage α} (built : Built s) (grown : s.grow = .ok t) : Built t
  | shrink {s t : Storage α} (built : Built s) (shrunk : s.shrink = .ok (some t)) : Built t

def Steady : Storage α → Prop
  | keyed4 s => s.Packed
  | keyed16 s => s.Packed
  | indexed48 s => s.Loose
  | direct256 s => s.Sound

theorem steady_empty (l : Layout) : (empty l : Storage α).Steady := by
  cases l with
  | keyed4 => exact Keyed.packed_empty
  | keyed16 => exact Keyed.packed_empty
  | indexed48 => exact Indexed.loose_empty
  | direct256 => exact Direct.sound_empty

section Steady

variable (h : s.Steady)

include h

theorem Steady.add (added : s.add b c = .ok t) : t.Steady := by
  cases s with
  | keyed4 s =>
    obtain ⟨r, done, rfl⟩ := Checked.exists_of_map_eq_ok added
    exact Keyed.packed_of_add h (by decide) done
  | keyed16 s =>
    obtain ⟨r, done, rfl⟩ := Checked.exists_of_map_eq_ok added
    exact Keyed.packed_of_add h (by decide) done
  | indexed48 s =>
    obtain ⟨r, done, rfl⟩ := Checked.exists_of_map_eq_ok added
    exact Indexed.loose_of_add h done
  | direct256 s =>
    obtain ⟨r, done, rfl⟩ := Checked.exists_of_map_eq_ok added
    exact Direct.sound_of_add h done

theorem Steady.erase (erased : s.erase b = .ok (child?, t)) : t.Steady := by
  cases s with
  | keyed4 s =>
    obtain ⟨r, done, same⟩ := Checked.exists_of_map_eq_ok erased
    obtain ⟨-, rfl⟩ := Prod.mk.inj same
    exact Keyed.packed_of_erase h done
  | keyed16 s =>
    obtain ⟨r, done, same⟩ := Checked.exists_of_map_eq_ok erased
    obtain ⟨-, rfl⟩ := Prod.mk.inj same
    exact Keyed.packed_of_erase h done
  | indexed48 s =>
    obtain ⟨r, done, same⟩ := Checked.exists_of_map_eq_ok erased
    obtain ⟨-, rfl⟩ := Prod.mk.inj same
    exact Indexed.loose_of_erase h done
  | direct256 s =>
    obtain ⟨r, done, same⟩ := Checked.exists_of_map_eq_ok erased
    obtain ⟨-, rfl⟩ := Prod.mk.inj same
    exact Direct.sound_of_erase h done

theorem Steady.replace (put : s.replace b c = .ok t) : t.Steady := by
  cases s with
  | keyed4 s =>
    obtain ⟨r, done, rfl⟩ := Checked.exists_of_map_eq_ok put
    exact Keyed.packed_of_replace h done
  | keyed16 s =>
    obtain ⟨r, done, rfl⟩ := Checked.exists_of_map_eq_ok put
    exact Keyed.packed_of_replace h done
  | indexed48 s =>
    obtain ⟨r, done, rfl⟩ := Checked.exists_of_map_eq_ok put
    exact Indexed.loose_of_replace h done
  | direct256 s =>
    obtain ⟨r, done, rfl⟩ := Checked.exists_of_map_eq_ok put
    exact Direct.sound_of_replace h done

theorem Steady.grow (grown : s.grow = .ok t) : t.Steady := by
  cases s with
  | keyed4 s =>
    obtain ⟨p, moved, rfl⟩ := Checked.exists_of_map_eq_ok grown
    exact Keyed.packed_of_resize h moved
  | keyed16 s =>
    obtain ⟨p, moved, rfl⟩ := Checked.exists_of_map_eq_ok grown
    exact Keyed.loose_of_toIndexed moved
  | indexed48 s =>
    obtain ⟨p, moved, rfl⟩ := Checked.exists_of_map_eq_ok grown
    exact Indexed.moveInto_keeps (fun _ _ _ _ => Direct.sound_of_add) Direct.sound_empty moved
  | direct256 s => cases grown

theorem Steady.shrink (shrunk : s.shrink = .ok (some t)) : t.Steady := by
  cases s with
  | keyed4 s => cases shrunk
  | keyed16 s =>
    obtain ⟨p, moved, same⟩ := Checked.exists_of_map_eq_ok shrunk
    cases same
    exact Keyed.packed_of_resize h moved
  | indexed48 s =>
    obtain ⟨p, moved, same⟩ := Checked.exists_of_map_eq_ok shrunk
    cases same
    exact Indexed.moveInto_keeps (fun _ _ _ _ hx => Keyed.packed_of_add hx (by decide))
      Keyed.packed_empty moved
  | direct256 s =>
    obtain ⟨p, moved, same⟩ := Checked.exists_of_map_eq_ok shrunk
    cases same
    exact Direct.moveInto_keeps (fun _ _ _ _ => Indexed.loose_of_add) Indexed.loose_empty moved

theorem Steady.sound (complete : s.children.length = s.count)
    (ascending : s.held.Pairwise (· < ·)) : s.Sound := by
  cases s with
  | keyed4 s => exact Keyed.Packed.sound_of_ascending h ascending
  | keyed16 s => exact Keyed.Packed.sound_of_ascending h ascending
  | indexed48 s => exact Indexed.Loose.sound h complete
  | direct256 s => exact h

end Steady

theorem Built.steady (h : s.Built) : s.Steady := by
  induction h with
  | empty l => exact steady_empty l
  | add _ added ih => exact ih.add added
  | erase _ erased ih => exact ih.erase erased
  | replace _ put ih => exact ih.replace put
  | grow _ grown ih => exact ih.grow grown
  | shrink _ shrunk ih => exact ih.shrink shrunk

end Storage

end AdaptiveRadix
