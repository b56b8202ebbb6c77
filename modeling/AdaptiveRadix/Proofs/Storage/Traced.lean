import AdaptiveRadix.Proofs.Storage.Reached

/-!
Storages beside their history: what was added last under each byte and not taken out since. Behind
a table of positions, the table, the slots, the bit set and the counter tell that history alike, and
a new child gets a slot that no other child has. In sorted rows the places in use hold the bytes in
order, each beside the child that came with it, and a shift of the places loses and repeats none.
-/

namespace AdaptiveRadix

open Edges

variable {α : Type} {b : UInt8} {c : α} {f : ByteMap α}

namespace Storage

variable {s t : Storage α} {l : Layout}

/-- A storage that comes from additions of new bytes, erasures and conversions, beside its history.
What a conversion leaves of the old storage counts too. -/
inductive Traced : Storage α → ByteMap α → Prop where
  | empty (l : Layout) : Traced (empty l) ByteMap.empty
  | add {s t : Storage α} {f : ByteMap α} {b : UInt8} {c : α} (h : Traced s f)
    (absent : f b = none) (added : s.add b c = .ok t) : Traced t (f.write b (some c))
  | erase {s t : Storage α} {f : ByteMap α} {b : UInt8} {c? : Option α} (h : Traced s f)
    (taken : s.erase b = .ok (c?, t)) : Traced t (f.write b none)
  | convert {s t left : Storage α} {f : ByteMap α} {l : Layout} (h : Traced s f)
    (moved : s.convert? l = some (.ok (t, left))) : Traced t f
  | remains {s t left : Storage α} {f : ByteMap α} {l : Layout} (h : Traced s f)
    (moved : s.convert? l = some (.ok (t, left))) : Traced left ByteMap.empty

theorem Traced.models (h : Traced s f) : Models s.layout s f := by
  induction h with
  | empty l =>
    rw [layout_empty]
    exact models_empty l
  | add h absent added model =>
    obtain ⟨sound, inserted⟩ := sound_of_add model.sound (model.absent absent) added
    exact ⟨sound, rfl,
      ByteMap.eq_table_of_inserted (model.children ▸ inserted) (ascending_children sound)⟩
  | @erase s t f b c? h taken model =>
    rcases erase_cases model.sound b with ⟨c, t', taken', sound, -, erased⟩ | ⟨nothing, absent⟩
    · obtain rfl : t' = t := (Prod.mk.inj (Except.ok.inj (taken'.symm.trans taken))).2
      exact ⟨sound, rfl,
        ByteMap.eq_table_of_erased (model.children ▸ erased) (ascending_children sound)⟩
    · obtain rfl : s = t := (Prod.mk.inj (Except.ok.inj (nothing.symm.trans taken))).2
      rw [model.children] at absent
      rw [ByteMap.write_none (ByteMap.eq_none_iff.2 absent)]
      exact model
  | convert h done model =>
    have moved := moved_of_convert? model.sound done
    exact ⟨moved.sound, rfl, moved.children.trans model.children⟩
  | remains h done model =>
    have moved := moved_of_convert? model.sound done
    exact ⟨moved.left_sound, rfl, moved.left_children.trans ByteMap.table_empty.symm⟩

theorem Traced.exists_add (h : Traced s f) (absent : f b = none) (room : f.size < s.width)
    (c : α) : ∃ t, Traced t (f.write b (some c)) ∧ t.layout = s.layout := by
  have model := h.models
  rw [← model.count_eq] at room
  obtain ⟨t, added, -, layout, -⟩ := add_eq model.sound room (model.absent absent) c
  exact ⟨t, h.add absent added, layout⟩

theorem Traced.exists_erase (h : Traced s f) (b : UInt8) :
    ∃ t, Traced t (f.write b none) ∧ t.layout = s.layout := by
  rcases erase_cases h.models.sound b with ⟨c, t, taken, -, layout, -⟩ | ⟨nothing, -⟩
  · exact ⟨t, h.erase taken, layout⟩
  · exact ⟨s, h.erase nothing, rfl⟩

theorem Traced.exists_convert (h : Traced s f) (supported : l ∈ s.layout.targets)
    (room : f.size ≤ l.width) : ∃ t left : Storage α, Traced t f ∧ t.layout = l ∧
      Traced left ByteMap.empty ∧ left.layout = s.layout := by
  have model := h.models
  rw [← model.count_eq] at room
  obtain ⟨t, left, done, moved⟩ := convert?_of_count_le model.sound supported room
  exact ⟨t, left, h.convert done, moved.layout, h.remains done, moved.left_layout⟩

end Storage

namespace Indexed

variable {s : Indexed α}

/-- The table, the slots, the bit set and the counter tell the children of `f`, and go on telling
them when a child comes or goes. -/
structure Consistent (s : Indexed α) (f : ByteMap α) : Prop extends s.Sound where
  child_iff : ∀ b c, f b = some c ↔
    s.entry b ≠ vacant ∧ s.slots[(s.entry b).toNat]? = some (some c)
  size_occupied : s.occupied.size = s.count
  firstEmpty : s.count < width → ∃ p < width, s.occupied.firstEmpty = some p ∧
    s.slots[p]? = some none ∧ ∀ b, s.entry b ≠ vacant → (s.entry b).toNat ≠ p
  add : ∀ b c, f b = none → s.count < width →
    ∃ p t, s.occupied.firstEmpty = some p ∧ s.add b c = .ok t ∧ Filled p b c s t
  erase_none : ∀ b, f b = none → s.erase b = .ok (none, s)
  erase_some : ∀ b c, f b = some c →
    ∃ t, s.erase b = .ok (some c, t) ∧ Freed (s.entry b).toNat b s t

theorem consistent_of_models (h : Storage.Models .indexed48 (.indexed48 s) f) :
    s.Consistent f := by
  have sound : s.Sound := h.sound
  have mem (b : UInt8) (c : α) : f b = some c ↔ (b, c) ∈ s.children := by
    rw [← mem_table, ← h.children]
    rfl
  exact {
    sound with
    child_iff := fun b c => by rw [mem, mem_children_iff]
    size_occupied := Indexed.size_occupied sound
    firstEmpty := fun room => by
      obtain ⟨p, bound, found, free⟩ := firstEmpty_eq sound room
      exact ⟨p, bound, found, slot_eq_none sound bound free, free⟩
    add := fun b c absent room => add_filled sound room (h.absent absent) c
    erase_none := fun b absent => erase_vacant (entry_eq_vacant sound (h.absent absent))
    erase_some := fun b c held => by
      obtain ⟨d, t, taken, there, freed⟩ :=
        erase_freed sound (mem_children_iff.1 ((mem b c).1 held)).1
      obtain rfl := (ascending_children s).eq_of_mem there ((mem b c).1 held)
      exact ⟨t, taken, freed⟩ }

/-- Whatever additions, erasures and conversions led to a storage behind a table, its four parts
agree with each other and with what was added. -/
theorem consistent_of_traced (h : Storage.Traced (.indexed48 s) f) : s.Consistent f :=
  consistent_of_models h.models

theorem consistent_of_traced_reuse : ∃ (s : Indexed Nat) (f : ByteMap Nat),
    Storage.Traced (.indexed48 s) f ∧ f 255 = none ∧ f 9 = some 2 ∧ f 7 = some 3 ∧
      s.Consistent f := by
  obtain ⟨s₁, h₁, l₁⟩ := (Storage.Traced.empty .keyed4).exists_add (b := 255) rfl (by decide) 1
  obtain ⟨s₂, h₂, l₂⟩ := h₁.exists_add (b := 9) rfl (by rw [Storage.width, l₁]; decide) 2
  obtain ⟨s₃, -, h₃, l₃, -⟩ := h₂.exists_convert (l := .indexed48)
    (by rw [l₂, l₁]; decide) (by decide)
  obtain ⟨s₄, h₄, l₄⟩ := h₃.exists_erase 255
  obtain ⟨s₅, h₅, l₅⟩ := h₄.exists_add (b := 7) rfl (by rw [Storage.width, l₄, l₃]; decide) 3
  rw [l₄, l₃] at l₅
  cases s₅ with
  | indexed48 s => exact ⟨s, _, h₅, rfl, rfl, rfl, consistent_of_traced h₅⟩
  | _ => cases l₅

end Indexed

namespace Keyed

variable {w : Nat} {s : Keyed w α}

/-- The rows hold the children of `f` beside their bytes, and go on holding them when places are
shifted. -/
structure Arranged (s : Keyed w α) (f : ByteMap α) : Prop extends s.Sound where
  child_of_place : ∀ i < s.count, ∃ b c, s.place i = (some b, some (some c)) ∧ f b = some c
  place_of_child : ∀ b c, f b = some c → ∃ i < s.count, s.place i = (some b, some (some c))
  add : ∀ b c, f b = none → s.count < w →
    ∃ i ≤ s.count, ∃ t, s.add b c = .ok t ∧ Spread i b c s t
  erase_none : ∀ b, f b = none → s.erase b = .ok (none, s)
  erase_some : ∀ b c, f b = some c → ∃ i < s.count, s.place i = (some b, some (some c)) ∧
    ∃ t, s.erase b = .ok (some c, t) ∧ Gathered i s t

theorem arranged_of_children (narrow : w ≤ 255) (sound : s.Sound) (same : s.children = table f) :
    s.Arranged f := by
  have mem (b : UInt8) (c : α) : f b = some c ↔ (b, c) ∈ s.children := by
    rw [same, mem_table]
  have absent {b : UInt8} (missing : f b = none) (c : α) : (b, c) ∉ s.children := by
    rw [same]
    exact ByteMap.eq_none_iff.1 missing c
  exact {
    sound with
    child_of_place := fun i inside => by
      obtain ⟨b, c, here⟩ := filled_place sound inside
      exact ⟨b, c, here, (mem b c).2 (mem_children_iff.2 ⟨i, inside, here⟩)⟩
    place_of_child := fun b c held => mem_children_iff.1 ((mem b c).1 held)
    add := fun b c missing room => by
      obtain ⟨t, added, spread⟩ := add_spread sound.size_slots narrow room b c
      exact ⟨_, SortedBytes.insertPosition_le .., t, added, spread⟩
    erase_none := fun b missing =>
      ((erase_cases sound b).resolve_left fun ⟨c, _, _, _, erased⟩ =>
        absent missing c erased.1).1
    erase_some := fun b c held => by
      rcases position?_cases sound b with ⟨i, d, found, inside, here⟩ | ⟨-, missing⟩
      · have there := mem_children_iff.2 ⟨i, inside, here⟩
        obtain rfl := (ascending_children sound).eq_of_mem there ((mem b c).1 held)
        obtain ⟨t, taken, gathered⟩ := erase_gathered sound.size_slots sound.count_le found inside
          (place_eq_iff.1 here).2
        exact ⟨i, inside, here, t, taken, gathered⟩
      · exact absurd ((mem b c).1 held) (missing c) }

/-- Whatever additions, erasures and conversions led to storages in rows of either width, their
places hold what was added, in order. -/
theorem arranged_of_traced (f : ByteMap α) :
    (∀ s : Keyed 4 α, Storage.Traced (.keyed4 s) f → s.Arranged f) ∧
      ∀ s : Keyed 16 α, Storage.Traced (.keyed16 s) f → s.Arranged f := by
  constructor
  · intro s h
    exact arranged_of_children (by decide) h.models.sound h.models.children
  · intro s h
    exact arranged_of_children (by decide) h.models.sound h.models.children

theorem arranged_of_traced_filler : ∃ (s left : Keyed 4 Nat) (t : Keyed 16 Nat) (f : ByteMap Nat),
    Storage.Traced (.keyed4 s) f ∧ Storage.Traced (.keyed16 t) f ∧
      Storage.Traced (.keyed4 left) ByteMap.empty ∧ f 255 = some 1 ∧ f 9 = none ∧ f 0 = some 3 ∧
      s.Arranged f ∧ t.Arranged f ∧ left.Arranged ByteMap.empty := by
  obtain ⟨s₁, h₁, l₁⟩ := (Storage.Traced.empty .keyed4).exists_add (b := 255) rfl (by decide) 1
  obtain ⟨s₂, h₂, l₂⟩ := h₁.exists_add (b := 9) rfl (by rw [Storage.width, l₁]; decide) 2
  obtain ⟨s₃, h₃, l₃⟩ := h₂.exists_add (b := 0) rfl (by rw [Storage.width, l₂, l₁]; decide) 3
  obtain ⟨s₄, h₄, l₄⟩ := h₃.exists_erase 9
  rw [l₃, l₂, l₁] at l₄
  obtain ⟨t, left, ht, lt, hl, ll⟩ := h₄.exists_convert (l := .keyed16) (by rw [l₄]; decide)
    (by decide)
  rw [l₄] at ll
  cases s₄ with
  | keyed4 s =>
    cases t with
    | keyed16 t =>
      cases left with
      | keyed4 left =>
        exact ⟨s, left, t, _, h₄, ht, hl, rfl, rfl, rfl, (arranged_of_traced _).1 s h₄,
          (arranged_of_traced _).2 t ht, (arranged_of_traced _).1 left hl⟩
      | _ => cases ll
    | _ => cases lt
  | _ => cases l₄

end Keyed

end AdaptiveRadix
