import AdaptiveRadix.Proofs.Storage.Built

/-!
Storages filled by additions alone, of bytes that may repeat, and by growth in between. Their
counters never go past their width. What a repeated byte leaves behind depends on the layout: keyed
rows list it twice, and an indexed storage counts a child that it no longer lists.
-/

namespace AdaptiveRadix

open Edges

variable {α : Type} {v w : Nat}

theorem Keyed.held_congr {s : Keyed v α} {t : Keyed w α} (count : t.count = s.count)
    (same : ∀ k < s.count, t.place k = s.place k) : t.held = s.held := by
  apply List.ext_getElem?
  intro k
  rw [held, held, SortedBytes.getElem?_held, SortedBytes.getElem?_held, count]
  by_cases inside : k < s.count
  · rw [if_pos inside, if_pos inside]
    exact congrArg Prod.fst (same k inside)
  · rw [if_neg inside, if_neg inside]

theorem Keyed.held_of_add {s t : Keyed w α} {b : UInt8} {c : α} (h : s.Packed) (narrow : w ≤ 255)
    (added : s.add b c = .ok t) : t.held.Perm (b :: s.held) := by
  by_cases room : s.count < w
  · obtain ⟨t', added', spread⟩ := add_spread h.size_slots narrow room b c
    obtain rfl := Except.ok.inj (added'.symm.trans added)
    have within := SortedBytes.insertPosition_le b s.keys s.count
    rw [spread.held_eq within room]
    apply List.perm_insertIdx
    rw [held, SortedBytes.length_held h.count_le]
    exact within
  · rw [add, if_neg room] at added
    cases added

theorem Keyed.held_of_resize {s : Keyed v α} {p : Keyed w α × Keyed v α} (h : s.Packed)
    (moved : s.resize = .ok p) : p.1.held = s.held := by
  by_cases fits : s.count ≤ w
  · obtain ⟨q, moved', -, count, same, -⟩ := resize_packed h fits
    obtain rfl := Except.ok.inj (moved'.symm.trans moved)
    exact held_congr count same
  · rw [resize, if_neg fits] at moved
    cases moved

namespace Storage

variable {s t : Storage α} {es : List (UInt8 × α)} {b : UInt8} {c : α}

theorem Steady.count_le (h : s.Steady) : s.count ≤ s.width := by
  cases s with
  | keyed4 s => exact Keyed.Packed.count_le h
  | keyed16 s => exact Keyed.Packed.count_le h
  | indexed48 s => exact Indexed.Loose.count_le h
  | direct256 s => exact Storage.count_le (s := .direct256 s) h

theorem Steady.held_eq (h : s.Steady) : s.held = s.children.map (·.1) := by
  cases s with
  | keyed4 s => exact (Keyed.Packed.map_fst_children h).symm
  | keyed16 s => exact (Keyed.Packed.map_fst_children h).symm
  | indexed48 s => rfl
  | direct256 s => rfl

theorem Steady.length_children (h : s.Steady) (other : s.layout ≠ .indexed48) :
    s.children.length = s.count := by
  cases s with
  | keyed4 s => exact Keyed.Packed.length_children h
  | keyed16 s => exact Keyed.Packed.length_children h
  | indexed48 s => exact absurd rfl other
  | direct256 s => exact (Direct.Sound.count_eq h).symm

theorem layout_of_add (added : s.add b c = .ok t) : t.layout = s.layout := by
  cases s <;> obtain ⟨r, -, rfl⟩ := Checked.exists_of_map_eq_ok added <;> rfl

theorem Steady.held_of_add (h : s.Steady) (keyed : s.layout = .keyed4 ∨ s.layout = .keyed16)
    (added : s.add b c = .ok t) : t.held.Perm (b :: s.held) := by
  cases s with
  | keyed4 s =>
    obtain ⟨r, done, rfl⟩ := Checked.exists_of_map_eq_ok added
    exact Keyed.held_of_add h (by decide) done
  | keyed16 s =>
    obtain ⟨r, done, rfl⟩ := Checked.exists_of_map_eq_ok added
    exact Keyed.held_of_add h (by decide) done
  | indexed48 s => rcases keyed with other | other <;> cases other
  | direct256 s => rcases keyed with other | other <;> cases other

theorem Steady.held_of_grow (h : s.Steady) (keyed : t.layout = .keyed4 ∨ t.layout = .keyed16)
    (grown : s.grow = .ok t) : s.layout = .keyed4 ∧ t.held = s.held := by
  cases s with
  | keyed4 s =>
    obtain ⟨p, moved, rfl⟩ := Checked.exists_of_map_eq_ok grown
    exact ⟨rfl, Keyed.held_of_resize h moved⟩
  | keyed16 s =>
    obtain ⟨p, moved, rfl⟩ := Checked.exists_of_map_eq_ok grown
    rcases keyed with other | other <;> cases other
  | indexed48 s =>
    obtain ⟨p, moved, rfl⟩ := Checked.exists_of_map_eq_ok grown
    rcases keyed with other | other <;> cases other
  | direct256 s => cases grown

/-- A storage that these children were added to, the last one first. -/
inductive Added : List (UInt8 × α) → Storage α → Prop
  | empty (l : Layout) : Added [] (empty l)
  | add {es : List (UInt8 × α)} {s t : Storage α} {b : UInt8} {c : α} (h : Added es s)
    (added : s.add b c = .ok t) : Added ((b, c) :: es) t
  | grow {es : List (UInt8 × α)} {s t : Storage α} (h : Added es s) (grown : s.grow = .ok t) :
    Added es t

theorem Added.built (h : s.Added es) : s.Built := by
  induction h with
  | empty l => exact .empty l
  | add _ added ih => exact ih.add added
  | grow _ grown ih => exact ih.grow grown

theorem Added.steady (h : s.Added es) : s.Steady :=
  h.built.steady

theorem Added.held_perm (h : s.Added es) (keyed : s.layout = .keyed4 ∨ s.layout = .keyed16) :
    s.held.Perm (es.map (·.1)) := by
  induction h with
  | empty l =>
    rw [layout_empty] at keyed
    rcases keyed with rfl | rfl <;> exact .refl _
  | @add es s t b c h added ih =>
    rw [layout_of_add added] at keyed
    exact (h.steady.held_of_add keyed added).trans ((ih keyed).cons b)
  | @grow es s t h grown ih =>
    obtain ⟨narrow, same⟩ := h.steady.held_of_grow keyed grown
    rw [same]
    exact ih (.inl narrow)

theorem Added.sound (h : s.Added es) (distinct : (es.map (·.1)).Nodup) :
    s.Sound ∧ ∀ e, e ∈ s.children ↔ e ∈ es := by
  induction h with
  | empty l =>
    refine ⟨sound_empty l, fun e => ?_⟩
    rw [children_empty]
  | @add es s t b c h added ih =>
    rw [List.map_cons, List.nodup_cons] at distinct
    obtain ⟨unused, distinct⟩ := distinct
    obtain ⟨sound, same⟩ := ih distinct
    have absent (d : α) : (b, d) ∉ s.children := fun hd =>
      unused (List.mem_map.2 ⟨(b, d), (same _).1 hd, rfl⟩)
    obtain ⟨sound', inserted⟩ := sound_of_add sound absent added
    refine ⟨sound', fun e => ?_⟩
    rw [inserted.2, List.mem_cons, same]
  | @grow es s t h grown ih =>
    obtain ⟨sound, same⟩ := ih distinct
    cases larger : s.layout.larger? with
    | none =>
      cases s with
      | direct256 s => cases grown
      | _ => cases larger
    | some l =>
      obtain ⟨t', grown', sound', -, kept⟩ := grow_eq sound larger
      obtain rfl := Except.ok.inj (grown'.symm.trans grown)
      exact ⟨sound', fun e => by rw [kept, same]⟩

end Storage

end AdaptiveRadix
