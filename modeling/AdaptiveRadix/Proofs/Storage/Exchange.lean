import AdaptiveRadix.Proofs.Storage.Built

/-!
Putting another child in the place of one that was found. This needs no sound storage: what a search
reads is what the replacement writes, and as long as no two bytes share a slot nothing else changes.
-/

namespace AdaptiveRadix

variable {α : Type} {w : Nat} {b : UInt8} {c : α}

namespace Edges

/-- `m` is `l` with `d` in the place of one `c` under `b`. -/
def Exchanged (b : UInt8) (c d : α) (l m : List (UInt8 × α)) : Prop :=
  ∃ before after, l = before ++ (b, c) :: after ∧ m = before ++ (b, d) :: after

theorem exchanged_table {f g : UInt8 → Option α} {d : α} (old : f b = some c) (new : g b = some d)
    (others : ∀ a ≠ b, g a = f a) : Exchanged b c d (table f) (table g) := by
  obtain ⟨front, back, parts⟩ := List.append_of_mem (Bytes.mem_all b)
  have nodup : Bytes.all.Nodup := Bytes.pairwise_all.imp UInt8.ne_of_lt
  rw [parts, List.perm_middle.nodup_iff, List.nodup_cons, List.mem_append, not_or] at nodup
  have same {bytes : Bytes} (absent : b ∉ bytes) :
      (bytes.filterMap fun a => (g a).map (a, ·)) = bytes.filterMap fun a => (f a).map (a, ·) :=
    List.filterMap_congr fun a ha => by rw [others a fun here => absent (here ▸ ha)]
  refine ⟨front.filterMap fun a => (f a).map (a, ·), back.filterMap fun a => (f a).map (a, ·),
    ?_, ?_⟩
  · simp only [table, parts, List.filterMap_append, List.filterMap_cons, old, Option.map_some]
  · simp only [table, parts, List.filterMap_append, List.filterMap_cons, new, Option.map_some,
      same nodup.1.1, same nodup.1.2]

theorem exchanged_set {places : List (UInt8 × Option α)} {i : Nat} {d : α}
    (here : places[i]? = some (b, some c)) :
    Exchanged b c d (places.filterMap fun p => p.2.map (p.1, ·))
      ((places.set i (b, some d)).filterMap fun p => p.2.map (p.1, ·)) := by
  obtain ⟨bound, here⟩ := List.getElem?_eq_some_iff.1 here
  have split : places = places.take i ++ (b, some c) :: places.drop (i + 1) := by
    rw [← here, List.getElem_cons_drop, List.take_append_drop]
  refine ⟨(places.take i).filterMap fun p => p.2.map (p.1, ·),
    (places.drop (i + 1)).filterMap fun p => p.2.map (p.1, ·), ?_, ?_⟩
  · conv_lhs => rw [split]
    rw [List.filterMap_append]
    rfl
  · rw [List.set_eq_take_append_cons_drop, if_pos bound, List.filterMap_append]
    rfl

end Edges

open Edges

namespace Keyed

variable {s : Keyed w α}

theorem getElem?_keys_of_position? {i : Nat} (position : s.position? b = .ok (some i)) :
    i < s.count ∧ s.keys[i]? = some b := by
  rw [position?] at position
  split at position
  · next fits =>
    exact getElem?_held_eq_some.1
      (SortedBytes.getElem?_of_position?_eq_some fits (Except.ok.inj position))
  · contradiction

/-- The places in use, as far as both rows reach. -/
def places (s : Keyed w α) : List (UInt8 × Option α) :=
  (s.keys.toList.zip s.slots.toList).take s.count

theorem children_eq (s : Keyed w α) : s.children = s.places.filterMap fun p => p.2.map (p.1, ·) :=
  rfl

theorem getElem?_places {i : Nat} {a : UInt8} {child? : Option α} :
    s.places[i]? = some (a, child?) ↔
      i < s.count ∧ s.keys[i]? = some a ∧ s.slots[i]? = some child? := by
  rw [places, List.getElem?_take]
  split
  · next inside =>
    rw [List.getElem?_zip_eq_some, Vector.getElem?_toList, Array.getElem?_toList]
    simp [inside]
  · next outside => simp [outside]

theorem exchange (found : s.find? b = .ok (some c)) (d : α) :
    ∃ t, s.replace b d = .ok t ∧ t.find? b = .ok (some d) ∧
      Exchanged b c d s.children t.children := by
  obtain ⟨i, position, here⟩ := place_of_find? found
  obtain ⟨inside, key⟩ := getElem?_keys_of_position? position
  have held := Checked.getElem?_of_read here
  obtain ⟨slots, put, size, slots_eq⟩ :=
    Checked.write_eq (Array.getElem?_eq_some_iff.1 held).1 (some d)
  refine ⟨{ s with slots }, ?_, ?_, ?_⟩
  · rw [replace, position]
    simp only [Checked.ok_bind, here, put]
    rfl
  · have same : ({ s with slots } : Keyed w α).position? b = .ok (some i) := position
    rw [find?, same]
    exact Checked.read_of_getElem? ((slots_eq i).trans (if_pos rfl))
  · have old := getElem?_places.2 ⟨inside, key, held⟩
    have new : places { s with slots } = (places s).set i (b, some d) := by
      refine List.ext_getElem? fun k => Option.ext fun p => ?_
      obtain ⟨a, child?⟩ := p
      rw [getElem?_places, List.getElem?_set]
      change _ ∧ _ ∧ slots[k]? = _ ↔ _
      rw [slots_eq]
      by_cases here : k = i
      · subst here
        have bound := (List.getElem?_eq_some_iff.1 old).1
        simp [bound, inside, key]
      · rw [if_neg here, if_neg (Ne.symm here), getElem?_places]
    rw [children_eq, children_eq, new]
    exact exchanged_set old

end Keyed

namespace Indexed

variable {s : Indexed α}

theorem exchange (found : s.find? b = .ok (some c)) (d : α) :
    ∃ t, s.replace b d = .ok t ∧ t.find? b = .ok (some d) ∧
      ((∀ a, s.entry a ≠ vacant → s.entry a = s.entry b → a = b) →
        Exchanged b c d s.children t.children) := by
  have used : s.entry b ≠ vacant := fun free => by
    rw [find?, if_pos free] at found
    cases found
  have here := found
  rw [find?, if_neg used] at here
  have held := Checked.getElem?_of_read here
  obtain ⟨slots, put, size, slots_eq⟩ :=
    Checked.write_eq (Array.getElem?_eq_some_iff.1 held).1 (some d)
  have new : slots[(s.entry b).toNat]? = some (some d) := (slots_eq _).trans (if_pos rfl)
  refine ⟨{ s with slots }, ?_, (if_neg used).trans (Checked.read_of_getElem? new), fun alone => ?_⟩
  · rw [replace, found]
    simp only [Checked.ok_bind, put]
    rfl
  · rw [children_eq, children_eq]
    refine exchanged_table (child?_eq_some.2 ⟨used, held⟩) (child?_eq_some.2 ⟨used, new⟩)
      fun a other => ?_
    have apart : (s.entry a).toNat ≠ (s.entry b).toNat := fun same =>
      have same := UInt8.toNat_inj.1 same
      other (alone a (same ▸ used) same)
    refine Option.ext fun e => ?_
    rw [child?_eq_some, child?_eq_some]
    change _ ∧ slots[(s.entry a).toNat]? = _ ↔ _
    rw [slots_eq, if_neg apart]
    rfl

end Indexed

namespace Direct

variable {s : Direct α}

theorem exchange (found : s.find? b = .ok (some c)) (d : α) :
    ∃ t, s.replace b d = .ok t ∧ t.find? b = .ok (some d) ∧
      Exchanged b c d s.children t.children := by
  have held := Checked.getElem?_of_read found
  obtain ⟨slots, put, size, slots_eq⟩ :=
    Checked.write_eq (Array.getElem?_eq_some_iff.1 held).1 (some d)
  have new : slots[b.toNat]? = some (some d) := (slots_eq _).trans (if_pos rfl)
  refine ⟨{ s with slots }, ?_, Checked.read_of_getElem? new, ?_⟩
  · rw [replace, found]
    simp only [Checked.ok_bind, put]
    rfl
  · rw [children_eq, children_eq]
    refine exchanged_table ?_ ?_ fun a other => ?_
    · rw [held, Option.join_some]
    · rw [new, Option.join_some]
    · rw [slots_eq, if_neg fun same => other (UInt8.toNat_inj.1 same)]

end Direct

namespace Storage

variable {s : Storage α}

theorem exchange (found : s.find? b = .ok (some c)) (d : α) :
    ∃ t, s.replace b d = .ok t ∧ t.layout = s.layout ∧ t.find? b = .ok (some d) ∧
      (s.Sound ∨ s.Built → Exchanged b c d s.children t.children) := by
  cases s with
  | keyed4 s =>
    obtain ⟨t, put, reads, exchanged⟩ := Keyed.exchange found d
    exact ⟨keyed4 t, by rw [replace, put]; rfl, rfl, reads, fun _ => exchanged⟩
  | keyed16 s =>
    obtain ⟨t, put, reads, exchanged⟩ := Keyed.exchange found d
    exact ⟨keyed16 t, by rw [replace, put]; rfl, rfl, reads, fun _ => exchanged⟩
  | indexed48 s =>
    obtain ⟨t, put, reads, exchanged⟩ := Indexed.exchange found d
    refine ⟨indexed48 t, by rw [replace, put]; rfl, rfl, reads, fun either => ?_⟩
    refine exchanged fun a used same => ?_
    rcases either with sound | built
    · exact Indexed.Sound.entry_injective sound a b used same
    · exact Indexed.Loose.entry_injective built.steady a b used same
  | direct256 s =>
    obtain ⟨t, put, reads, exchanged⟩ := Direct.exchange found d
    exact ⟨direct256 t, by rw [replace, put]; rfl, rfl, reads, fun _ => exchanged⟩

end Storage

end AdaptiveRadix
