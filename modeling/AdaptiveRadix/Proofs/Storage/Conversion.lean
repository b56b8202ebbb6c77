import AdaptiveRadix.Proofs.Storage.Direct
import AdaptiveRadix.Proofs.Storage.Indexed
import AdaptiveRadix.Proofs.Storage.Keyed

/-!
A conversion gives a sound storage with the children of the old one, and empties the old one. The
conversions that search take out one child after the other; at every moment the two storages
together hold what the old one held.
-/

namespace AdaptiveRadix

open Edges
open scoped List

section Drain

variable {α σ τ : Type} {source : σ → List (UInt8 × α)} {target : τ → List (UInt8 × α)}
  {S : σ → Prop} {T : τ → Prop} {add : τ → UInt8 → α → Checked τ}
  {step : τ × σ → UInt8 → Checked (τ × σ)} {room : Nat} {l : List (UInt8 × α)}

/-- A step takes the child under a byte out of the source, if there is one, and adds it to the
target. -/
structure Takes (source : σ → List (UInt8 × α)) (S : σ → Prop) (add : τ → UInt8 → α → Checked τ)
    (step : τ × σ → UInt8 → Checked (τ × σ)) : Prop where
  ascending : ∀ s, S s → Ascending (source s)
  miss : ∀ t s b, S s → (∀ c, (b, c) ∉ source s) → step (t, s) b = .ok (t, s)
  hit : ∀ t t' s b c, S s → (b, c) ∈ source s → add t b c = .ok t' →
    ∃ s', step (t, s) b = .ok (t', s') ∧ S s' ∧ Erased b c (source s) (source s')

/-- Adding a new byte succeeds as long as there is room. -/
structure Receives (target : τ → List (UInt8 × α)) (T : τ → Prop)
    (add : τ → UInt8 → α → Checked τ) (room : Nat) : Prop where
  ascending : ∀ t, T t → Ascending (target t)
  put : ∀ t b c, T t → (target t).length < room → (∀ d, (b, d) ∉ target t) →
    ∃ t', add t b c = .ok t' ∧ T t' ∧ Inserted b c (target t) (target t')

theorem absent_of_split (hl : Ascending l) {t : τ} {s : σ} (split : target t ++ source s ~ l)
    {b : UInt8} {c : α} (mem : (b, c) ∈ source s) (d : α) : (b, d) ∉ target t := by
  intro there
  obtain rfl : d = c := hl.eq_of_mem (split.subset (List.mem_append_left _ there))
    (split.subset (List.mem_append_right _ mem))
  exact (List.nodup_append.1 (split.nodup_iff.2 hl.nodup)).2.2 _ there _ mem rfl

theorem exists_hit (takes : Takes source S add step) (receives : Receives target T add room)
    (hl : Ascending l) {t : τ} {s : σ} (hs : S s) (ht : T t) (split : target t ++ source s ~ l)
    {b : UInt8} {c : α} (mem : (b, c) ∈ source s) (free : (target t).length < room) :
    ∃ t' s', step (t, s) b = .ok (t', s') ∧ S s' ∧ T t' ∧ target t' ++ source s' ~ l ∧
      (target t').length = (target t).length + 1 ∧ ∀ e, e ∈ source s' ↔ e ∈ source s ∧ e.1 ≠ b := by
  obtain ⟨t', added, ht', inserted⟩ := receives.put t b c ht free (absent_of_split hl split mem)
  obtain ⟨s', stepped, hs', erased⟩ := takes.hit t t' s b c hs mem added
  have into := inserted.perm (receives.ascending t ht) (receives.ascending t' ht')
  have out := (erased.inserted (takes.ascending s hs)).perm (takes.ascending s' hs')
    (takes.ascending s hs)
  refine ⟨t', s', stepped, hs', ht', ?_, into.length_eq, erased.2⟩
  calc target t' ++ source s' ~ (b, c) :: target t ++ source s' := into.append_right _
    _ ~ target t ++ (b, c) :: source s' := List.perm_middle.symm
    _ ~ target t ++ source s := out.symm.append_left _
    _ ~ l := split

theorem exists_step (takes : Takes source S add step) (receives : Receives target T add room)
    (hl : Ascending l) (fits : l.length ≤ room) {t : τ} {s : σ} (hs : S s) (ht : T t)
    (split : target t ++ source s ~ l) (b : UInt8) :
    ∃ t' s', step (t, s) b = .ok (t', s') ∧ S s' ∧ T t' ∧ target t' ++ source s' ~ l ∧
      ∀ e, e ∈ source s' ↔ e ∈ source s ∧ e.1 ≠ b := by
  cases found : (source s).lookup b with
  | none =>
    have absent := lookup_eq_none_iff.1 found
    refine ⟨t, s, takes.miss t s b hs absent, hs, ht, split, fun ⟨a, d⟩ => ?_⟩
    refine (and_iff_left_of_imp fun mem same => absent d ?_).symm
    exact same ▸ mem
  | some c =>
    have mem := (takes.ascending s hs).lookup_eq_some_iff.1 found
    have free : (target t).length < room := by
      have := split.length_eq
      have := List.length_pos_of_mem mem
      rw [List.length_append] at *
      omega
    obtain ⟨t', s', stepped, hs', ht', split', -, left⟩ :=
      exists_hit takes receives hl hs ht split mem free
    exact ⟨t', s', stepped, hs', ht', split', left⟩

theorem exists_foldlM (takes : Takes source S add step) (receives : Receives target T add room)
    (hl : Ascending l) (fits : l.length ≤ room) (bs : Bytes) {t : τ} {s : σ} (hs : S s) (ht : T t)
    (split : target t ++ source s ~ l) :
    ∃ t' s', bs.foldlM step (t, s) = .ok (t', s') ∧ S s' ∧ T t' ∧
      target t' ++ source s' ~ l ∧ ∀ e, e ∈ source s' ↔ e ∈ source s ∧ e.1 ∉ bs := by
  -- the invariant is `split`: source and target together hold the children of the start
  induction bs generalizing t s with
  | nil => exact ⟨t, s, rfl, hs, ht, split, fun e => by simp⟩
  | cons b bs ih =>
    obtain ⟨t', s', stepped, hs', ht', split', left⟩ :=
      exists_step takes receives hl fits hs ht split b
    obtain ⟨t'', s'', folded, hs'', ht'', split'', left'⟩ := ih hs' ht' split'
    refine ⟨t'', s'', ?_, hs'', ht'', split'', fun e => ?_⟩
    · rw [List.foldlM_cons, stepped]
      exact folded
    · rw [left', left, List.mem_cons, not_or, and_assoc]

theorem drain (takes : Takes source S add step) (receives : Receives target T add room)
    {bs : Bytes} {t : τ} {s : σ} (hs : S s) (ht : T t) (empty : target t = [])
    (fits : (source s).length ≤ room) (covers : ∀ e ∈ source s, e.1 ∈ bs) :
    ∃ p, bs.foldlM step (t, s) = .ok p ∧ T p.1 ∧ target p.1 = source s ∧ S p.2 ∧
      source p.2 = [] := by
  have hl := takes.ascending s hs
  obtain ⟨t', s', folded, hs', ht', split, left⟩ :=
    exists_foldlM takes receives hl fits bs hs ht (by rw [empty, List.nil_append])
  have emptied : source s' = [] := List.eq_nil_iff_forall_not_mem.2 fun e he =>
    ((left e).1 he).2 (covers e ((left e).1 he).1)
  rw [emptied, List.append_nil] at split
  exact ⟨(t', s'), folded, ht', (receives.ascending t' ht').ext hl fun e => split.mem_iff, hs',
    emptied⟩

theorem takes_of_erase {erase : σ → UInt8 → Checked (Option α × σ)}
    (ascending : ∀ s, S s → Ascending (source s))
    (erase_cases : ∀ s b, S s →
      (∃ c s', erase s b = .ok (some c, s') ∧ S s' ∧ Erased b c (source s) (source s')) ∨
        erase s b = .ok (none, s) ∧ ∀ c, (b, c) ∉ source s)
    (miss : ∀ t s b, erase s b = .ok (none, s) → step (t, s) b = .ok (t, s))
    (hit : ∀ t t' s s' b c, erase s b = .ok (some c, s') → add t b c = .ok t' →
      step (t, s) b = .ok (t', s')) : Takes source S add step where
  ascending := ascending
  miss t s b hs absent := by
    rcases erase_cases s b hs with ⟨c, s', -, -, erased⟩ | ⟨nothing, -⟩
    · exact absurd erased.1 (absent c)
    · exact miss t s b nothing
  hit t t' s b c hs mem added := by
    rcases erase_cases s b hs with ⟨d, s', taken, hs', erased⟩ | ⟨-, absent⟩
    · obtain rfl := (ascending s hs).eq_of_mem mem erased.1
      exact ⟨s', hit t t' s s' b c taken added, hs', erased⟩
    · exact absurd mem (absent c)

section Overflow

variable {fault : Fault} (takes : Takes source S add step) (receives : Receives target T add room)
  (full : ∀ t b c, T t → (target t).length = room → (∀ d, (b, d) ∉ target t) →
    add t b c = .error fault)
  (stops : ∀ t s b c e, S s → (b, c) ∈ source s → add t b c = .error e →
    step (t, s) b = .error e)

include takes receives full stops

/-- Where the two storages hold more than there is room for, some step finds the target full. -/
theorem foldlM_overflow (hl : Ascending l) (excess : room < l.length) {bs : Bytes} {t : τ} {s : σ}
    (hs : S s) (ht : T t) (split : target t ++ source s ~ l) (within : (target t).length ≤ room)
    (covers : ∀ e ∈ source s, e.1 ∈ bs) : bs.foldlM step (t, s) = .error fault := by
  induction bs generalizing t s with
  | nil =>
    have none_left : source s = [] :=
      List.eq_nil_iff_forall_not_mem.2 fun e he => List.not_mem_nil (covers e he)
    rw [none_left, List.append_nil] at split
    exact absurd (split.length_eq ▸ within) (Nat.not_le.2 excess)
  | cons b bs ih =>
    rw [List.foldlM_cons]
    cases found : (source s).lookup b with
    | none =>
      have absent := lookup_eq_none_iff.1 found
      rw [takes.miss t s b hs absent, Checked.ok_bind]
      refine ih hs ht split within fun e he => ?_
      refine (List.mem_cons.1 (covers e he)).resolve_left fun same => absent e.2 ?_
      exact same ▸ he
    | some c =>
      have mem := (takes.ascending s hs).lookup_eq_some_iff.1 found
      rcases Nat.lt_or_eq_of_le within with free | filled
      · obtain ⟨t', s', stepped, hs', ht', split', more, left⟩ :=
          exists_hit takes receives hl hs ht split mem free
        rw [stepped, Checked.ok_bind]
        refine ih hs' ht' split' (more ▸ free) fun e he => ?_
        obtain ⟨he, different⟩ := (left e).1 he
        exact (List.mem_cons.1 (covers e he)).resolve_left different
      -- the target is full, and the byte is still with the source, so it is new there
      · rw [stops t s b c fault hs mem (full t b c ht filled (absent_of_split hl split mem))]
        rfl

theorem drain_overflow {bs : Bytes} {t : τ} {s : σ} (hs : S s) (ht : T t) (empty : target t = [])
    (excess : room < (source s).length) (covers : ∀ e ∈ source s, e.1 ∈ bs) :
    bs.foldlM step (t, s) = .error fault := by
  apply foldlM_overflow takes receives full stops (takes.ascending s hs) excess hs ht
  · rw [empty, List.nil_append]
  · rw [empty]
    exact Nat.zero_le room
  · exact covers

end Overflow

end Drain

variable {α τ : Type} {v w : Nat}

theorem Keyed.receives (narrow : w ≤ 255) :
    Receives (τ := Keyed w α) Keyed.children Keyed.Sound Keyed.add w where
  ascending _ ht := Keyed.ascending_children ht
  put _ _ c ht free absent :=
    Keyed.add_eq ht narrow (by rwa [Keyed.length_children ht] at free) absent c

theorem Indexed.receives :
    Receives (τ := Indexed α) Indexed.children Indexed.Sound Indexed.add Indexed.width where
  ascending t _ := Indexed.ascending_children t
  put _ _ c ht free absent :=
    Indexed.add_eq ht (by rwa [Indexed.length_children ht] at free) absent c

theorem Direct.receives :
    Receives (τ := Direct α) Direct.children Direct.Sound Direct.add Direct.width where
  ascending t _ := Direct.ascending_children t
  put _ _ c ht _ absent := Direct.add_eq ht absent c

theorem Keyed.transfer_eq {s : Keyed v α} {t : Keyed w α} (hs : s.slots.size = v)
    (ht : t.slots.size = w) {i : Nat} (hv : i < v) (hw : i < w) :
    ∃ p, s.transfer t i = .ok p ∧ p.1.slots.size = w ∧ p.2.slots.size = v ∧
      (∀ k, p.1.place k = if k = i then s.place i else t.place k) ∧
      ∀ k, p.2.place k = if k = i then (some filler, some none) else s.place k := by
  have hi : i < s.slots.size := by omega
  obtain ⟨t₁, keyed, -, same, keys⟩ := writeKey_eq t hw s.keys[i]
  have inside : i < t₁.slots.size := by rw [same, ht]; exact hw
  obtain ⟨put, filled, size, slots⟩ := Checked.write_eq inside s.slots[i]
  obtain ⟨left, cleared, size', slots'⟩ := Checked.write_eq hi none
  obtain ⟨s₁, blanked, -, same', keys'⟩ :=
    writeKey_eq (⟨s.keys, left, s.count⟩ : Keyed v α) hv filler
  refine ⟨(⟨t₁.keys, put, t₁.count⟩, s₁), ?_, by rw [size, same, ht], by rw [same', size', hs],
    fun k => ?_, fun k => ?_⟩
  · rw [transfer, dif_pos hv]
    simp only [keyed, Checked.read_eq_ok hi, filled, cleared, blanked, Checked.ok_bind]
    rfl
  · by_cases here : k = i
    · subst here
      rw [if_pos rfl, place_eq_iff, keys, if_pos rfl, slots, if_pos rfl]
      exact ⟨(Vector.getElem?_eq_getElem hv).symm, (Array.getElem?_eq_getElem hi).symm⟩
    · rw [if_neg here, place_eq_iff, keys, if_neg here, slots, if_neg here, same]
      exact ⟨rfl, rfl⟩
  · by_cases here : k = i
    · rw [if_pos here, place_eq_iff, keys', if_pos here, same', slots', if_pos here]
      exact ⟨rfl, rfl⟩
    · rw [if_neg here, place_eq_iff, keys', if_neg here, same', slots', if_neg here]
      exact ⟨rfl, rfl⟩

theorem Keyed.transfers_eq {s : Keyed v α} (hs : s.slots.size = v) {n : Nat} (hv : n ≤ v)
    (hw : n ≤ w) :
    ∃ p, (List.range n).foldlM (fun (target, source) i => source.transfer target i)
        ((empty : Keyed w α), s) = .ok p ∧ p.1.slots.size = w ∧ p.2.slots.size = v ∧
      (∀ k, p.1.place k = if k < n then s.place k else (empty : Keyed w α).place k) ∧
      ∀ k, p.2.place k = if k < n then (some filler, some none) else s.place k := by
  induction n with
  | zero =>
    exact ⟨(empty, s), rfl, Array.size_replicate, hs, fun k => (if_neg (Nat.not_lt_zero k)).symm,
      fun k => (if_neg (Nat.not_lt_zero k)).symm⟩
  | succ n ih =>
    obtain ⟨p, folded, size, size', target, source⟩ := ih (by omega) (by omega)
    obtain ⟨q, moved, size₁, size₁', target', source'⟩ :=
      transfer_eq size' size (i := n) hv hw
    refine ⟨q, ?_, size₁, size₁', fun k => ?_, fun k => ?_⟩
    · rw [List.range_succ, List.foldlM_append, folded]
      simp only [Checked.ok_bind, List.foldlM_cons, moved, List.foldlM_nil]
      rfl
    · rw [target', source, target]
      grind
    · rw [source', source]
      grind

theorem Keyed.place_empty {k : Nat} (hk : k < w) :
    (empty : Keyed w α).place k = (some filler, some none) := by
  simp [place, empty, hk]

theorem Keyed.resize_packed {s : Keyed v α} (h : s.Packed) (fits : s.count ≤ w) :
    ∃ p : Keyed w α × Keyed v α, s.resize = .ok p ∧ p.1.Packed ∧ p.1.count = s.count ∧
      (∀ k < s.count, p.1.place k = s.place k) ∧ p.2.Packed ∧ p.2.count = 0 := by
  obtain ⟨⟨t, r⟩, folded, size, size', target, source⟩ :=
    transfers_eq (w := w) h.size_slots h.count_le fits
  have moved (k : Nat) (hk : k < s.count) : place { t with count := s.count } k = s.place k :=
    (target k).trans (if_pos hk)
  refine ⟨({ t with count := s.count }, { r with count := 0 }), ?_,
    ⟨size, fits, fun k inside => ?_, fun k above below => ?_⟩, rfl, moved,
    ⟨size', Nat.zero_le _, fun k inside => ?_, fun k above below => ?_⟩, rfl⟩
  · rw [resize, if_pos fits, folded]
    rfl
  · exact moved k inside ▸ h.filled k inside
  · exact ((target k).trans (if_neg (Nat.not_lt.2 above))).trans (place_empty below)
  · exact absurd inside (Nat.not_lt_zero k)
  · change r.place k = _
    rw [source]
    split
    · rfl
    · next beyond => exact h.spare k (Nat.not_lt.1 beyond) below

theorem Keyed.resize_eq {s : Keyed v α} (h : s.Sound) (fits : s.count ≤ w) :
    ∃ p : Keyed w α × Keyed v α, s.resize = .ok p ∧ p.1.Sound ∧ p.1.children = s.children ∧
      p.2.Sound ∧ p.2.children = [] := by
  obtain ⟨p, done, packed, count, moved, left, none_left⟩ := resize_packed h.packed fits
  have sound : p.1.Sound := packed.sound fun i j x y c d hij inside hx hy => by
    rw [count] at inside
    rw [moved i (Nat.lt_trans hij inside)] at hx
    rw [moved j inside] at hy
    exact lt_of_place h hij inside hx hy
  refine ⟨p, done, sound, ?_, left.sound fun i j _ _ _ _ _ inside => ?_, ?_⟩
  · refine (ascending_children sound).ext (ascending_children h) fun ⟨b, c⟩ => ?_
    rw [mem_children_iff, mem_children_iff, count]
    exact exists_congr fun k => and_congr_right fun inside => by rw [moved k inside]
  · exact absurd (none_left ▸ inside) (Nat.not_lt_zero j)
  · rw [children, none_left]
    rfl

theorem Keyed.toIndexed_eq {s : Keyed w α} (h : s.Sound) (fits : s.count ≤ Indexed.width) :
    ∃ p, s.toIndexed = .ok p ∧ p.1.Sound ∧ p.1.children = s.children ∧ p.2.Sound ∧
      p.2.children = [] := by
  rw [toIndexed, if_pos h.count_le]
  refine drain (takes_of_erase (fun _ => ascending_children) (fun _ b hs => erase_cases hs b)
    (fun t s b nothing => ?_) fun t t' s s' b c taken added => ?_)
    Indexed.receives h Indexed.sound_empty Indexed.children_empty
    (by rwa [length_children h]) fun e he => ?_
  · simp only [nothing, Checked.ok_bind]
    rfl
  · simp only [taken, added, Checked.ok_bind]
    rfl
  · rw [← map_fst_children h]
    exact List.mem_map_of_mem he

theorem Indexed.takes (add : τ → UInt8 → α → Checked τ) :
    Takes (σ := Indexed α) children Sound add fun (target, s) b => do
      match ← s.erase b with
      | (none, s) => return (target, s)
      | (some child, s) => return (← add target b child, s) := by
  refine takes_of_erase (fun s _ => ascending_children s) (fun _ b hs => erase_cases hs b)
    (fun t s b nothing => ?_) fun t t' s s' b c taken added => ?_
  · simp only [nothing, Checked.ok_bind]
    rfl
  · simp only [taken, added, Checked.ok_bind]
    rfl

theorem Indexed.moveInto_eq {target : τ → List (UInt8 × α)} {T : τ → Prop}
    {add : τ → UInt8 → α → Checked τ} {room : Nat} (receives : Receives target T add room)
    {s : Indexed α} (h : s.Sound) {t : τ} (ht : T t) (empty : target t = [])
    (fits : s.count ≤ room) :
    ∃ p, s.moveInto add t = .ok p ∧ T p.1 ∧ target p.1 = s.children ∧ p.2.Sound ∧
      p.2.children = [] := by
  rw [moveInto]
  exact drain (takes add) receives h ht empty (by rwa [length_children h])
    fun e _ => Bytes.mem_all e.1

theorem Indexed.toKeyed_eq {s : Indexed α} (h : s.Sound) (narrow : w ≤ 255) (fits : s.count ≤ w) :
    ∃ p : Keyed w α × Indexed α, s.toKeyed = .ok p ∧ p.1.Sound ∧ p.1.children = s.children ∧
      p.2.Sound ∧ p.2.children = [] :=
  moveInto_eq (Keyed.receives narrow) h Keyed.sound_empty Keyed.children_empty fits

theorem Indexed.toDirect_eq {s : Indexed α} (h : s.Sound) :
    ∃ p, s.toDirect = .ok p ∧ p.1.Sound ∧ p.1.children = s.children ∧ p.2.Sound ∧
      p.2.children = [] :=
  moveInto_eq Direct.receives h Direct.sound_empty Direct.children_empty
    (length_children h ▸ (ascending_children s).length_le)

theorem Direct.takes (add : τ → UInt8 → α → Checked τ) :
    Takes (fun slots : Array (Option α) => children ⟨slots, 0⟩) (fun slots => slots.size = width)
      add fun (target, slots) b => do
        match ← Checked.read slots b.toNat with
        | none => return (target, slots)
        | some child => return (← add target b child, ← Checked.write slots b.toNat none) := by
  refine ⟨fun slots _ => ascending_children ⟨slots, 0⟩, fun t slots b size absent => ?_,
    fun t t' slots b c size mem added => ?_⟩
  · have nothing := find?_eq (s := ⟨slots, 0⟩) size b
    rw [lookup_eq_none_iff.2 absent, find?] at nothing
    simp only [nothing, Checked.ok_bind]
    rfl
  · have there := find?_eq (s := ⟨slots, 0⟩) size b
    rw [(ascending_children _).lookup_eq_some_iff.2 mem, find?] at there
    obtain ⟨slots', cleared, size', erased⟩ := clear_eq (s := ⟨slots, 0⟩) size mem
    refine ⟨slots', ?_, size', erased 0⟩
    simp only [there, added, cleared, Checked.ok_bind]
    rfl

theorem Direct.moveInto_eq {target : τ → List (UInt8 × α)} {T : τ → Prop}
    {add : τ → UInt8 → α → Checked τ} {room : Nat} (receives : Receives target T add room)
    {s : Direct α} (h : s.Sound) {t : τ} (ht : T t) (empty : target t = [])
    (fits : s.count ≤ room) :
    ∃ p, s.moveInto add t = .ok p ∧ T p.1 ∧ target p.1 = s.children ∧ p.2.Sound ∧
      p.2.children = [] := by
  rw [moveInto]
  refine Checked.exists_bind (drain (takes add) receives h.size_slots ht empty (h.count_eq ▸ fits)
    fun e _ => Bytes.mem_all e.1) fun p hp => ?_
  obtain ⟨ht', same, size, emptied⟩ := hp
  exact ⟨_, rfl, ht', same, ⟨size, (congrArg List.length emptied).symm⟩, emptied⟩

theorem Direct.toIndexed_eq {s : Direct α} (h : s.Sound) (fits : s.count ≤ Indexed.width) :
    ∃ p, s.toIndexed = .ok p ∧ p.1.Sound ∧ p.1.children = s.children ∧ p.2.Sound ∧
      p.2.children = [] :=
  moveInto_eq Indexed.receives h Indexed.sound_empty Indexed.children_empty fits

section Overflow

variable {target : τ → List (UInt8 × α)} {T : τ → Prop} {add : τ → UInt8 → α → Checked τ}
  {room : Nat} {fault : Fault} (receives : Receives target T add room)
  (full : ∀ t b c, T t → (target t).length = room → (∀ d, (b, d) ∉ target t) →
    add t b c = .error fault)

include receives full

theorem Indexed.moveInto_overflow {s : Indexed α} (h : s.Sound) {t : τ} (ht : T t)
    (empty : target t = []) (excess : room < s.count) : s.moveInto add t = .error fault := by
  rw [← length_children h] at excess
  rw [moveInto]
  refine drain_overflow (takes add) receives full (fun t s b c e hs mem refused => ?_) h ht empty
    excess fun e _ => Bytes.mem_all e.1
  rcases erase_cases hs b with ⟨d, s', taken, -, erased⟩ | ⟨-, absent⟩
  · obtain rfl := (ascending_children s).eq_of_mem mem erased.1
    simp only [taken, refused, Checked.ok_bind]
    rfl
  · exact absurd mem (absent c)

theorem Direct.moveInto_overflow {s : Direct α} (h : s.Sound) {t : τ} (ht : T t)
    (empty : target t = []) (excess : room < s.count) : s.moveInto add t = .error fault := by
  rw [h.count_eq] at excess
  rw [moveInto]
  refine Checked.bind_eq_error (drain_overflow (takes add) receives full
    (fun t slots b c e size mem refused => ?_) h.size_slots ht empty excess
    fun e _ => Bytes.mem_all e.1) _
  have there := find?_eq (s := ⟨slots, 0⟩) size b
  rw [(ascending_children _).lookup_eq_some_iff.2 mem, find?] at there
  simp only [there, refused, Checked.ok_bind]
  rfl

end Overflow

theorem Keyed.resize_overflow {s : Keyed v α} (excess : w < s.count) :
    (s.resize : Checked (Keyed w α × Keyed v α)) = .error .tooManyChildren := by
  rw [resize, if_neg (Nat.not_le.2 excess)]
  rfl

theorem Indexed.toKeyed_overflow {s : Indexed α} (h : s.Sound) (narrow : w ≤ 255)
    (excess : w < s.count) :
    (s.toKeyed : Checked (Keyed w α × Indexed α)) = .error .noSpaceLeft := by
  refine moveInto_overflow (Keyed.receives narrow) (fun t b c ht full _ => ?_) h Keyed.sound_empty
    Keyed.children_empty excess
  rw [Keyed.length_children ht] at full
  exact Keyed.add_of_count_eq full b c

theorem Direct.toIndexed_overflow {s : Direct α} (h : s.Sound) (excess : Indexed.width < s.count) :
    s.toIndexed = .error .noSpaceLeft := by
  refine moveInto_overflow Indexed.receives (fun t b c ht full _ => ?_) h Indexed.sound_empty
    Indexed.children_empty excess
  rw [Indexed.length_children ht] at full
  exact Indexed.add_of_count_eq ht full b c

end AdaptiveRadix
