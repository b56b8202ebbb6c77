import AdaptiveRadix.Dictionary
import Mathlib.Tactic.Common

/-!
Lists of entries in the order of their keys. Such a list is known by its members, so an operation is
described by the members before and after it, and the functions on dictionaries are the only ones
that fit the descriptions.
-/

namespace AdaptiveRadix.Dictionary

variable {V : Type} {d d' : Dictionary V} {e : Entry V} {key : Bytes} {value : V}
  {repetition : Repetition}

def Ordered (d : Dictionary V) : Prop :=
  d.Pairwise (·.key < ·.key)

theorem ne_of_lt {a b : Bytes} (h : a < b) : a ≠ b := fun same =>
  List.lt_irrefl b (same ▸ h)

theorem lt_of_not_lt {a b : Bytes} (h : ¬ a < b) (different : a ≠ b) : b < a :=
  Decidable.byContradiction fun other =>
    different (List.le_antisymm (List.not_lt.1 other) (List.not_lt.1 h))

theorem Ordered.eq_of_mem (h : Ordered d) {f : Entry V} (he : e ∈ d) (hf : f ∈ d)
    (same : e.key = f.key) : e = f := by
  by_contra different
  obtain ⟨i, hi, rfl⟩ := List.getElem_of_mem he
  obtain ⟨j, hj, rfl⟩ := List.getElem_of_mem hf
  have order := List.pairwise_iff_getElem.1 h
  rcases Nat.lt_trichotomy i j with lt | rfl | lt
  · exact ne_of_lt (order i j hi hj lt) same
  · exact different rfl
  · exact ne_of_lt (order j i hj hi lt) same.symm

theorem Ordered.nodup (h : Ordered d) : d.Nodup :=
  List.Pairwise.imp (fun lt => ne_of_apply_ne Entry.key (ne_of_lt lt)) h

theorem Ordered.ext (hd : Ordered d) (hd' : Ordered d') (h : ∀ f, f ∈ d ↔ f ∈ d') : d = d' :=
  ((List.perm_ext_iff_of_nodup hd.nodup hd'.nodup).2 h).eq_of_pairwise
    (fun _ _ _ _ ab ba => absurd ba (List.lt_asymm ab)) hd hd'

theorem entry?_eq_none_iff : d.entry? key = none ↔ ∀ f ∈ d, f.key ≠ key := by
  simp [Dictionary.entry?]

theorem Ordered.entry?_eq_some_iff (h : Ordered d) :
    d.entry? key = some e ↔ e ∈ d ∧ e.key = key := by
  constructor
  · intro found
    exact ⟨List.mem_of_find?_eq_some found, by simpa using List.find?_some found⟩
  · rintro ⟨mem, same⟩
    cases found : d.entry? key with
    | none => exact absurd same (entry?_eq_none_iff.1 found e mem)
    | some f =>
      have same' : f.key = key := by simpa using List.find?_some found
      rw [h.eq_of_mem (List.mem_of_find?_eq_some found) mem (same'.trans same.symm)]

theorem Ordered.perm_filter (h : Ordered d) (found : d.entry? key = some e) :
    d.Perm (e :: d.filter fun f => f.key ≠ key) := by
  obtain ⟨mem, same⟩ := h.entry?_eq_some_iff.1 found
  have nodup : (e :: d.filter fun f => f.key ≠ key).Nodup :=
    List.nodup_cons.2 ⟨by simp [same], h.nodup.filter _⟩
  refine (List.perm_ext_iff_of_nodup h.nodup nodup).2 fun f => ?_
  rw [List.mem_cons, List.mem_filter]
  by_cases here : f.key = key
  · simp only [here, ne_eq, not_true_eq_false, decide_false, and_false, or_false,
      Bool.false_eq_true]
    exact ⟨fun hf => h.eq_of_mem hf mem (here.trans same.symm), fun equal => equal ▸ mem⟩
  · have other : f ≠ e := fun equal => here (equal ▸ same)
    simp [here, other]

theorem perm_add (d : Dictionary V) (e : Entry V) : (d.add e).Perm (e :: d) := by
  rw [add]
  refine List.perm_middle.trans ?_
  rw [List.takeWhile_append_dropWhile]

theorem mem_add {f : Entry V} : f ∈ d.add e ↔ f = e ∨ f ∈ d :=
  (perm_add d e).mem_iff.trans List.mem_cons

theorem length_add (d : Dictionary V) (e : Entry V) : (d.add e).length = d.length + 1 :=
  (perm_add d e).length_eq

theorem Ordered.perm_update (h : Ordered d) (found : d.entry? key = some e)
    (change : Entry V → Entry V) :
    (d.update key change).Perm (change e :: d.filter fun f => f.key ≠ key) := by
  have same := (h.entry?_eq_some_iff.1 found).2
  have others : ((d.filter fun f => f.key ≠ key).map
      fun f => if f.key = key then change f else f) = d.filter fun f => f.key ≠ key := by
    refine (List.map_congr_left fun f hf => ?_).trans (List.map_id _)
    exact if_neg (of_decide_eq_true (List.mem_filter.1 hf).2)
  have changed := (h.perm_filter found).map fun f => if f.key = key then change f else f
  rwa [List.map_cons, others, if_pos same] at changed

theorem Ordered.add (h : Ordered d) (absent : ∀ f ∈ d, f.key ≠ e.key) : Ordered (d.add e) := by
  have before (f : Entry V) (hf : f ∈ d.takeWhile (·.key < e.key)) : f.key < e.key := by
    simpa using List.all_eq_true.1 List.all_takeWhile f hf
  have after (f : Entry V) (hf : f ∈ d.dropWhile (·.key < e.key)) : e.key < f.key := by
    have mem : f ∈ d := (List.dropWhile_suffix _).subset hf
    have sorted : Ordered (d.dropWhile (·.key < e.key)) := h.sublist (List.dropWhile_sublist _)
    cases rest : d.dropWhile (·.key < e.key) with
    | nil => simp [rest] at hf
    | cons g rest' =>
      have first : ¬ g.key < e.key := by
        have := List.head_dropWhile_not (p := fun x : Entry V => decide (x.key < e.key)) (l := d)
          (by rw [rest]; exact List.cons_ne_nil _ _)
        simpa [rest] using this
      have hg : g ∈ d := (List.dropWhile_suffix _).subset (rest ▸ List.mem_cons_self)
      have lt : e.key < g.key := lt_of_not_lt first (absent g hg)
      rw [rest] at hf sorted
      rcases List.mem_cons.1 hf with rfl | hf
      · exact lt
      · exact List.lt_trans lt ((List.pairwise_cons.1 sorted).1 f hf)
  refine List.pairwise_append.2 ⟨h.sublist (List.takeWhile_sublist _), ?_, ?_⟩
  · exact List.pairwise_cons.2 ⟨after, h.sublist (List.dropWhile_sublist _)⟩
  · intro f hf g hg
    rcases List.mem_cons.1 hg with rfl | hg
    · exact before f hf
    · exact List.lt_trans (before f hf) (after g hg)

theorem add_eq (hd : Ordered d) (hd' : Ordered d') (absent : ∀ f ∈ d, f.key ≠ e.key)
    (after : ∀ f, f ∈ d' ↔ f = e ∨ f ∈ d) : d.add e = d' :=
  (hd.add absent).ext hd' fun f => by rw [after, mem_add]

/-- `d'` is `d` with `e` in place of what stood under its key. -/
def Changed (e : Entry V) (d d' : Dictionary V) : Prop :=
  ∀ f, f ∈ d' ↔ f = e ∨ f ∈ d ∧ f.key ≠ e.key

theorem update_eq (hd : Ordered d) (hd' : Ordered d') (mem : e ∈ d) (change : Entry V → Entry V)
    (keeps : ∀ f, (change f).key = f.key) (changed : Changed (change e) d d') :
    d.update e.key change = d' := by
  have ordered : Ordered (d.update e.key change) := by
    refine List.pairwise_map.2 (hd.imp fun {f g} lt => ?_)
    have keeps (f : Entry V) : (if f.key = e.key then change f else f).key = f.key := by
      split
      · exact keeps f
      · rfl
    rwa [keeps, keeps]
  have found : d.entry? e.key = some e := hd.entry?_eq_some_iff.2 ⟨mem, rfl⟩
  refine ordered.ext hd' fun f => ?_
  rw [changed, (hd.perm_update found change).mem_iff, keeps]
  simp

def HitFits (d : Dictionary V) (key : Bytes) : Prop :=
  ∀ e ∈ d, e.key = key → e.hits.toNat + 1 < UInt64.size

/-- What storing a key makes of the members, and what it answers. -/
inductive Upserted (repetition : Repetition) (key : Bytes) (value : V) (d d' : Dictionary V) :
    Except KeyError UInt64 → Prop
  | duplicate {e : Entry V} (mem : e ∈ d) (same : e.key = key) (refused : repetition = .refused)
    (after : ∀ f, f ∈ d' ↔ f ∈ d) : Upserted repetition key value d d' (.error .duplicateKey)
  | counted {e : Entry V} (mem : e ∈ d) (same : e.key = key) (counted : repetition = .counted)
    (fits : e.hits.toNat + 1 < UInt64.size)
    (after : Changed { e with hits := e.hits + 1 } d d') :
    Upserted repetition key value d d' (.ok (e.hits + 1))
  | conflict {e : Entry V} (absent : ∀ f ∈ d, f.key ≠ key) (mem : e ∈ d)
    (nested : Nested key e.key) (after : ∀ f, f ∈ d' ↔ f ∈ d) :
    Upserted repetition key value d d' (.error .prefixConflict)
  | added (absent : ∀ f ∈ d, f.key ≠ key) (apart : ∀ f ∈ d, ¬ Nested key f.key)
    (after : ∀ f, f ∈ d' ↔ f = ⟨key, value, 1⟩ ∨ f ∈ d) :
    Upserted repetition key value d d' (.ok 1)

inductive Assigned (key : Bytes) (value : V) (d d' : Dictionary V) : Except KeyError V → Prop
  | absent (absent : ∀ f ∈ d, f.key ≠ key) (after : ∀ f, f ∈ d' ↔ f ∈ d) :
    Assigned key value d d' (.error .notFound)
  | replaced {e : Entry V} (mem : e ∈ d) (same : e.key = key)
    (after : Changed { e with value } d d') : Assigned key value d d' (.ok e.value)

inductive Removed (key : Bytes) (d d' : Dictionary V) : Except KeyError V → Prop
  | absent (absent : ∀ f ∈ d, f.key ≠ key) (after : ∀ f, f ∈ d' ↔ f ∈ d) :
    Removed key d d' (.error .notFound)
  | taken {e : Entry V} (mem : e ∈ d) (same : e.key = key)
    (after : ∀ f, f ∈ d' ↔ f ∈ d ∧ f.key ≠ key) : Removed key d d' (.ok e.value)

theorem Upserted.eq_upsert {answer : Except KeyError UInt64}
    (h : Upserted repetition key value d d' answer) (hd : Ordered d) (hd' : Ordered d') :
    d.upsert repetition key value = (answer, d') := by
  cases h with
  | duplicate mem same refused after =>
    rw [upsert, hd.entry?_eq_some_iff.2 ⟨mem, same⟩, refused, hd.ext hd' fun f => (after f).symm]
  | @counted e mem same counted fits after =>
    rw [upsert, hd.entry?_eq_some_iff.2 ⟨mem, same⟩, counted]
    rw [← update_eq hd hd' mem (fun e => { e with hits := e.hits + 1 }) (fun _ => rfl) after, same]
  | @conflict e absent mem nested after =>
    rw [upsert, entry?_eq_none_iff.2 absent, hd.ext hd' fun f => (after f).symm]
    exact if_pos ⟨e, hd.ext hd' (fun f => (after f).symm) ▸ mem, nested⟩
  | added absent apart after =>
    rw [upsert, entry?_eq_none_iff.2 absent]
    refine (if_neg fun ⟨f, hf, nested⟩ => apart f hf nested).trans ?_
    rw [add_eq hd hd' absent after]

theorem Upserted.hitFits {answer : Except KeyError UInt64}
    (h : Upserted .counted key value d d' answer) (hd : Ordered d) : d.HitFits key := by
  intro f hf same
  cases h with
  | duplicate _ _ refused => cases refused
  | counted mem same' _ fits => exact hd.eq_of_mem mem hf (same'.trans same.symm) ▸ fits
  | conflict absent => exact absurd same (absent f hf)
  | added absent => exact absurd same (absent f hf)

theorem Upserted.length {answer : Except KeyError UInt64}
    (h : Upserted repetition key value d d' answer) (hd : Ordered d) (hd' : Ordered d')
    (positive : ∀ f ∈ d, f.hits ≠ 0) :
    (∀ f ∈ d', f.hits ≠ 0) ∧
      (answer = .ok 1 ∧ d'.length = d.length + 1 ∨
        answer ≠ .ok 1 ∧ d'.length = d.length ∧
          (repetition = .counted ∨ ∃ e, answer = .error e)) := by
  cases h with
  | duplicate mem same refused after =>
    obtain rfl := hd.ext hd' fun f => (after f).symm
    exact ⟨positive, .inr ⟨by simp, rfl, .inr ⟨_, rfl⟩⟩⟩
  | @counted e mem same counted fits after =>
    have more : (e.hits + 1).toNat = e.hits.toNat + 1 := Checked.toNat_add fits
    refine ⟨fun f hf => ?_, .inr ⟨fun first => ?_, ?_, .inl counted⟩⟩
    · rcases (after f).1 hf with rfl | ⟨hf, -⟩
      · exact fun zero => absurd (more.symm.trans (congrArg UInt64.toNat zero)) (by simp)
      · exact positive f hf
    · have one : e.hits + 1 = 1 := Except.ok.inj first
      refine positive e mem (UInt64.toNat_inj.1 ?_)
      rw [one] at more
      exact (Nat.succ.inj more).symm
    · rw [← update_eq hd hd' mem (fun e => { e with hits := e.hits + 1 }) (fun _ => rfl) after,
        update, List.length_map]
  | conflict absent mem nested after =>
    obtain rfl := hd.ext hd' fun f => (after f).symm
    exact ⟨positive, .inr ⟨by simp, rfl, .inr ⟨_, rfl⟩⟩⟩
  | added absent apart after =>
    refine ⟨fun f hf => ?_, .inl ⟨rfl, ?_⟩⟩
    · rcases (after f).1 hf with rfl | hf
      · exact (by decide : (1 : UInt64) ≠ 0)
      · exact positive f hf
    · rw [← add_eq hd hd' absent after, length_add]

theorem Assigned.eq_update {answer : Except KeyError V} (h : Assigned key value d d' answer)
    (hd : Ordered d) (hd' : Ordered d') :
    answer = (d.entry? key).elim (.error .notFound) (.ok ·.value) ∧
      (d.update key fun e => { e with value }) = d' := by
  cases h with
  | absent absent after =>
    refine ⟨by rw [entry?_eq_none_iff.2 absent]; rfl, ?_⟩
    rw [← hd.ext hd' fun f => (after f).symm]
    exact (List.map_congr_left fun f hf => if_neg (absent f hf)).trans (List.map_id _)
  | @replaced e mem same after =>
    refine ⟨by rw [hd.entry?_eq_some_iff.2 ⟨mem, same⟩]; rfl, ?_⟩
    rw [← same]
    exact update_eq hd hd' mem (fun e => { e with value }) (fun _ => rfl) after

theorem Removed.eq_filter {answer : Except KeyError V} (h : Removed key d d' answer)
    (hd : Ordered d) (hd' : Ordered d') :
    answer = (d.entry? key).elim (.error .notFound) (.ok ·.value) ∧
      (d.filter fun e => e.key ≠ key) = d' := by
  have ordered : Ordered (d.filter fun e => e.key ≠ key) := hd.filter _
  cases h with
  | absent absent after =>
    refine ⟨by rw [entry?_eq_none_iff.2 absent]; rfl, ordered.ext hd' fun f => ?_⟩
    rw [after, List.mem_filter]
    exact and_iff_left_of_imp fun hf => by simpa using absent f hf
  | @taken e mem same after =>
    refine ⟨by rw [hd.entry?_eq_some_iff.2 ⟨mem, same⟩]; rfl, ordered.ext hd' fun f => ?_⟩
    rw [after, List.mem_filter]
    simp

theorem Removed.length {answer : Except KeyError V} (h : Removed key d d' answer)
    (hd : Ordered d) (hd' : Ordered d') :
    (∃ v, answer = .ok v) ∧ d.length = d'.length + 1 ∨ (∃ e, answer = .error e) ∧ d = d' := by
  cases h with
  | absent absent after => exact .inr ⟨⟨_, rfl⟩, hd.ext hd' fun f => (after f).symm⟩
  | @taken e mem same after =>
    have found := hd.entry?_eq_some_iff.2 ⟨mem, same⟩
    have left : (d.filter fun f => f.key ≠ key) = d' :=
      Ordered.ext (hd.filter _) hd' fun f => by simp [after]
    exact .inl ⟨⟨_, rfl⟩, left ▸ (hd.perm_filter found).length_eq⟩

theorem Upserted.removed {d'' : Dictionary V} {answer : Except KeyError UInt64}
    {answer' : Except KeyError V} (h : Upserted .refused key value d d' answer)
    (removed : Removed key d' d'' answer') (stored : answer.isOk) :
    answer' = .ok value ∧ ∀ f, f ∈ d'' ↔ f ∈ d := by
  cases h with
  | duplicate => cases stored
  | counted _ _ counted => cases counted
  | conflict => cases stored
  | added absent apart after =>
    cases removed with
    | absent absent' => exact absurd rfl (absent' _ ((after _).2 (.inl rfl)))
    | @taken e mem same after' =>
      obtain rfl := ((after e).1 mem).resolve_right fun he => absent e he same
      refine ⟨rfl, fun f => ?_⟩
      rw [after', after]
      constructor
      · rintro ⟨rfl | hf, different⟩
        · exact absurd rfl different
        · exact hf
      · exact fun hf => ⟨.inr hf, absent f hf⟩

end AdaptiveRadix.Dictionary
