import AdaptiveRadix.Proofs.Storage.Interchange
import AdaptiveRadix.Storage.Action

/-!
What a conversion does to a storage that comes from additions of new bytes, erasures and earlier
conversions. Either the new layout has room, and the new storage is as good as one that was filled
with the same children, or the conversion faults.
-/

namespace AdaptiveRadix

namespace Layout

def targets : Layout → List Layout
  | keyed4 => [keyed4, keyed16, indexed48]
  | keyed16 => [keyed4, keyed16, indexed48]
  | indexed48 => [keyed4, keyed16, direct256]
  | direct256 => [indexed48]

/-- The fault of a conversion with too many children: only a copy of keyed rows counts them before
it starts. -/
def overflow : Layout → Layout → Fault
  | keyed16, keyed4 => .tooManyChildren
  | _, _ => .noSpaceLeft

end Layout

namespace Storage

open Edges Outcome

variable {α : Type} {s t u left : Storage α} {l m : Layout} {b : UInt8} {c : α}

/-- `t` has the children of `s` in the layout `l`, and `left` is what remains of `s`. -/
structure Moved (l : Layout) (s t left : Storage α) : Prop where
  sound : t.Sound
  layout : t.layout = l
  children : t.children = s.children
  left_sound : left.Sound
  left_layout : left.layout = s.layout
  left_children : left.children = []

theorem exists_moved {β γ : Type} {f : β → Storage α} {g : γ → Storage α} {x : Checked (β × γ)}
    (moved : ∃ p, x = .ok p ∧ (f p.1).Sound ∧ (f p.1).children = s.children ∧ (g p.2).Sound ∧
      (g p.2).children = [])
    (hf : ∀ y, (f y).layout = l) (hg : ∀ z, (g z).layout = s.layout) :
    ∃ t left, some (do return (← x).map f g) = some (.ok (t, left)) ∧ Moved l s t left := by
  obtain ⟨p, rfl, sound, same, left_sound, emptied⟩ := moved
  exact ⟨f p.1, g p.2, rfl, sound, hf _, same, left_sound, hg _, emptied⟩

theorem convert?_of_count_le (h : s.Sound) (supported : l ∈ s.layout.targets)
    (fits : s.count ≤ l.width) :
    ∃ t left, s.convert? l = some (.ok (t, left)) ∧ Moved l s t left := by
  cases s with
  | keyed4 s =>
    cases l with
    | keyed4 => exact exists_moved (Keyed.resize_eq h fits) (fun _ => rfl) fun _ => rfl
    | keyed16 => exact exists_moved (Keyed.resize_eq h fits) (fun _ => rfl) fun _ => rfl
    | indexed48 => exact exists_moved (Keyed.toIndexed_eq h fits) (fun _ => rfl) fun _ => rfl
    | direct256 => contradiction
  | keyed16 s =>
    cases l with
    | keyed4 => exact exists_moved (Keyed.resize_eq h fits) (fun _ => rfl) fun _ => rfl
    | keyed16 => exact exists_moved (Keyed.resize_eq h fits) (fun _ => rfl) fun _ => rfl
    | indexed48 => exact exists_moved (Keyed.toIndexed_eq h fits) (fun _ => rfl) fun _ => rfl
    | direct256 => contradiction
  | indexed48 s =>
    cases l with
    | keyed4 =>
      exact exists_moved (Indexed.toKeyed_eq h (by decide) fits) (fun _ => rfl) fun _ => rfl
    | keyed16 =>
      exact exists_moved (Indexed.toKeyed_eq h (by decide) fits) (fun _ => rfl) fun _ => rfl
    | indexed48 => contradiction
    | direct256 => exact exists_moved (Indexed.toDirect_eq h) (fun _ => rfl) fun _ => rfl
  | direct256 s =>
    cases l with
    | indexed48 => exact exists_moved (Direct.toIndexed_eq h fits) (fun _ => rfl) fun _ => rfl
    | _ => contradiction

theorem convert?_of_lt_count (h : s.Sound) (supported : l ∈ s.layout.targets)
    (excess : l.width < s.count) : s.convert? l = some (.error (s.layout.overflow l)) := by
  have within := count_le h
  cases s with
  | keyed4 s =>
    have : l.width < 4 := Nat.lt_of_lt_of_le excess within
    cases l <;> contradiction
  | keyed16 s =>
    have : l.width < 16 := Nat.lt_of_lt_of_le excess within
    cases l with
    | keyed4 => exact congrArg some (Checked.bind_eq_error (Keyed.resize_overflow excess) _)
    | _ => contradiction
  | indexed48 s =>
    have : l.width < 48 := Nat.lt_of_lt_of_le excess within
    cases l with
    | keyed4 =>
      exact congrArg some (Checked.bind_eq_error (Indexed.toKeyed_overflow h (by decide) excess) _)
    | keyed16 =>
      exact congrArg some (Checked.bind_eq_error (Indexed.toKeyed_overflow h (by decide) excess) _)
    | _ => contradiction
  | direct256 s =>
    cases l with
    | indexed48 =>
      exact congrArg some (Checked.bind_eq_error (Direct.toIndexed_overflow h excess) _)
    | _ => contradiction

theorem convert?_eq_none (unsupported : l ∉ s.layout.targets) : s.convert? l = none := by
  cases s with
  | keyed4 s | keyed16 s =>
    cases l with
    | direct256 => rfl
    | _ => simp [layout, Layout.targets] at unsupported
  | indexed48 s =>
    cases l with
    | indexed48 => rfl
    | _ => simp [layout, Layout.targets] at unsupported
  | direct256 s =>
    cases l with
    | indexed48 => simp [layout, Layout.targets] at unsupported
    | _ => rfl

theorem Moved.count_eq (h : Moved l s t left) (hs : s.Sound) : t.count = s.count :=
  count_eq_of_length_eq h.sound hs (congrArg List.length h.children)

theorem Moved.left_count (h : Moved l s t left) : left.count = 0 := by
  rw [← length_children h.left_sound, h.left_children, List.length_nil]

/-- Two sound storages of one layout that hold the same children, whatever their slots. -/
structure Alike (s u : Storage α) : Prop where
  left : s.Sound
  right : u.Sound
  layout : s.layout = u.layout
  children : s.children = u.children

def Action.Fresh (s : Storage α) : Action α → Prop
  | .step (.add b _) => s.find? b = .ok none
  | _ => True

/-- Two storages answer all later actions alike, faults included, as long as every byte that is
added is new. -/
def Interchangeable (s u : Storage α) : Prop :=
  ∀ actions, EachFits act Action.Fresh s actions →
    (s.perform actions).map (·.answer) = (u.perform actions).map (·.answer)

theorem models_of_sound (h : s.Sound) : Models s.layout s fun b => s.children.lookup b where
  sound := h
  layout := rfl
  children := (ascending_children h).ext (ascending_table _) fun ⟨b, c⟩ => by
    rw [mem_table, (ascending_children h).lookup_eq_some_iff]

theorem Alike.agrees_step (h : Alike s u) {i : Step α} (fresh : (Action.step i).Fresh s) :
    Agrees Alike (s.step i) (u.step i) := by
  have model := models_of_sound h.left
  have other : Models s.layout u fun b => s.children.lookup b := by
    rw [h.layout, h.children]
    exact models_of_sound h.right
  have new : ByteMap.Fresh (fun b => s.children.lookup b) i := by
    cases i with
    | add b c => exact Except.ok.inj ((find?_eq h.left b).symm.trans fresh)
    | _ => trivial
  refine ((model.simulates_step i new).agrees (other.simulates_step i new)).mono ?_
  rintro t v ⟨f, after, after'⟩
  exact ⟨after.sound, after'.sound, after.layout.trans after'.layout.symm,
    after.children.trans after'.children.symm⟩

theorem Alike.agrees_convert (h : Alike s u) (m : Layout) :
    Agrees Alike (s.act (.convert m)) (u.act (.convert m)) := by
  have count : s.count = u.count :=
    count_eq_of_length_eq h.left h.right (congrArg List.length h.children)
  by_cases supported : m ∈ s.layout.targets
  · have supported' : m ∈ u.layout.targets := h.layout ▸ supported
    by_cases fits : s.count ≤ m.width
    · obtain ⟨t, left, done, moved⟩ := convert?_of_count_le h.left supported fits
      obtain ⟨v, left', done', moved'⟩ := convert?_of_count_le h.right supported' (count ▸ fits)
      refine .inl ⟨⟨.moved left.count, t, []⟩, ⟨.moved left'.count, v, []⟩, ?_, ?_, ?_, moved.sound,
        moved'.sound, moved.layout.trans moved'.layout.symm, ?_⟩
      · rw [act, done]
        rfl
      · rw [act, done']
        rfl
      · rw [moved.left_count, moved'.left_count]
      · rw [moved.children, moved'.children, h.children]
    · have excess := Nat.lt_of_not_le fits
      refine .inr ⟨s.layout.overflow m, ?_, ?_⟩
      · rw [act, convert?_of_lt_count h.left supported excess]
        rfl
      · rw [act, convert?_of_lt_count h.right supported' (count ▸ excess), h.layout]
        rfl
  · refine .inl ⟨.unchanged s .unsupported, .unchanged u .unsupported, ?_, ?_, rfl, h⟩
    · rw [act, convert?_eq_none supported]
      rfl
    · rw [act, convert?_eq_none (h.layout ▸ supported)]
      rfl

theorem Alike.interchangeable (h : Alike s u) : s.Interchangeable u := by
  intro actions fresh
  refine map_answer_runAll_eq (Q := Alike) (fun s u a alike fresh => ?_) h fresh
  cases a with
  | step i => exact (alike.agrees_step fresh).mapAnswer _
  | convert m => exact alike.agrees_convert m

/-- A storage that comes from additions of new bytes, erasures and conversions. What a conversion
leaves of the old storage counts too. -/
inductive Reached : Storage α → Prop where
  | empty (l : Layout) : Reached (empty l)
  | add {s t : Storage α} {b : UInt8} {c : α} (h : Reached s) (absent : s.find? b = .ok none)
    (added : s.add b c = .ok t) : Reached t
  | erase {s t : Storage α} {b : UInt8} {c? : Option α} (h : Reached s)
    (taken : s.erase b = .ok (c?, t)) : Reached t
  | convert {s t left : Storage α} {l : Layout} (h : Reached s)
    (moved : s.convert? l = some (.ok (t, left))) : Reached t
  | remains {s t left : Storage α} {l : Layout} (h : Reached s)
    (moved : s.convert? l = some (.ok (t, left))) : Reached left

theorem moved_of_convert? (h : s.Sound) (done : s.convert? l = some (.ok (t, left))) :
    Moved l s t left := by
  by_cases supported : l ∈ s.layout.targets
  · by_cases fits : s.count ≤ l.width
    · obtain ⟨t', left', done', moved⟩ := convert?_of_count_le h supported fits
      rw [done] at done'
      cases done'
      exact moved
    · rw [convert?_of_lt_count h supported (Nat.lt_of_not_le fits)] at done
      cases done
  · rw [convert?_eq_none supported] at done
    cases done

theorem absent_of_find? (h : s.Sound) (absent : s.find? b = .ok none) (d : α) :
    (b, d) ∉ s.children := by
  rw [find?_eq h] at absent
  exact lookup_eq_none_iff.1 (Except.ok.inj absent) d

theorem Reached.sound (h : s.Reached) : s.Sound := by
  induction h with
  | empty l => exact sound_empty l
  | @add s t b c h absent added sound =>
    exact (sound_of_add sound (absent_of_find? sound absent) added).1
  | @erase s t b c? h taken sound =>
    rcases erase_cases sound b with ⟨c, t', taken', sound', -⟩ | ⟨nothing, -⟩
    · rw [taken] at taken'
      cases taken'
      exact sound'
    · rw [taken] at nothing
      cases nothing
      exact sound
  | convert h moved sound => exact (moved_of_convert? sound moved).sound
  | remains h moved sound => exact (moved_of_convert? sound moved).left_sound

def fill (l : Layout) (cs : List (UInt8 × α)) : Checked (Storage α) :=
  cs.foldlM (fun s c => s.add c.1 c.2) (empty l)

theorem exists_foldlM_add (h : s.Reached) {cs : List (UInt8 × α)}
    (distinct : (cs.map (·.1)).Nodup) (absent : ∀ c ∈ cs, ∀ d, (c.1, d) ∉ s.children)
    (fits : s.count + cs.length ≤ s.width) :
    ∃ t, cs.foldlM (fun s c => s.add c.1 c.2) s = .ok t ∧ t.Reached ∧ t.layout = s.layout ∧
      ∀ e, e ∈ t.children ↔ e ∈ s.children ∨ e ∈ cs := by
  induction cs generalizing s with
  | nil => exact ⟨s, rfl, h, rfl, fun e => by simp⟩
  | cons c cs ih =>
    obtain ⟨b, c⟩ := c
    rw [List.map_cons, List.nodup_cons] at distinct
    rw [List.length_cons] at fits
    have new := absent _ (List.mem_cons_self ..)
    obtain ⟨t, added, sound, layout, inserted⟩ := add_eq h.sound (by omega) new c
    have more := count_of_inserted h.sound sound inserted
    have find : s.find? b = .ok none := by
      rw [find?_eq h.sound, lookup_eq_none_iff.2 new]
    have width : t.width = s.width := congrArg Layout.width layout
    have absent' (e : UInt8 × α) (he : e ∈ cs) (d : α) : (e.1, d) ∉ t.children := by
      intro hd
      rcases (inserted.2 _).1 hd with same | hd
      · have held : e.1 ∈ cs.map (·.1) := List.mem_map_of_mem he
        rw [show e.1 = b from congrArg Prod.fst same] at held
        exact distinct.1 held
      · exact absent e (List.mem_cons_of_mem _ he) d hd
    obtain ⟨u, done, reached, layout', mem⟩ := ih (h.add find added) distinct.2 absent' (by omega)
    refine ⟨u, ?_, reached, layout'.trans layout, fun e => ?_⟩
    · rw [List.foldlM_cons, added]
      exact done
    · rw [mem, inserted.2, List.mem_cons, or_assoc]
      exact or_left_comm

theorem exists_fill (l : Layout) {cs : List (UInt8 × α)} (distinct : (cs.map (·.1)).Nodup)
    (fits : cs.length ≤ l.width) :
    ∃ t, fill l cs = .ok t ∧ t.Reached ∧ t.layout = l ∧ t.children.Perm cs := by
  have none_there (c : UInt8 × α) (d : α) : (c.1, d) ∉ (empty l : Storage α).children := by
    rw [children_empty]
    exact List.not_mem_nil
  have bare : (empty l : Storage α).count = 0 := by
    rw [← length_children (sound_empty l), children_empty, List.length_nil]
  obtain ⟨t, done, reached, layout, mem⟩ := exists_foldlM_add (.empty l) distinct
    (fun c _ => none_there c) (by rwa [bare, Nat.zero_add, width, layout_empty])
  refine ⟨t, done, reached, layout.trans (layout_empty l), ?_⟩
  have once : cs.Nodup := List.Pairwise.of_map _ (fun _ _ => ne_of_apply_ne _) distinct
  apply (List.perm_ext_iff_of_nodup (ascending_children reached.sound).nodup once).2
  intro e
  rw [mem, children_empty]
  simp

/-- All that a conversion gives. The new storage is as good as one that was filled with the same
children in any order, and the old one as good as an empty one. -/
structure Converted (l : Layout) (s t left : Storage α) : Prop extends Moved l s t left where
  ascending : Ascending t.children
  count : t.count = s.count
  find? : ∀ b, t.find? b = s.find? b
  later : ∀ cs, cs.Perm s.children → ∃ fresh, fill l cs = .ok fresh ∧ t.Interchangeable fresh
  left_count : left.count = 0
  left_find? : ∀ b, left.find? b = .ok none
  left_later : left.Interchangeable (Storage.empty s.layout)

theorem Moved.converted (h : Moved l s t left) (hs : s.Sound) (fits : s.count ≤ l.width) :
    Converted l s t left where
  toMoved := h
  ascending := ascending_children h.sound
  count := h.count_eq hs
  find? b := by rw [find?_eq h.sound, find?_eq hs, h.children]
  later cs perm := by
    have distinct : (cs.map (·.1)).Nodup :=
      (perm.map _).nodup_iff.2 (ascending_children hs).nodup_keys
    have length : cs.length = s.count := perm.length_eq.trans (length_children hs)
    obtain ⟨fresh, filled, reached, layout, held⟩ := exists_fill l distinct (length ▸ fits)
    have same : t.children = fresh.children := by
      rw [h.children]
      apply (ascending_children hs).ext (ascending_children reached.sound)
      intro e
      rw [held.mem_iff, perm.mem_iff]
    have alike : Alike t fresh := ⟨h.sound, reached.sound, h.layout.trans layout.symm, same⟩
    exact ⟨fresh, filled, alike.interchangeable⟩
  left_count := h.left_count
  left_find? b := by
    rw [find?_eq h.left_sound, h.left_children]
    rfl
  left_later := by
    apply Alike.interchangeable
    exact ⟨h.left_sound, sound_empty _, h.left_layout.trans (layout_empty _).symm,
      h.left_children.trans (children_empty _).symm⟩

/-- A supported conversion of a reached storage moves all children and nothing else, if the new
layout has room for them, and faults if it has not. -/
theorem convert?_of_reached (reached : s.Reached) (supported : l ∈ s.layout.targets) :
    (s.count ≤ l.width →
      ∃ t left, s.convert? l = some (.ok (t, left)) ∧ Converted l s t left) ∧
    (l.width < s.count → s.convert? l = some (.error (s.layout.overflow l))) := by
  have sound := reached.sound
  constructor
  · intro fits
    obtain ⟨t, left, done, moved⟩ := convert?_of_count_le sound supported fits
    exact ⟨t, left, done, moved.converted sound fits⟩
  · exact convert?_of_lt_count sound supported

theorem convert?_of_reached_five :
    ∃ s : Storage Nat, s.Reached ∧ s.layout = .keyed16 ∧ s.count = 5 ∧
      (∃ t left, s.convert? .indexed48 = some (.ok (t, left)) ∧ Converted .indexed48 s t left) ∧
      s.convert? .keyed4 = some (.error .tooManyChildren) := by
  have five : ∃ s : Storage Nat,
      fill .keyed16 [(9, 90), (255, 5), (0, 7), (4, 44), (200, 1)] = .ok s ∧ s.Reached ∧
        s.layout = .keyed16 ∧ s.children.Perm [(9, 90), (255, 5), (0, 7), (4, 44), (200, 1)] :=
    exists_fill .keyed16 (by decide) (by decide)
  obtain ⟨s, -, reached, layout, held⟩ := five
  have count : s.count = 5 := (length_children reached.sound).symm.trans held.length_eq
  have wide : Layout.indexed48 ∈ s.layout.targets := by rw [layout]; decide
  have narrow : Layout.keyed4 ∈ s.layout.targets := by rw [layout]; decide
  have moved := (convert?_of_reached reached wide).1 (by rw [count]; decide)
  have refused := (convert?_of_reached reached narrow).2 (by rw [count]; decide)
  rw [layout] at refused
  exact ⟨s, reached, layout, count, moved, refused⟩

end Storage

end AdaptiveRadix
