import AdaptiveRadix.Proofs.Run
import AdaptiveRadix.Proofs.Storage
import AdaptiveRadix.Storage.Step

/-!
A storage and the finite map from bytes to children that it stands for. As long as every byte that
is added is new, each layout answers every step as the map does, and refuses a child only when it
holds as many as it has room for. So the layouts differ in nothing else.
-/

namespace AdaptiveRadix

open Edges Outcome

variable {α : Type}

abbrev ByteMap (α : Type) := UInt8 → Option α

namespace ByteMap

variable {f : ByteMap α} {b : UInt8} {c : α} {m : List (UInt8 × α)}

def empty : ByteMap α := fun _ => none

def write (f : ByteMap α) (b : UInt8) (child? : Option α) : ByteMap α :=
  fun a => if a = b then child? else f a

def size (f : ByteMap α) : Nat :=
  (table f).length

def step (f : ByteMap α) : Storage.Step α → (Storage.Reply α × Nat) × ByteMap α
  | .add b child => ((.done, (f.write b (some child)).size), f.write b (some child))
  | .seek b => ((.child (f b), f.size), f)
  | .set b child =>
    let g := f.write b ((f b).map fun _ => child)
    ((.child (f b), g.size), g)
  | .erase b => ((.child (f b), (f.write b none).size), f.write b none)
  | .children => ((.children (table f), f.size), f)
  | .held => ((.held ((table f).map (·.1)), f.size), f)

/-- Only a byte that has no child is added. -/
def Fresh (f : ByteMap α) : Storage.Step α → Prop
  | .add b _ => f b = none
  | _ => True

def Fits (l : Layout) (f : ByteMap α) : Storage.Step α → Prop
  | .add .. => f.size < l.width
  | _ => True

/-- Every byte that the steps add to the empty map is new. -/
def AllFresh (steps : List (Storage.Step α)) : Prop :=
  AllFit step Fresh empty steps

def AllFitIn (l : Layout) (steps : List (Storage.Step α)) : Prop :=
  AllFit step (Fits l) empty steps

def answers (steps : List (Storage.Step α)) : List (Storage.Reply α × Nat) :=
  (replay step empty steps).1

theorem table_empty : table (empty : ByteMap α) = [] :=
  List.filterMap_eq_nil_iff.2 fun _ _ => rfl

theorem write_none (absent : f b = none) : f.write b none = f := by
  funext a
  rw [write]
  split
  · next same => rw [same, absent]
  · rfl

theorem eq_none_iff : f b = none ↔ ∀ d, (b, d) ∉ table f := by
  simp only [mem_table, Option.eq_none_iff_forall_ne_some, ne_eq]

theorem lookup_table (f : ByteMap α) (b : UInt8) : (table f).lookup b = f b := by
  cases found : f b with
  | none => exact lookup_eq_none_iff.2 (eq_none_iff.1 found)
  | some c => exact (ascending_table f).lookup_eq_some_iff.2 (mem_table.2 found)

theorem eq_table_of_inserted (h : Inserted b c (table f) m) (hm : Ascending m) :
    m = table (f.write b (some c)) := by
  refine hm.ext (ascending_table _) fun ⟨a, d⟩ => ?_
  rw [h.2, mem_table, mem_table, write]
  by_cases same : a = b
  · subst same
    simp [eq_none_iff.2 h.1, eq_comm]
  · simp [same]

theorem eq_table_of_replaced (h : Replaced b c (table f) m) (hm : Ascending m) :
    m = table (f.write b (some c)) := by
  refine hm.ext (ascending_table _) fun ⟨a, d⟩ => ?_
  rw [h.2, mem_table, mem_table, write]
  by_cases same : a = b
  · subst same
    simp [eq_comm]
  · simp [same]

theorem eq_table_of_erased (h : Erased b c (table f) m) (hm : Ascending m) :
    m = table (f.write b none) := by
  refine hm.ext (ascending_table _) fun ⟨a, d⟩ => ?_
  rw [h.2, mem_table, mem_table, write]
  by_cases same : a = b
  · simp [same]
  · simp [same]

theorem fits_direct256 {i : Storage.Step α} (fresh : f.Fresh i) : f.Fits .direct256 i := by
  cases i with
  | add b c => exact (ascending_table f).length_lt (eq_none_iff.1 fresh)
  | _ => trivial

theorem ascending_of_mem_replay {steps : List (Storage.Step α)} {n : Nat}
    (h : (.children m, n) ∈ (replay step f steps).1) : Ascending m := by
  induction steps generalizing f with
  | nil => exact absurd h List.not_mem_nil
  | cons i rest ih =>
    rcases List.mem_cons.1 h with here | later
    · cases i with
      | children =>
        cases here
        exact ascending_table f
      | _ => cases here
    · exact ih later

end ByteMap

namespace Storage

open ByteMap

variable {s t : Storage α} {f : ByteMap α} {l : Layout} {steps : List (Step α)}

/-- A sound storage of a layout with the children of a map. -/
structure Models (l : Layout) (s : Storage α) (f : ByteMap α) : Prop where
  sound : s.Sound
  layout : s.layout = l
  children : s.children = table f

theorem models_empty (l : Layout) : Models l (empty l) (ByteMap.empty : ByteMap α) where
  sound := sound_empty l
  layout := layout_empty l
  children := (children_empty l).trans table_empty.symm

section Models

variable (h : Models l s f)

include h

theorem Models.count_eq : s.count = f.size := by
  rw [← length_children h.sound, h.children, size]

theorem Models.width_eq : s.width = l.width :=
  congrArg Layout.width h.layout

theorem Models.find?_eq (b : UInt8) : s.find? b = .ok (f b) := by
  rw [Storage.find?_eq h.sound, h.children, lookup_table]

theorem Models.absent {b : UInt8} (absent : f b = none) (d : α) : (b, d) ∉ s.children := by
  rw [h.children]
  exact eq_none_iff.1 absent d

theorem Models.simulates_add {b : UInt8} (fresh : f b = none) (c : α) :
    Simulates (Models l) .noSpaceLeft (f.Fits l (.add b c)) (f.step (.add b c))
      (s.step (.add b c)) := by
  have absent := h.absent fresh
  by_cases room : s.count < s.width
  · obtain ⟨t, added, sound, layout, inserted⟩ := add_eq h.sound room absent c
    have after : Models l t (f.write b (some c)) :=
      ⟨sound, layout.trans h.layout,
        eq_table_of_inserted (h.children ▸ inserted) (ascending_children sound)⟩
    rw [h.count_eq, h.width_eq] at room
    refine .inl ⟨room, ⟨(.done, t.count), t, []⟩, ?_, after, ?_⟩
    · rw [Storage.step, added]
      rfl
    · rw [after.count_eq]
      rfl
  · have full : s.count = s.width := Nat.le_antisymm (count_le h.sound) (Nat.not_lt.1 room)
    refine .inr ⟨fun fits => room ?_, ?_⟩
    · rw [h.count_eq, h.width_eq]
      exact fits
    · rw [Storage.step, add_of_count_eq h.sound full absent]
      rfl

theorem Models.simulates_set (b : UInt8) (c : α) :
    Simulates (Models l) .noSpaceLeft (f.Fits l (.set b c)) (f.step (.set b c))
      (s.step (.set b c)) := by
  rcases replace_cases h.sound b c with ⟨t, put, sound, layout, replaced⟩ | ⟨kept, absent⟩
  · obtain ⟨d, held⟩ := replaced.1
    rw [h.children, mem_table] at held
    have after : Models l t (f.write b ((f b).map fun _ => c)) := by
      rw [held]
      exact ⟨sound, layout.trans h.layout,
        eq_table_of_replaced (h.children ▸ replaced) (ascending_children sound)⟩
    refine .inl ⟨trivial, ⟨(.child (f b), t.count), t, []⟩, ?_, after, ?_⟩
    · rw [Storage.step, h.find?_eq, Checked.ok_bind, put]
      rfl
    · rw [after.count_eq]
      rfl
  · rw [h.children] at absent
    have missing := eq_none_iff.2 absent
    have after : Models l s (f.write b ((f b).map fun _ => c)) := by
      rw [missing, Option.map_none, write_none missing]
      exact h
    refine .inl ⟨trivial, ⟨(.child (f b), s.count), s, []⟩, ?_, after, ?_⟩
    · rw [Storage.step, h.find?_eq, Checked.ok_bind, kept]
      rfl
    · rw [after.count_eq]
      rfl

theorem Models.simulates_erase (b : UInt8) :
    Simulates (Models l) .noSpaceLeft (f.Fits l (.erase b)) (f.step (.erase b))
      (s.step (.erase b)) := by
  rcases erase_cases h.sound b with ⟨c, t, taken, sound, layout, erased⟩ | ⟨nothing, absent⟩
  · have held := erased.1
    rw [h.children, mem_table] at held
    have after : Models l t (f.write b none) :=
      ⟨sound, layout.trans h.layout,
        eq_table_of_erased (h.children ▸ erased) (ascending_children sound)⟩
    refine .inl ⟨trivial, ⟨(.child (some c), t.count), t, []⟩, ?_, after, ?_⟩
    · rw [Storage.step, taken]
      rfl
    · rw [after.count_eq, ByteMap.step, held]
  · rw [h.children] at absent
    have missing := eq_none_iff.2 absent
    have after : Models l s (f.write b none) := by
      rw [write_none missing]
      exact h
    refine .inl ⟨trivial, ⟨(.child none, s.count), s, []⟩, ?_, after, ?_⟩
    · rw [Storage.step, nothing]
      rfl
    · rw [after.count_eq, ByteMap.step, missing]

theorem Models.simulates_step (i : Step α) (fresh : f.Fresh i) :
    Simulates (Models l) .noSpaceLeft (f.Fits l i) (f.step i) (s.step i) := by
  cases i with
  | add b c => exact h.simulates_add fresh c
  | set b c => exact h.simulates_set b c
  | erase b => exact h.simulates_erase b
  | seek b =>
    refine .inl ⟨trivial, .unchanged s (.child (f b), s.count), ?_, h, ?_⟩
    · rw [Storage.step, h.find?_eq]
      rfl
    · rw [h.count_eq]
      rfl
  | children =>
    refine .inl ⟨trivial, _, rfl, h, ?_⟩
    rw [Outcome.unchanged, h.children, h.count_eq]
    rfl
  | held =>
    refine .inl ⟨trivial, _, rfl, h, ?_⟩
    rw [Outcome.unchanged, Storage.held_eq h.sound, h.children, h.count_eq]
    rfl

end Models

theorem simulates_run (l : Layout) (fresh : AllFresh steps) :
    Simulates (Models l) .noSpaceLeft (AllFitIn l steps) (replay ByteMap.step ByteMap.empty steps)
      ((empty l).run steps) :=
  simulates_runAll_of_admitted (fun _ _ i h fresh => h.simulates_step i fresh) (models_empty l)
    fresh

theorem exists_run_of_fits (fresh : AllFresh steps) (fits : AllFitIn l steps) :
    ∃ o, (empty l).run steps = .ok o ∧ o.answer = answers steps ∧
      Models l o.after (replay ByteMap.step ByteMap.empty steps).2 := by
  rcases simulates_run l fresh with ⟨-, o, done, models, same⟩ | ⟨misfit, -⟩
  · exact ⟨o, done, same, models⟩
  · exact absurd fits misfit

theorem exists_full_of_not_fits (fresh : AllFresh steps) (misfit : ¬ AllFitIn l steps) :
    ∃ front b c back o, steps = front ++ .add b c :: back ∧ (empty l).run front = .ok o ∧
      o.answer = answers front ∧ o.after.count = l.width ∧
      (empty l).run steps = .error .noSpaceLeft := by
  obtain ⟨front, i, back, rfl, fits, misfit'⟩ := exists_of_not_allFit misfit
  obtain ⟨o, done, same, models⟩ := exists_run_of_fits (allFit_append.1 fresh).1 fits
  rcases simulates_run l fresh with ⟨fits, -⟩ | ⟨-, faulted⟩
  · exact absurd fits misfit
  · cases i with
    | add b c =>
      refine ⟨front, b, c, back, o, rfl, done, same, ?_, faulted⟩
      have bound := count_le models.sound
      have full := Nat.not_lt.1 misfit'
      rw [← models.count_eq] at full
      rw [models.width_eq] at bound
      exact Nat.le_antisymm bound full
    | _ => exact absurd trivial misfit'

/-- A storage that starts empty and is only given new bytes answers every step as the finite map
does, the number of children and the order of the bytes included, whichever its layout. It faults
for want of space exactly if it is given a child when it is full, which never happens in the largest
layout. So any two layouts answer the same where both have room. -/
theorem run_empty_refines_byteMap (steps : List (Step α)) (fresh : AllFresh steps) :
    (∀ l, AllFitIn l steps ∧
        (∃ o, (empty l).run steps = .ok o ∧ o.answer = answers steps) ∨
      ¬ AllFitIn l steps ∧ ∃ front b c back o, steps = front ++ .add b c :: back ∧
        (empty l).run front = .ok o ∧ o.answer = answers front ∧ o.after.count = l.width ∧
        (empty l).run steps = .error .noSpaceLeft) ∧
    AllFitIn .direct256 steps ∧
    (∀ l m, AllFitIn l steps → AllFitIn m steps → ∃ o p, (empty l).run steps = .ok o ∧
      (empty m).run steps = .ok p ∧ o.answer = p.answer) ∧
    (∀ cs n, (.children cs, n) ∈ answers steps → Ascending cs) ∧
    Fault.noSpaceLeft.message? = some "add_child: no space left" := by
  refine ⟨fun l => ?_, ?_, fun l m left right => ?_, fun _ _ h => ascending_of_mem_replay h, rfl⟩
  · by_cases fits : AllFitIn l steps
    · obtain ⟨o, done, same, -⟩ := exists_run_of_fits fresh fits
      exact .inl ⟨fits, o, done, same⟩
    · exact .inr ⟨fits, exists_full_of_not_fits fresh fits⟩
  · exact allFit_mono (fun _ _ => fits_direct256) fresh
  · obtain ⟨o, done, same, -⟩ := exists_run_of_fits fresh left
    obtain ⟨p, done', same', -⟩ := exists_run_of_fits fresh right
    exact ⟨o, p, done, done', same.trans same'.symm⟩

def reuse : List (Step Nat) :=
  [.add 9 1, .add 255 2, .add 0 3, .erase 9, .add 7 4, .set 255 5, .set 8 6, .seek 9, .children,
    .add 9 7, .held, .add 8 8]

theorem run_empty_refines_byteMap_reuse :
    AllFresh reuse ∧ (empty .keyed4).run reuse = .error .noSpaceLeft ∧ ¬ AllFitIn .keyed4 reuse ∧
      ∃ o, (empty .direct256).run reuse = .ok o ∧ o.answer = answers reuse := by
  have fresh : AllFresh reuse := by simp [AllFresh, AllFit, reuse, Fresh, ByteMap.step, write,
    ByteMap.empty]
  have full : (empty .keyed4).run reuse = .error .noSpaceLeft := rfl
  obtain ⟨every, fits, -⟩ := run_empty_refines_byteMap reuse fresh
  refine ⟨fresh, full, ?_, ?_⟩
  · rcases every .keyed4 with ⟨-, o, done, -⟩ | ⟨misfit, -⟩
    · rw [full] at done
      cases done
    · exact misfit
  · rcases every .direct256 with ⟨-, o, done, same⟩ | ⟨misfit, -⟩
    · exact ⟨o, done, same⟩
    · exact absurd fits misfit

end Storage

end AdaptiveRadix
