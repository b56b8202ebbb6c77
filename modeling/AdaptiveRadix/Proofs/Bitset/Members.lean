import AdaptiveRadix.Bitset.Step
import AdaptiveRadix.Proofs.Bitset
import AdaptiveRadix.Proofs.Checked
import Mathlib.Data.Finset.Card
import Mathlib.Data.Finset.Range

/-!
A bit set as the finite set of the positions that were set and not cleared since. What one step
does to that set it does to the bits, and the size, the emptiness and the first empty position are
read off the set.
-/

namespace AdaptiveRadix.Bitset

variable {w n : Nat}

theorem isEmpty_eq_true_iff (s : Bitset w n) :
    s.isEmpty = true ↔ ∀ p < n * w, s.check p = .ok false := by
  rw [isEmpty, Vector.all_eq_true]
  constructor
  · intro zero p hp
    have clear : s.word hp = 0 := eq_of_beq (zero (p / w) (word_lt hp))
    rw [check_eq s hp, clear]
    exact congrArg Except.ok BitVec.getLsbD_zero
  · intro clear i hi
    refine beq_iff_eq.2 (BitVec.eq_of_getLsbD_eq fun j hj => ?_)
    have bound : i * w + j < n * w := calc
      i * w + j < i * w + w := Nat.add_lt_add_left hj _
      _ = (i + 1) * w := (Nat.succ_mul i w).symm
      _ ≤ n * w := Nat.mul_le_mul_right w hi
    have bit_clear := clear _ bound
    rw [check_of_lt s hi hj] at bit_clear
    rw [Except.ok.inj bit_clear]
    exact BitVec.getLsbD_zero.symm

theorem isEmpty_empty : (empty : Bitset w n).isEmpty = true := by
  simp [isEmpty, empty]

/-- Set by some step, and cleared by none after it. -/
def SetSince (steps : List Step) (p : Nat) : Prop :=
  ∃ before after, steps = before ++ .set p :: after ∧ .unset p ∉ after

def mark (members : Finset Nat) : Step → Finset Nat
  | .set p => insert p members
  | .unset p => members.erase p

def members (steps : List Step) : Finset Nat :=
  steps.foldl mark ∅

theorem setSince_concat {steps : List Step} {last : Step} {p : Nat} :
    SetSince (steps ++ [last]) p ↔ last = .set p ∨ last ≠ .unset p ∧ SetSince steps p := by
  constructor
  · rintro ⟨before, after, parts, kept⟩
    rcases List.eq_nil_or_concat after with rfl | ⟨rest, x, rfl⟩
    · left
      exact (List.concat_inj.1 (by simpa using parts)).2
    · right
      obtain ⟨rfl, rfl⟩ : steps = before ++ .set p :: rest ∧ last = x :=
        List.concat_inj.1 (by simpa using parts)
      rw [List.concat_eq_append, List.mem_append, not_or] at kept
      exact ⟨fun same => kept.2 (by simp [same]), before, rest, rfl, kept.1⟩
  · rintro (rfl | ⟨other, before, after, rfl, kept⟩)
    · exact ⟨steps, [], rfl, List.not_mem_nil⟩
    · refine ⟨before, after ++ [last], by simp, ?_⟩
      rw [List.mem_append, List.mem_singleton, not_or]
      exact ⟨kept, Ne.symm other⟩

theorem mem_mark {m : Finset Nat} {step : Step} {p : Nat} :
    p ∈ mark m step ↔ step = .set p ∨ step ≠ .unset p ∧ p ∈ m := by
  cases step with
  | set q => simp [mark, eq_comm]
  | unset q => simp [mark, eq_comm]

theorem mem_members {steps : List Step} {p : Nat} : p ∈ members steps ↔ SetSince steps p := by
  induction steps using List.reverseRecOn with
  | nil => simp [members, SetSince]
  | append_singleton steps last ih =>
    rw [members, List.foldl_append, ← members, List.foldl_cons, List.foldl_nil, mem_mark, ih,
      setSince_concat]

instance (steps : List Step) (p : Nat) : Decidable (SetSince steps p) :=
  decidable_of_iff _ mem_members

structure Represents (s : Bitset w n) (m : Finset Nat) : Prop where
  inside : ∀ p ∈ m, p < n * w
  check : ∀ p < n * w, s.check p = .ok (decide (p ∈ m))

namespace Represents

variable {s : Bitset w n} {m : Finset Nat}

theorem empty : Represents (.empty : Bitset w n) ∅ where
  inside p hp := absurd hp (Finset.notMem_empty p)
  check p hp := by
    rw [(isEmpty_eq_true_iff _).1 isEmpty_empty p hp, decide_eq_false (Finset.notMem_empty p)]

theorem check_eq_true_iff (h : s.Represents m) {p : Nat} : s.check p = .ok true ↔ p ∈ m := by
  rcases Nat.lt_or_ge p (n * w) with hp | hp
  · simp [h.check p hp]
  · have outside : p ∉ m := fun member => Nat.not_lt.2 hp (h.inside p member)
    simp [check_of_le s hp, outside]

theorem check_eq_false_iff (h : s.Represents m) {p : Nat} :
    s.check p = .ok false ↔ p < n * w ∧ p ∉ m := by
  rcases Nat.lt_or_ge p (n * w) with hp | hp
  · simp [h.check p hp, hp]
  · simp [check_of_le s hp, Nat.not_lt.2 hp]

theorem firstEmpty_eq_some_iff (h : s.Represents m) {p : Nat} :
    s.firstEmpty = some p ↔ p < n * w ∧ p ∉ m ∧ ∀ q < p, q ∈ m := by
  constructor
  · intro found
    obtain ⟨clear, below⟩ := firstEmpty_eq_some found
    obtain ⟨inside, absent⟩ := h.check_eq_false_iff.1 clear
    exact ⟨inside, absent, fun q hq => h.check_eq_true_iff.1 (below q hq)⟩
  · rintro ⟨inside, absent, below⟩
    cases found : s.firstEmpty with
    | none => exact absurd (h.check_eq_true_iff.1 (firstEmpty_eq_none found inside)) absent
    | some q =>
      obtain ⟨clear, lower⟩ := firstEmpty_eq_some found
      rcases Nat.lt_trichotomy p q with hpq | rfl | hqp
      · exact absurd (h.check_eq_true_iff.1 (lower p hpq)) absent
      · rfl
      · exact absurd (below q hqp) (h.check_eq_false_iff.1 clear).2

theorem firstEmpty_eq_none_iff (h : s.Represents m) :
    s.firstEmpty = none ↔ ∀ p < n * w, p ∈ m := by
  constructor
  · exact fun full p hp => h.check_eq_true_iff.1 (firstEmpty_eq_none full hp)
  · intro all
    cases found : s.firstEmpty with
    | none => rfl
    | some p =>
      obtain ⟨inside, absent, -⟩ := h.firstEmpty_eq_some_iff.1 found
      exact absurd (all p inside) absent

theorem isEmpty_eq_true_iff (h : s.Represents m) : s.isEmpty = true ↔ m = ∅ := by
  rw [Bitset.isEmpty_eq_true_iff, Finset.eq_empty_iff_forall_notMem]
  constructor
  · exact fun clear p member => (h.check_eq_false_iff.1 (clear p (h.inside p member))).2 member
  · exact fun absent p hp => h.check_eq_false_iff.2 ⟨hp, absent p⟩

theorem size_eq (h : s.Represents m) : s.size = m.card := by
  have set_iff (p : Nat) : decide (s.check p = .ok true) = decide (p ∈ m) :=
    decide_eq_decide.2 h.check_eq_true_iff
  have within : (Finset.range (n * w)).filter (· ∈ m) = m := by
    ext p
    rw [Finset.mem_filter, Finset.mem_range]
    exact and_iff_right_of_imp (h.inside p)
  rw [Bitset.size_eq, List.countP_eq_length_filter]
  simp only [set_iff]
  calc ((List.range (n * w)).filter fun p => decide (p ∈ m)).length
      = ((Finset.range (n * w)).filter (· ∈ m)).card := rfl
    _ = m.card := by rw [within]

end Represents

theorem step_eq_ok (s : Bitset w n) {step : Step} (inside : step.position < n * w) :
    ∃ t, s.step step = .ok t ∧ t.check step.position = .ok (decide (step = .set step.position)) ∧
      ∀ q ≠ step.position, t.check q = s.check q := by
  cases step with
  | set p =>
    obtain ⟨t, done, reads⟩ := s.set_eq_ok inside
    refine ⟨t, done, ?_, fun q other => ?_⟩
    · simp [Step.position, reads]
    · rw [reads, if_neg other]
  | unset p =>
    obtain ⟨t, done, reads⟩ := s.unset_eq_ok inside
    refine ⟨t, done, ?_, fun q other => ?_⟩
    · simp [Step.position, reads]
    · rw [reads, if_neg other]

theorem mem_mark_of_ne {m : Finset Nat} {step : Step} {q : Nat} (other : q ≠ step.position) :
    q ∈ mark m step ↔ q ∈ m := by
  cases step with
  | set p => exact Finset.mem_insert.trans (or_iff_right other)
  | unset p => exact Finset.mem_erase.trans (and_iff_right other)

theorem Represents.step {s : Bitset w n} {m : Finset Nat} (h : s.Represents m) {step : Step}
    (inside : step.position < n * w) :
    ∃ t, s.step step = .ok t ∧ t.Represents (mark m step) := by
  obtain ⟨t, done, here, others⟩ := s.step_eq_ok inside
  have marked : step.position ∈ mark m step ↔ step = .set step.position := by
    cases step with
    | set p => simp [mark, Step.position]
    | unset p => simp [mark, Step.position]
  refine ⟨t, done, ⟨fun q member => ?_, fun q hq => ?_⟩⟩
  · by_cases same : q = step.position
    · rwa [same]
    · exact h.inside q ((mem_mark_of_ne same).1 member)
  · by_cases same : q = step.position
    · rw [same, here, decide_eq_decide.2 marked]
    · rw [others q same, h.check q hq, decide_eq_decide.2 (mem_mark_of_ne same)]

theorem Represents.run {s : Bitset w n} {m : Finset Nat} (h : s.Represents m) {steps : List Step}
    (inside : ∀ step ∈ steps, step.position < n * w) :
    ∃ t, s.run steps = .ok t ∧ t.Represents (steps.foldl mark m) := by
  induction steps generalizing s m with
  | nil => exact ⟨s, rfl, h⟩
  | cons step steps ih =>
    obtain ⟨first, later⟩ := List.forall_mem_cons.1 inside
    obtain ⟨u, stepped, hu⟩ := h.step first
    obtain ⟨t, done, ht⟩ := ih hu later
    refine ⟨t, ?_, ht⟩
    rw [Bitset.run, List.foldlM_cons, stepped]
    exact done

/-- After any run from the empty bit set every reading is one of the set of marked positions, and
one more step leaves the other positions as they are. -/
theorem run_empty_eq_members {steps : List Step}
    (inside : ∀ step ∈ steps, step.position < n * w) :
    (∀ p, p ∈ members steps ↔ SetSince steps p) ∧
      ∃ s : Bitset w n, run .empty steps = .ok s ∧
        (∀ p < n * w, s.check p = .ok (decide (SetSince steps p))) ∧
        s.size = (members steps).card ∧
        (s.isEmpty = true ↔ members steps = ∅) ∧
        (∀ p, s.firstEmpty = some p ↔
          p < n * w ∧ p ∉ members steps ∧ ∀ q < p, q ∈ members steps) ∧
        (s.firstEmpty = none ↔ ∀ p < n * w, p ∈ members steps) ∧
        ∀ next : Step, next.position < n * w →
          ∃ t, s.step next = .ok t ∧ ∀ q ≠ next.position, t.check q = s.check q := by
  obtain ⟨s, done, h⟩ := Represents.run (w := w) (n := n) .empty inside
  refine ⟨fun p => mem_members, s, done, fun p hp => ?_, h.size_eq, h.isEmpty_eq_true_iff,
    fun p => h.firstEmpty_eq_some_iff, h.firstEmpty_eq_none_iff, fun next hnext => ?_⟩
  · rw [← decide_eq_decide.2 mem_members]
    exact h.check p hp
  · obtain ⟨t, stepped, -, others⟩ := s.step_eq_ok hnext
    exact ⟨t, stepped, others⟩

def firstWord : List Step :=
  (List.range 8).map .set ++ [.set 15, .set 9, .unset 15]

theorem run_empty_eq_members_firstWord :
    (∀ step ∈ firstWord, step.position < 2 * 8) ∧
      ∃ s : Bitset 8 2, run .empty firstWord = .ok s ∧ s.check 15 = .ok false ∧ s.size = 9 ∧
        s.isEmpty = false ∧ s.firstEmpty = some 8 := by
  have inside : ∀ step ∈ firstWord, step.position < 2 * 8 := by decide
  obtain ⟨-, s, done, check, size, isEmpty, first, -⟩ :=
    run_empty_eq_members (w := 8) (n := 2) inside
  refine ⟨inside, s, done, (check 15 (by decide)).trans ?_, size.trans ?_, ?_, (first 8).2 ?_⟩
  · exact congrArg Except.ok (by decide)
  · decide
  · exact eq_false_of_ne_true fun none_left => absurd (isEmpty.1 none_left) (by decide)
  · decide

end AdaptiveRadix.Bitset
