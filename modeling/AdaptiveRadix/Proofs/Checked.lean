import AdaptiveRadix.Fault
import Mathlib.Tactic.Common

/-!
How steps that may fault are chained, and what a write leaves in the other places of an array.
-/

namespace AdaptiveRadix.Checked

variable {α β : Type}

@[simp] theorem pure_eq_ok (x : α) : (pure x : Checked α) = .ok x := rfl

@[simp] theorem ok_bind (x : α) (f : α → Checked β) : ((.ok x : Checked α) >>= f) = f x := rfl

@[simp] theorem error_bind (e : Fault) (f : α → Checked β) :
    ((.error e : Checked α) >>= f) = .error e := rfl

theorem bind_eq_error {x : Checked α} {e : Fault} (h : x = .error e) (f : α → Checked β) :
    (x >>= f) = .error e := by
  rw [h, error_bind]

theorem exists_of_isOk {x : Checked α} (h : x.isOk = true) : ∃ a, x = .ok a := by
  cases x with
  | error e => cases h
  | ok a => exact ⟨a, rfl⟩

theorem exists_bind {x : Checked α} {f : α → Checked β} {P : α → Prop} {Q : β → Prop}
    (hx : ∃ a, x = .ok a ∧ P a) (hf : ∀ a, P a → ∃ b, f a = .ok b ∧ Q b) :
    ∃ b, (x >>= f) = .ok b ∧ Q b := by
  obtain ⟨a, rfl, ha⟩ := hx
  exact hf a ha

theorem exists_of_bind_eq_ok {x : Checked α} {f : α → Checked β} {b : β}
    (h : (x >>= f) = .ok b) : ∃ a, x = .ok a ∧ f a = .ok b := by
  cases x with
  | error e => cases h
  | ok a => exact ⟨a, rfl, h⟩

theorem exists_of_map_eq_ok {x : Checked α} {f : α → β} {b : β}
    (h : (x >>= fun a => pure (f a)) = .ok b) : ∃ a, x = .ok a ∧ f a = b := by
  obtain ⟨a, done, same⟩ := exists_of_bind_eq_ok h
  exact ⟨a, done, Except.ok.inj same⟩

theorem foldlM_keeps {ι : Type} {P : α → Prop} {step : α → ι → Checked α}
    (keeps : ∀ a i b, P a → step a i = .ok b → P b) {is : List ι} {a b : α} (h : P a)
    (done : is.foldlM step a = .ok b) : P b := by
  induction is generalizing a with
  | nil =>
    cases done
    exact h
  | cons i is ih =>
    rw [List.foldlM_cons] at done
    obtain ⟨m, stepped, done⟩ := exists_of_bind_eq_ok done
    exact ih (keeps a i m h stepped) done

theorem read_of_getElem? {xs : Array α} {i : Nat} {x : α} (h : xs[i]? = some x) :
    read xs i = .ok x := by
  rw [read, h]

theorem write_eq {xs : Array α} {i : Nat} (h : i < xs.size) (x : α) :
    ∃ ys, write xs i x = .ok ys ∧ ys.size = xs.size ∧
      ∀ k : Nat, ys[k]? = if k = i then some x else xs[k]? := by
  refine ⟨_, write_eq_ok h x, Array.size_set h, fun k => ?_⟩
  rw [Array.getElem?_set]
  by_cases same : i = k
  · rw [if_pos same, if_pos same.symm]
  · rw [if_neg same, if_neg (Ne.symm same)]

theorem write_self {xs : Array α} {i : Nat} {x : α} (h : read xs i = .ok x) :
    write xs i x = .ok xs := by
  obtain ⟨bound, rfl⟩ := Array.getElem?_eq_some_iff.1 (getElem?_of_read h)
  rw [write_eq_ok bound, Array.set_getElem_self]

end AdaptiveRadix.Checked
