import AdaptiveRadix.Event
import AdaptiveRadix.Proofs.Checked

/-!
Runs against runs of a model. Where every single step either agrees with the model or faults because
the model's state forbids it, so does every run. Where a step is only known to end well or to fault
because it is not allowed, the same holds of every run.
-/

namespace AdaptiveRadix.Outcome

variable {σ δ ι α β : Type} {step : σ → ι → Checked (Outcome σ α)} {model : δ → ι → α × δ}
  {fits : δ → ι → Prop} {fault : Fault} {R : σ → δ → Prop}

def replay (model : δ → ι → α × δ) : δ → List ι → List α × δ
  | d, [] => ([], d)
  | d, i :: rest =>
    ((model d i).1 :: (replay model (model d i).2 rest).1, (replay model (model d i).2 rest).2)

/-- Every step is allowed in the state that the steps before it leave. -/
def AllFit (model : δ → ι → α × δ) (fits : δ → ι → Prop) : δ → List ι → Prop
  | _, [] => True
  | d, i :: rest => fits d i ∧ AllFit model fits (model d i).2 rest

/-- An operation agrees with the model's answer and next state, or faults where it must. -/
def Simulates (R : σ → δ → Prop) (fault : Fault) (allowed : Prop) (expected : α × δ)
    (result : Checked (Outcome σ α)) : Prop :=
  (allowed ∧ ∃ o, result = .ok o ∧ R o.after expected.2 ∧ o.answer = expected.1) ∨
    ¬ allowed ∧ result = .error fault

theorem allFit_of_forall (all : ∀ d i, fits d i) (d : δ) (is : List ι) :
    AllFit model fits d is := by
  induction is generalizing d with
  | nil => trivial
  | cons i rest ih => exact ⟨all d i, ih _⟩

theorem allFit_mono {fits' : δ → ι → Prop} (implies : ∀ d i, fits d i → fits' d i) {d : δ}
    {is : List ι} (h : AllFit model fits d is) : AllFit model fits' d is := by
  induction is generalizing d with
  | nil => trivial
  | cons i rest ih => exact ⟨implies d i h.1, ih h.2⟩

theorem allFit_append {is js : List ι} {d : δ} : AllFit model fits d (is ++ js) ↔
    AllFit model fits d is ∧ AllFit model fits (replay model d is).2 js := by
  induction is generalizing d with
  | nil => exact (and_iff_right trivial).symm
  | cons i rest ih => exact (and_congr_right fun _ => ih).trans and_assoc.symm

theorem exists_of_not_allFit {d : δ} {is : List ι} (h : ¬ AllFit model fits d is) :
    ∃ front i back, is = front ++ i :: back ∧ AllFit model fits d front ∧
      ¬ fits (replay model d front).2 i := by
  induction is generalizing d with
  | nil => exact absurd trivial h
  | cons i rest ih =>
    by_cases here : fits d i
    · obtain ⟨front, j, back, rfl, before, forbidden⟩ := ih fun later => h ⟨here, later⟩
      exact ⟨i :: front, j, back, rfl, ⟨here, before⟩, forbidden⟩
    · exact ⟨[], i, rest, rfl, trivial, here⟩

theorem simulates_runAll_of_admitted {admitted : δ → ι → Prop}
    (simulates : ∀ s d i, R s d → admitted d i →
      Simulates R fault (fits d i) (model d i) (step s i))
    {s : σ} {d : δ} (h : R s d) {is : List ι} (admits : AllFit model admitted d is) :
    Simulates R fault (AllFit model fits d is) (replay model d is) (runAll step s is) := by
  induction is generalizing s d with
  | nil => exact .inl ⟨trivial, _, rfl, h, rfl⟩
  | cons i rest ih =>
    rcases simulates s d i h admits.1 with
      ⟨allowed, o, done, related, same⟩ | ⟨forbidden, faulted⟩
    · rcases ih related admits.2 with ⟨allowed', o', done', related', same'⟩ | ⟨forbidden, faulted⟩
      · refine .inl ⟨⟨allowed, allowed'⟩,
          ⟨o.answer :: o'.answer, o'.after, o.events ++ o'.events⟩, ?_, related', ?_⟩
        · rw [runAll, done, Checked.ok_bind, done']
          rfl
        · exact congrArg₂ List.cons same same'
      · refine .inr ⟨fun all => forbidden all.2, ?_⟩
        rw [runAll, done, Checked.ok_bind, faulted]
        rfl
    · refine .inr ⟨fun all => forbidden all.1, ?_⟩
      rw [runAll, faulted]
      rfl

theorem simulates_runAll
    (simulates : ∀ s d i, R s d → Simulates R fault (fits d i) (model d i) (step s i))
    {s : σ} {d : δ} (h : R s d) (is : List ι) :
    Simulates R fault (AllFit model fits d is) (replay model d is) (runAll step s is) :=
  simulates_runAll_of_admitted (fun s d i related _ => simulates s d i related) h
    (allFit_of_forall (fun _ _ => trivial) d is)

theorem exists_of_runAll_append {s : σ} {is js : List ι} {o : Outcome σ (List α)}
    (done : runAll step s (is ++ js) = .ok o) :
    ∃ a b, runAll step s is = .ok a ∧ runAll step a.after js = .ok b ∧ o.after = b.after := by
  induction is generalizing s o with
  | nil => exact ⟨.unchanged s [], o, rfl, done, rfl⟩
  | cons i is ih =>
    rw [List.cons_append, runAll] at done
    obtain ⟨first, stepped, rest⟩ := Checked.exists_of_bind_eq_ok done
    obtain ⟨later, ran, rfl⟩ := Checked.exists_of_map_eq_ok rest
    obtain ⟨a, b, left, right, same⟩ := ih ran
    refine ⟨⟨first.answer :: a.answer, a.after, first.events ++ a.events⟩, b, ?_, right, same⟩
    rw [runAll, stepped, Checked.ok_bind, left]
    rfl

/-- Where it is allowed, an operation ends in a state with `P`; elsewhere it faults. -/
def Settles (P : σ → Prop) (fault : Fault) (allowed : Prop) (result : Checked (Outcome σ α)) :
    Prop :=
  (allowed ∧ ∃ o, result = .ok o ∧ P o.after) ∨ ¬ allowed ∧ result = .error fault

def EachFits (step : σ → ι → Checked (Outcome σ α)) (fits : σ → ι → Prop) : σ → List ι → Prop
  | _, [] => True
  | s, i :: rest => fits s i ∧ ∀ o, step s i = .ok o → EachFits step fits o.after rest

section Settles

variable {P : σ → Prop} {allowed allowed' : Prop} {result : Checked (Outcome σ α)}

theorem Settles.congr (h : Settles P fault allowed result) (same : allowed ↔ allowed') :
    Settles P fault allowed' result :=
  propext same ▸ h

theorem Settles.mapAnswer (h : Settles P fault allowed result) (f : α → β) :
    Settles P fault allowed (result >>= fun o => pure (o.mapAnswer f)) := by
  rcases h with ⟨fits, o, rfl, after⟩ | ⟨forbidden, rfl⟩
  · exact .inl ⟨fits, o.mapAnswer f, rfl, after⟩
  · exact .inr ⟨forbidden, rfl⟩

end Settles

section Agrees

variable {τ : Type} {x : Checked (Outcome σ α)} {y : Checked (Outcome τ α)} {Q : σ → τ → Prop}

/-- Two operations answer alike and leave related states, or meet the same fault. -/
def Agrees (Q : σ → τ → Prop) (x : Checked (Outcome σ α)) (y : Checked (Outcome τ α)) : Prop :=
  (∃ o p, x = .ok o ∧ y = .ok p ∧ o.answer = p.answer ∧ Q o.after p.after) ∨
    ∃ e, x = .error e ∧ y = .error e

theorem Simulates.agrees {R' : τ → δ → Prop} {allowed : Prop} {expected : α × δ}
    (h : Simulates R fault allowed expected x) (h' : Simulates R' fault allowed expected y) :
    Agrees (fun s u => ∃ d, R s d ∧ R' u d) x y := by
  rcases h with ⟨fits, o, done, related, same⟩ | ⟨misfit, faulted⟩
  · rcases h' with ⟨-, p, done', related', same'⟩ | ⟨misfit, -⟩
    · exact .inl ⟨o, p, done, done', same.trans same'.symm, expected.2, related, related'⟩
    · exact absurd fits misfit
  · rcases h' with ⟨fits, -⟩ | ⟨-, faulted'⟩
    · exact absurd fits misfit
    · exact .inr ⟨fault, faulted, faulted'⟩

theorem Agrees.mapAnswer (h : Agrees Q x y) (f : α → β) :
    Agrees Q (x >>= fun o => pure (o.mapAnswer f)) (y >>= fun p => pure (p.mapAnswer f)) := by
  rcases h with ⟨o, p, rfl, rfl, same, after⟩ | ⟨e, rfl, rfl⟩
  · exact .inl ⟨o.mapAnswer f, p.mapAnswer f, rfl, rfl, congrArg f same, after⟩
  · exact .inr ⟨e, rfl, rfl⟩

theorem Agrees.mono {Q' : σ → τ → Prop} (h : Agrees Q x y) (implies : ∀ s u, Q s u → Q' s u) :
    Agrees Q' x y := by
  rcases h with ⟨o, p, done, done', same, after⟩ | faulted
  · exact .inl ⟨o, p, done, done', same, implies _ _ after⟩
  · exact .inr faulted

theorem map_answer_runAll_cons (s : σ) (i : ι) (rest : List ι) :
    (runAll step s (i :: rest)).map (·.answer) = step s i >>= fun o =>
      ((runAll step o.after rest).map (·.answer)).map (o.answer :: ·) := by
  rw [runAll]
  cases step s i with
  | error e => rfl
  | ok o =>
    rw [Checked.ok_bind, Checked.ok_bind]
    cases runAll step o.after rest <;> rfl

theorem map_answer_runAll_eq {step' : τ → ι → Checked (Outcome τ α)} {fits : σ → ι → Prop}
    (agrees : ∀ s u i, Q s u → fits s i → Agrees Q (step s i) (step' u i)) {s : σ} {u : τ}
    (h : Q s u) {is : List ι} (each : EachFits step fits s is) :
    (runAll step s is).map (·.answer) = (runAll step' u is).map (·.answer) := by
  induction is generalizing s u with
  | nil => rfl
  | cons i rest ih =>
    rw [map_answer_runAll_cons, map_answer_runAll_cons]
    rcases agrees s u i h each.1 with ⟨o, p, done, done', same, after⟩ | ⟨e, faulted, faulted'⟩
    · have later := ih after (each.2 o done)
      rw [done, done', Checked.ok_bind, Checked.ok_bind, same, later]
    · rw [faulted, faulted']
      rfl

end Agrees

end AdaptiveRadix.Outcome
