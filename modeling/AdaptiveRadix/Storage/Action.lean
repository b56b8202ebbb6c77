import AdaptiveRadix.Storage.Step

/-!
Steps and conversions of a storage as data. A conversion goes on with the new storage and answers
how many children are left in the old one.
-/

namespace AdaptiveRadix.Storage

variable {α : Type}

inductive Action (α : Type) where
  | step (i : Step α)
  | convert (l : Layout)

inductive Answer (α : Type) where
  | reply (r : Reply α) (count : Nat)
  | unsupported
  | moved (left : Nat)
  deriving DecidableEq, Repr

def act (s : Storage α) : Action α → Checked (Outcome (Storage α) (Answer α))
  | .step i => return (← s.step i).mapAnswer fun (r, count) => .reply r count
  | .convert l =>
    match s.convert? l with
    | none => return .unchanged s .unsupported
    | some result => do
      let (t, left) ← result
      return ⟨.moved left.count, t, []⟩

def perform (s : Storage α) (actions : List (Action α)) :
    Checked (Outcome (Storage α) (List (Answer α))) :=
  Outcome.runAll act s actions

end AdaptiveRadix.Storage
