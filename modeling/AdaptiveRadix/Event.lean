import AdaptiveRadix.Bytes
import AdaptiveRadix.Fault
import AdaptiveRadix.Layout

/-!
What an operation on a tree tells: its answer, the state it leaves, also where the answer is an
error, and the structural changes on the way, in order.
-/

namespace AdaptiveRadix

inductive Event where
  | split (kept : Nat) (stem : Bytes)
  | promoted (source target : Layout) (children : Nat)
  | shrunk (source target : Layout) (children : Nat)
  | recompressed (merged : Bytes)
  deriving DecidableEq, Repr

structure Outcome (σ α : Type) where
  answer : α
  after : σ
  events : List Event

namespace Outcome

variable {σ τ α β : Type}

def unchanged (state : σ) (answer : α) : Outcome σ α :=
  ⟨answer, state, []⟩

def mapAnswer (f : α → β) (o : Outcome σ α) : Outcome σ β :=
  { o with answer := f o.answer }

def mapAfter (f : σ → τ) (o : Outcome σ α) : Outcome τ α :=
  { o with after := f o.after }

def runAll {ι : Type} (step : σ → ι → Checked (Outcome σ α)) :
    σ → List ι → Checked (Outcome σ (List α))
  | state, [] => return .unchanged state []
  | state, i :: rest => do
    let first ← step state i
    let later ← runAll step first.after rest
    return ⟨first.answer :: later.answer, later.after, first.events ++ later.events⟩

end Outcome

end AdaptiveRadix
