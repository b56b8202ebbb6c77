import AdaptiveRadix.Event
import AdaptiveRadix.Storage

/-!
The operations of a storage as data, so that runs of them can be spoken of.
-/

namespace AdaptiveRadix.Storage

variable {α : Type}

inductive Step (α : Type) where
  | add (b : UInt8) (child : α)
  | seek (b : UInt8)
  | set (b : UInt8) (child : α)
  | erase (b : UInt8)
  | children
  | held

inductive Reply (α : Type) where
  | done
  | child (child? : Option α)
  | children (cs : List (UInt8 × α))
  | held (bytes : Bytes)
  deriving DecidableEq, Repr

/-- Every answer comes with the number of children after the step. -/
def step (s : Storage α) : Step α → Checked (Outcome (Storage α) (Reply α × Nat))
  | .add b child => do
    let t ← s.add b child
    return ⟨(.done, t.count), t, []⟩
  | .seek b => return .unchanged s (.child (← s.find? b), s.count)
  | .set b child => do
    let old? ← s.find? b
    let t ← s.replace b child
    return ⟨(.child old?, t.count), t, []⟩
  | .erase b => do
    let (child?, t) ← s.erase b
    return ⟨(.child child?, t.count), t, []⟩
  | .children => return .unchanged s (.children s.children, s.count)
  | .held => return .unchanged s (.held s.held, s.count)

def run (s : Storage α) (steps : List (Step α)) :
    Checked (Outcome (Storage α) (List (Reply α × Nat))) :=
  Outcome.runAll step s steps

end AdaptiveRadix.Storage
