import AdaptiveRadix.KeyError
import AdaptiveRadix.Node

/-!
The leaf that holds a key: read, and read with its value replaced.
-/

namespace AdaptiveRadix.Node

variable {V : Type}

def find? (n : Node V) (key : Bytes) : Checked (Option (V × UInt64)) := do
  match n with
  | leaf suffix value hits => return if suffix = key then some (value, hits) else none
  | inner stem s =>
    match _h : Stem.edge? stem key with
    | none => return none
    | some (b, rest) =>
      match ← s.find? b with
      | none => return none
      | some child => child.find? rest
termination_by key.length
decreasing_by exact Stem.length_lt_of_edge? ‹_›

/-- Puts `value` in place of the one stored under `key`, and answers the old one. -/
def assign (value : V) (n : Node V) (key : Bytes) :
    Checked (Outcome (Node V) (Except KeyError V)) := do
  match n with
  | leaf suffix old hits =>
    if suffix = key then return ⟨.ok old, leaf suffix value hits, []⟩
    else return .unchanged n (.error .notFound)
  | inner stem s =>
    match _h : Stem.edge? stem key with
    | none => return .unchanged n (.error .notFound)
    | some (b, rest) =>
      match ← s.find? b with
      | none => return .unchanged n (.error .notFound)
      | some child =>
        let below ← child.assign value rest
        return ⟨below.answer, inner stem (← s.replace b below.after), below.events⟩
termination_by key.length
decreasing_by exact Stem.length_lt_of_edge? ‹_›

end AdaptiveRadix.Node
