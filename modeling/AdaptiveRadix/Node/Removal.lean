import AdaptiveRadix.KeyError
import AdaptiveRadix.Node.Children

/-!
Removal below an inner node: the leaf is taken from its parent, which then shrinks or merges. A leaf
that is itself the root has no parent and is left to the caller.
-/

namespace AdaptiveRadix.Node

variable {V : Type}

def remove (n : Node V) (key : Bytes) : Checked (Outcome (Node V) (Except KeyError V)) := do
  match n with
  | leaf .. => return .unchanged n (.error .notFound)
  | inner stem s =>
    match _h : Stem.edge? stem key with
    | none => return .unchanged n (.error .notFound)
    | some (b, rest) =>
      match ← s.find? b with
      | none => return .unchanged n (.error .notFound)
      | some (leaf suffix ..) =>
        if suffix = rest then
          let removed ← n.eraseChild b
          return removed.mapAnswer fun child? =>
            match child?.bind value? with
            | some value => .ok value
            | none => .error .notFound
        else return .unchanged n (.error .notFound)
      | some child =>
        let below ← child.remove rest
        return ⟨below.answer, inner stem (← s.replace b below.after), below.events⟩
termination_by key.length
decreasing_by exact Stem.length_lt_of_edge? ‹_›

end AdaptiveRadix.Node
