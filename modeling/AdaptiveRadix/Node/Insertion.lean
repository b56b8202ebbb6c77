import AdaptiveRadix.KeyError
import AdaptiveRadix.Node.Children

/-!
Insertion below a node. The key and the stems are compared from the top; where they part inside a
stem the node is split there, where no edge leads on a leaf is added, and a key that ends where
another one goes on is refused.
-/

namespace AdaptiveRadix

/-- What to do with a key that is already stored. -/
inductive Repetition where
  | refused
  | counted
  deriving DecidableEq, Repr

namespace Node

variable {V : Type}

def newLeaf (suffix : Bytes) (value : V) : Node V :=
  leaf suffix value 1

/-- Cuts the stem of `n` after `kept` bytes; below the cut hang `n` and a leaf for the rest of
`key`. -/
def split (n : Node V) (kept : Nat) (key : Bytes) (value : V) :
    Checked (Outcome (Node V) Unit) := do
  let oldByte ← Stem.byteAt n.stem kept
  let newByte ← Stem.byteAt key kept
  Checked.assert (oldByte ≠ newByte)
  let fork := inner (← Stem.before n.stem kept) (.empty .keyed4)
  let one ← fork.addChild oldByte (n.withStem (← Stem.after n.stem (kept + 1)))
  let two ← one.after.addChild newByte (newLeaf (← Stem.after key (kept + 1)) value)
  return ⟨(), two.after, .split kept n.stem :: (one.events ++ two.events)⟩

/-- Stores `value` under `key`, and answers how often the key has been recorded by then. -/
def insert (repetition : Repetition) (value : V) (n : Node V) (key : Bytes) :
    Checked (Outcome (Node V) (Except KeyError UInt64)) := do
  let common := Stem.commonLength n.stem key
  match n with
  | leaf suffix _ _ =>
    if common = suffix.length ∧ common = key.length then
      match repetition with
      | .refused => return .unchanged n (.error .duplicateKey)
      | .counted => return (← n.bumpHits).mapAnswer .ok
    else if common = suffix.length ∨ common = key.length then
      return .unchanged n (.error .prefixConflict)
    else return (← n.split common key value).mapAnswer fun _ => .ok 1
  | inner stem s =>
    if common < stem.length then
      if common = key.length then return .unchanged n (.error .prefixConflict)
      else return (← n.split common key value).mapAnswer fun _ => .ok 1
    else
      match _h : Stem.edge? stem key with
      | none => return .unchanged n (.error .prefixConflict)
      | some (b, rest) =>
        match ← s.find? b with
        | some child =>
          let below ← child.insert repetition value rest
          return ⟨below.answer, inner stem (← s.replace b below.after), below.events⟩
        | none => return (← n.addChild b (newLeaf rest value)).mapAnswer fun _ => .ok 1
termination_by key.length
decreasing_by exact Stem.length_lt_of_edge? ‹_›

end Node

end AdaptiveRadix
