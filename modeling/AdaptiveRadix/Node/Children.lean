import AdaptiveRadix.Node

/-!
Adding a child and taking one away. A full node is grown first; a node that drops below its layout's
minimum is shrunk one step, and one that keeps a single child is merged with it.
-/

namespace AdaptiveRadix.Node

variable {V : Type}

/-- Adds a child under a byte that has none. -/
def addChild (n : Node V) (b : UInt8) (child : Node V) : Checked (Outcome (Node V) Unit) := do
  Checked.assert (← n.child? b).isNone
  match n with
  | leaf .. => throw .childOfLeaf
  | inner stem s =>
    if s.count < s.width then return ⟨(), inner stem (← s.add b child), []⟩
    else
      let larger ← s.grow
      return ⟨(), inner stem (← larger.add b child),
        [.promoted s.layout larger.layout larger.count]⟩

/-- Shrinks a storage that holds several children, but fewer than its layout's minimum. -/
def trim (s : Storage (Node V)) : Checked (Outcome (Storage (Node V)) Unit) := do
  if s.count < s.layout.minimum ∧ 1 < s.count then
    match ← s.shrink with
    | none => return .unchanged s ()
    | some smaller => return ⟨(), smaller, [.shrunk s.layout smaller.layout smaller.count]⟩
  else return .unchanged s ()

/-- Merges a node with its first child. -/
def collapse (stem : Bytes) (s : Storage (Node V)) : Checked (Outcome (Node V) Unit) := do
  match s.children with
  | [] => return .unchanged (inner stem s) ()
  | (b, _) :: _ =>
    match ← s.erase b with
    | (none, s) => return .unchanged (inner stem s) ()
    | (some child, _) =>
      let merged := Stem.joined stem b child.stem
      return ⟨(), child.withStem merged, [.recompressed merged]⟩

def eraseChild (n : Node V) (b : UInt8) : Checked (Outcome (Node V) (Option (Node V))) := do
  match n with
  | leaf .. => return .unchanged n none
  | inner stem s =>
    match ← s.erase b with
    | (none, s) => return .unchanged (inner stem s) none
    | (some child, s) =>
      let trimmed ← trim s
      if trimmed.after.count = 1 then
        let merged ← collapse stem trimmed.after
        return ⟨some child, merged.after, trimmed.events ++ merged.events⟩
      else return ⟨some child, inner stem trimmed.after, trimmed.events⟩

def bumpHits (n : Node V) : Checked (Outcome (Node V) UInt64) :=
  match n with
  | inner .. => .error .hitsOfInner
  | leaf suffix value hits =>
    if hits.toNat + 1 < UInt64.size then .ok ⟨hits + 1, leaf suffix value (hits + 1), []⟩
    else .error .counterOverflow

end AdaptiveRadix.Node
