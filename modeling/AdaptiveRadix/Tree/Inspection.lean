import AdaptiveRadix.Violation

/-!
A check that keeps the path in one buffer: a node appends its stem, each edge is pushed before its
child is checked, and what the child has appended is cut off again. A broken rule ends the walk.
-/

namespace AdaptiveRadix

variable {V : Type}

/-- Checks the node at the path in the buffer, and gives the buffer back. -/
def Violation.inspect (n : Node V) : Bytes → Except Violation Bytes :=
  n.fold (fun _ _ _ buffer => .ok buffer) fun stem s below buffer => do
    match ofStorage? buffer s with
    | some violation => throw violation
    | none =>
      let base := buffer.length
      let buffer ← below.foldlM (fun buffer (b, check) => do
        let buffer ← check (buffer ++ [b])
        return buffer.take (base + stem.length)) (buffer ++ stem)
      return buffer.take base

def Tree.inspect (t : Tree V) : Except Violation Unit := do
  match t.root with
  | none => return ()
  | some root => let _ ← Violation.inspect root []

end AdaptiveRadix
