import AdaptiveRadix.Tree

/-!
The rules that a tree's inner nodes keep, and the first one that is broken, from the root down. A
violation names the node by the bytes that lead to it, its own stem not included.
-/

namespace AdaptiveRadix

inductive Violation where
  | overCapacity (path : Bytes) (shape : Shape) (children : Nat)
  | countMismatch (path : Bytes) (shape : Shape) (reported actual : Nat)
  | unorderedKeys (path keys : Bytes)
  | underfull (path : Bytes) (children : Nat)
  | belowMinimum (path : Bytes) (shape : Shape) (children : Nat)
  deriving DecidableEq, Repr

namespace Violation

def message : Violation → String
  | overCapacity path shape children =>
    shape.name ++ " at " ++ path.renderPath ++ " holds " ++ Nat.repr children ++ " children"
  | countMismatch path shape reported actual =>
    shape.name ++ " at " ++ path.renderPath ++ " reports " ++ Nat.repr reported ++
      " children but yields " ++ Nat.repr actual
  | unorderedKeys path keys =>
    "children of node at " ++ path.renderPath ++ " are not strictly ascending: " ++
      keys.renderPath
  | underfull path children =>
    "inner node at " ++ path.renderPath ++ " has " ++ Nat.repr children ++ " children"
  | belowMinimum path shape children =>
    shape.name ++ " at " ++ path.renderPath ++ " holds " ++ Nat.repr children ++
      " children, below its minimum"

/-- The first rule that an inner node at `path` breaks by itself. -/
def ofStorage? {α : Type} (path : Bytes) (s : Storage α) : Option Violation :=
  let shape := Shape.inner s.layout
  let keys := s.children.map (·.1)
  if s.width < s.count then some (overCapacity path shape s.count)
  else if keys.length ≠ s.count then some (countMismatch path shape s.count keys.length)
  else if ¬ keys.Pairwise (· < ·) ∨ s.held ≠ keys then some (unorderedKeys path keys)
  else if s.count < 2 then some (underfull path s.count)
  else if s.count < s.layout.minimum ∧ s.layout ≠ .keyed4 then
    some (belowMinimum path shape s.count)
  else none

/-- The first rule broken by a node at `path` or by one below it. -/
def ofNode? {V : Type} (n : Node V) : Bytes → Option Violation :=
  n.fold (fun _ _ _ _ => none) fun stem s below path =>
    (ofStorage? path s).or (below.findSome? fun (b, check) => check (path ++ stem ++ [b]))

theorem ofNode?_leaf {V : Type} (suffix : Bytes) (value : V) (hits : UInt64) (path : Bytes) :
    ofNode? (.leaf suffix value hits) path = none := by
  rw [ofNode?, Node.fold_leaf]

theorem ofNode?_inner {V : Type} (stem : Bytes) (s : Storage (Node V)) (path : Bytes) :
    ofNode? (.inner stem s) path =
      (ofStorage? path s).or
        (s.children.findSome? fun c => ofNode? c.2 (path ++ stem ++ [c.1])) := by
  rw [ofNode?, Node.fold_inner, List.findSome?_map]
  rfl

end Violation

def Tree.check {V : Type} (t : Tree V) : Except Violation Unit :=
  match t.root.bind fun root => Violation.ofNode? root [] with
  | none => .ok ()
  | some violation => .error violation

end AdaptiveRadix
