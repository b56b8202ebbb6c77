import AdaptiveRadix.Node.Descent
import AdaptiveRadix.Tree

/-!
The operations of a tree with the cursor handed down to the nodes.
-/

namespace AdaptiveRadix.Tree

variable {V : Type}

def upsertAlong (repetition : Repetition) (t : Tree V) (key : Cursor) (value : V)
    (depth : UInt64) : Checked (Outcome (Tree V) (Except KeyError UInt64)) := do
  match key.advance depth with
  | .error e => return .unchanged t (.error e)
  | .ok key =>
    match t.root with
    | none => return ⟨.ok 1, ⟨some (Node.newLeaf key.rest value)⟩, []⟩
    | some root => return (← root.insertAlong repetition value key).mapAfter (⟨some ·⟩)

def insertAlong (t : Tree V) (key : Cursor) (value : V) (depth : UInt64) :
    Checked (Outcome (Tree V) (Except KeyError Unit)) :=
  return (← t.upsertAlong .refused key value depth).mapAnswer (·.map fun _ => ())

def recordAlong (t : Tree V) (key : Cursor) (value : V) (depth : UInt64) :
    Checked (Outcome (Tree V) (Except KeyError UInt64)) :=
  t.upsertAlong .counted key value depth

def findAlong (t : Tree V) (key : Cursor) : Checked (Option (V × UInt64)) :=
  match t.root with
  | none => .ok none
  | some root => root.findAlong key

def lookupAlong (t : Tree V) (key : Cursor) : Checked (Except KeyError V) := do
  match ← t.findAlong key with
  | none => return .error .notFound
  | some (value, _) => return .ok value

def hitsAlong (t : Tree V) (key : Cursor) : Checked (Except KeyError UInt64) := do
  match ← t.findAlong key with
  | none => return .error .notFound
  | some (_, hits) => return .ok hits

def assignAlong (t : Tree V) (key : Cursor) (value : V) :
    Checked (Outcome (Tree V) (Except KeyError V)) := do
  match t.root with
  | none => return .unchanged t (.error .notFound)
  | some root => return (← root.assignAlong value key).mapAfter (⟨some ·⟩)

def deleteAlong (t : Tree V) (key : Cursor) :
    Checked (Outcome (Tree V) (Except KeyError V)) := do
  match t.root with
  | none => return .unchanged t (.error .notFound)
  | some (.leaf suffix value _) =>
    if suffix = key.rest then return ⟨.ok value, empty, []⟩
    else return .unchanged t (.error .notFound)
  | some root => return (← root.removeAlong key).mapAfter (⟨some ·⟩)

end AdaptiveRadix.Tree
