import AdaptiveRadix.Cursor
import AdaptiveRadix.Node.Entries
import AdaptiveRadix.Node.Insertion
import AdaptiveRadix.Node.Removal
import AdaptiveRadix.Node.Search

/-!
A tree is a root node or nothing. Its operations read a key from a cursor: only the bytes that the
cursor has left count, and an insertion may skip further ones that are matched above the root.
-/

namespace AdaptiveRadix

structure Tree (V : Type) where
  root : Option (Node V)

namespace Tree

variable {V : Type}

def empty : Tree V :=
  ⟨none⟩

/-- Stores `value` under the bytes of `key` past `depth`, and answers how often they were
recorded. -/
def upsert (repetition : Repetition) (t : Tree V) (key : Cursor) (value : V) (depth : UInt64) :
    Checked (Outcome (Tree V) (Except KeyError UInt64)) := do
  match key.advance depth with
  | .error e => return .unchanged t (.error e)
  | .ok key =>
    match t.root with
    | none => return ⟨.ok 1, ⟨some (Node.newLeaf key.rest value)⟩, []⟩
    | some root => return (← root.insert repetition value key.rest).mapAfter (⟨some ·⟩)

def insert (t : Tree V) (key : Cursor) (value : V) (depth : UInt64) :
    Checked (Outcome (Tree V) (Except KeyError Unit)) :=
  return (← t.upsert .refused key value depth).mapAnswer (·.map fun _ => ())

/-- Stores a new key, or counts one more hit of a stored one and drops `value`. -/
def record (t : Tree V) (key : Cursor) (value : V) (depth : UInt64) :
    Checked (Outcome (Tree V) (Except KeyError UInt64)) :=
  t.upsert .counted key value depth

def find? (t : Tree V) (key : Cursor) : Checked (Option (V × UInt64)) :=
  match t.root with
  | none => .ok none
  | some root => root.find? key.rest

def lookup (t : Tree V) (key : Cursor) : Checked (Except KeyError V) := do
  match ← t.find? key with
  | none => return .error .notFound
  | some (value, _) => return .ok value

def hits (t : Tree V) (key : Cursor) : Checked (Except KeyError UInt64) := do
  match ← t.find? key with
  | none => return .error .notFound
  | some (_, hits) => return .ok hits

def assign (t : Tree V) (key : Cursor) (value : V) :
    Checked (Outcome (Tree V) (Except KeyError V)) := do
  match t.root with
  | none => return .unchanged t (.error .notFound)
  | some root => return (← root.assign value key.rest).mapAfter (⟨some ·⟩)

def delete (t : Tree V) (key : Cursor) : Checked (Outcome (Tree V) (Except KeyError V)) := do
  match t.root with
  | none => return .unchanged t (.error .notFound)
  | some (.leaf suffix value _) =>
    if suffix = key.rest then return ⟨.ok value, empty, []⟩
    else return .unchanged t (.error .notFound)
  | some root => return (← root.remove key.rest).mapAfter (⟨some ·⟩)

def height (t : Tree V) : Nat :=
  t.root.elim 0 Node.height

def entries (t : Tree V) : List (Entry V) :=
  t.root.elim [] Node.entries

def atRoot {α : Type} (t : Tree V) (change : Node V → Checked (Outcome (Node V) α)) :
    Checked (Option (Outcome (Tree V) α)) := do
  match t.root with
  | none => return none
  | some root => return some ((← change root).mapAfter (⟨some ·⟩))

def descend? (t : Tree V) (path : Bytes) : Checked (Option (Node V)) :=
  match t.root with
  | none => .ok none
  | some root => root.descend? path

end Tree

end AdaptiveRadix
