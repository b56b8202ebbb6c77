import AdaptiveRadix.Cursor
import AdaptiveRadix.Node.Insertion
import AdaptiveRadix.Node.Removal
import AdaptiveRadix.Node.Search

/-!
The ways down with the cursor in hand. Every inner node moves the cursor past its stem and past the
byte of the edge, and a stem is compared with what the cursor has left.
-/

namespace AdaptiveRadix

namespace Cursor

/-- Moves past a stem and the byte behind it, and answers that byte. A key that ends with the stem
is in conflict with the keys below. -/
def takeToInsert (c : Cursor) (stem : Bytes) : Except KeyError (UInt8 × Cursor) := do
  let c ← c.advance stem.length.toUInt64
  if c.isExhausted then throw .prefixConflict
  return (← c.peek 0, ← c.advance 1)

/-- The same for a search, where all that can fail is one. -/
def takeToFind (c : Cursor) (stem : Bytes) : Option (UInt8 × Cursor) :=
  (do
    let c ← c.advance stem.length.toUInt64
    return (← c.peek 0, ← c.advance 1)).toOption

/-- The same for a removal, where a key that ends with the stem is one that is not there. -/
def takeToRemove (c : Cursor) (stem : Bytes) : Except KeyError (UInt8 × Cursor) := do
  let c ← c.advance stem.length.toUInt64
  return (← (c.peek 0).mapError fun _ => .notFound, ← c.advance 1)

end Cursor

namespace Node

variable {V : Type}

def insertAlong (repetition : Repetition) (value : V) (n : Node V) (key : Cursor) :
    Checked (Outcome (Node V) (Except KeyError UInt64)) := do
  let rest := key.rest
  let common := Stem.commonLength n.stem rest
  match n with
  | leaf suffix _ _ =>
    if common = suffix.length ∧ common = rest.length then
      match repetition with
      | .refused => return .unchanged n (.error .duplicateKey)
      | .counted => return (← n.bumpHits).mapAnswer .ok
    else if common = suffix.length ∨ common = rest.length then
      return .unchanged n (.error .prefixConflict)
    else return (← n.split common rest value).mapAnswer fun _ => .ok 1
  | inner stem s =>
    if common < stem.length then
      if common = rest.length then return .unchanged n (.error .prefixConflict)
      else return (← n.split common rest value).mapAnswer fun _ => .ok 1
    else
      match key.takeToInsert stem with
      | .error e => return .unchanged n (.error e)
      | .ok (b, key) =>
        match _h : s.find? b with
        | .error e => throw e
        | .ok (some child) =>
          let below ← child.insertAlong repetition value key
          return ⟨below.answer, inner stem (← s.replace b below.after), below.events⟩
        | .ok none => return (← n.addChild b (newLeaf key.rest value)).mapAnswer fun _ => .ok 1
termination_by n
decreasing_by exact sizeOf_lt_of_find? _h

def findAlong (n : Node V) (key : Cursor) : Checked (Option (V × UInt64)) :=
  match n with
  | leaf suffix value hits => return if suffix = key.rest then some (value, hits) else none
  | inner stem s =>
    if Stem.commonLength stem key.rest = stem.length then
      match key.takeToFind stem with
      | none => return none
      | some (b, key) =>
        match _h : s.find? b with
        | .error e => throw e
        | .ok none => return none
        | .ok (some child) => child.findAlong key
    else return none
termination_by n
decreasing_by exact sizeOf_lt_of_find? _h

def assignAlong (value : V) (n : Node V) (key : Cursor) :
    Checked (Outcome (Node V) (Except KeyError V)) := do
  match n with
  | leaf suffix old hits =>
    if suffix = key.rest then return ⟨.ok old, leaf suffix value hits, []⟩
    else return .unchanged n (.error .notFound)
  | inner stem s =>
    if Stem.commonLength stem key.rest = stem.length then
      match key.takeToFind stem with
      | none => return .unchanged n (.error .notFound)
      | some (b, key) =>
        match _h : s.find? b with
        | .error e => throw e
        | .ok none => return .unchanged n (.error .notFound)
        | .ok (some child) =>
          let below ← child.assignAlong value key
          return ⟨below.answer, inner stem (← s.replace b below.after), below.events⟩
    else return .unchanged n (.error .notFound)
termination_by n
decreasing_by exact sizeOf_lt_of_find? _h

def removeAlong (n : Node V) (key : Cursor) :
    Checked (Outcome (Node V) (Except KeyError V)) := do
  match n with
  | leaf .. => return .unchanged n (.error .notFound)
  | inner stem s =>
    if Stem.commonLength stem key.rest = stem.length then
      match key.takeToRemove stem with
      | .error e => return .unchanged n (.error e)
      | .ok (b, key) =>
        match _h : s.find? b with
        | .error e => throw e
        | .ok none => return .unchanged n (.error .notFound)
        | .ok (some (leaf suffix ..)) =>
          if suffix = key.rest then
            let removed ← n.eraseChild b
            return removed.mapAnswer fun child? =>
              match child?.bind value? with
              | some value => .ok value
              | none => .error .notFound
          else return .unchanged n (.error .notFound)
        | .ok (some child) =>
          let below ← child.removeAlong key
          return ⟨below.answer, inner stem (← s.replace b below.after), below.events⟩
    else return .unchanged n (.error .notFound)
termination_by n
decreasing_by exact sizeOf_lt_of_find? _h

end Node

end AdaptiveRadix
