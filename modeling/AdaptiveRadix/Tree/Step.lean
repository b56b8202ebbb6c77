import AdaptiveRadix.Reply
import AdaptiveRadix.Tree

/-!
The operations of a tree as data, so that runs of them can be spoken of.
-/

namespace AdaptiveRadix.Tree

variable {V : Type}

inductive Step (V : Type) where
  | insert (key : Cursor) (value : V) (depth : UInt64)
  | record (key : Cursor) (value : V) (depth : UInt64)
  | lookup (key : Cursor)
  | assign (key : Cursor) (value : V)
  | hits (key : Cursor)
  | delete (key : Cursor)

def step (t : Tree V) : Step V → Checked (Outcome (Tree V) (Reply V))
  | .insert key value depth =>
    return (← t.insert key value depth).mapAnswer (.ofExcept fun _ => .done)
  | .record key value depth =>
    return (← t.record key value depth).mapAnswer (.ofExcept (.hits <| some ·))
  | .lookup key => return .unchanged t (.ofExcept (.value <| some ·) (← t.lookup key))
  | .assign key value =>
    return (← t.assign key value).mapAnswer (.ofExcept (.value <| some ·))
  | .hits key => return .unchanged t (.ofExcept (.hits <| some ·) (← t.hits key))
  | .delete key => return (← t.delete key).mapAnswer (.ofExcept (.value <| some ·))

def run (t : Tree V) (steps : List (Step V)) : Checked (Outcome (Tree V) (List (Reply V))) :=
  Outcome.runAll step t steps

end AdaptiveRadix.Tree
