import AdaptiveRadix.Tree.Reading
import AdaptiveRadix.Tree.Step

/-!
Everything that can be asked of a tree, as data: its steps, and the readers of the whole tree with
the faults that they could meet.
-/

namespace AdaptiveRadix.Tree

variable {V : Type}

inductive Action (V : Type) where
  | step (s : Step V)
  | height
  | check
  | dump
  | stats
  | walk (requests : Nat)

inductive Answer (V : Type) where
  | reply (r : Reply V)
  | height (levels : Nat)
  | check (result : Except Violation Unit)
  | dump (text : String)
  | stats (census : Census)
  | walk (items : List (Option (Bytes × V)))

def act (t : Tree V) : Action V → Checked (Outcome (Tree V) (Answer V))
  | .step s => return (← t.step s).mapAnswer .reply
  | .height => return .unchanged t (.height (← t.readHeight))
  | .check => return .unchanged t (.check (← t.readCheck))
  | .dump => return .unchanged t (.dump (← t.readDump))
  | .stats => return .unchanged t (.stats (← t.readStats))
  | .walk requests => return .unchanged t (.walk (← (Walk.ofTree t).readNexts requests))

def perform (t : Tree V) (actions : List (Action V)) :
    Checked (Outcome (Tree V) (List (Answer V))) :=
  Outcome.runAll act t actions

end AdaptiveRadix.Tree
