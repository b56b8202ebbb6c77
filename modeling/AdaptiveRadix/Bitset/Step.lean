import AdaptiveRadix.Bitset

/-!
Setting and clearing as data, so that runs of them can be spoken of.
-/

namespace AdaptiveRadix.Bitset

variable {w n : Nat}

inductive Step where
  | set (p : Nat)
  | unset (p : Nat)
  deriving DecidableEq, Repr

def Step.position : Step → Nat
  | .set p => p
  | .unset p => p

def step (s : Bitset w n) : Step → Checked (Bitset w n)
  | .set p => s.set p
  | .unset p => s.unset p

def run (s : Bitset w n) (steps : List Step) : Checked (Bitset w n) :=
  steps.foldlM step s

end AdaptiveRadix.Bitset
