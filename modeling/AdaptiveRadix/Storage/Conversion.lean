import AdaptiveRadix.Storage.Direct
import AdaptiveRadix.Storage.Indexed
import AdaptiveRadix.Storage.Keyed

/-!
Moves of all children from one storage to another. Each answers the new storage and what is left of
the old one.
-/

namespace AdaptiveRadix

variable {α : Type} {v w : Nat}

namespace Keyed

def transfer (source : Keyed v α) (target : Keyed w α) (i : Nat) :
    Checked (Keyed w α × Keyed v α) := do
  if h : i < v then
    let target ← target.writeKey i source.keys[i]
    let target := { target with
      slots := ← Checked.write target.slots i (← Checked.read source.slots i) }
    let source := { source with slots := ← Checked.write source.slots i none }
    return (target, ← source.writeKey i filler)
  else throw .outOfBounds

/-- Copies the rows to another width, without a search. -/
def resize (s : Keyed v α) : Checked (Keyed w α × Keyed v α) := do
  if s.count ≤ w then
    let (target, source) ← (List.range s.count).foldlM
      (fun (target, source) i => source.transfer target i) ((empty : Keyed w α), s)
    return ({ target with count := s.count }, { source with count := 0 })
  else throw .tooManyChildren

def toIndexed (s : Keyed w α) : Checked (Indexed α × Keyed w α) :=
  if s.count ≤ w then
    s.held.foldlM (fun (target, s) b => do
      match ← s.erase b with
      | (none, s) => return (target, s)
      | (some child, s) => return (← target.add b child, s)) (Indexed.empty, s)
  else .error .outOfBounds

end Keyed

namespace Indexed

def toKeyed (s : Indexed α) : Checked (Keyed w α × Indexed α) :=
  s.moveInto Keyed.add Keyed.empty

def toDirect (s : Indexed α) : Checked (Direct α × Indexed α) :=
  s.moveInto Direct.add Direct.empty

end Indexed

namespace Direct

def toIndexed (s : Direct α) : Checked (Indexed α × Direct α) :=
  s.moveInto Indexed.add Indexed.empty

end Direct

end AdaptiveRadix
