import AdaptiveRadix.Census
import AdaptiveRadix.DebugText
import AdaptiveRadix.Listing
import AdaptiveRadix.Walk

/-!
An ordered map from byte strings to values, in which no key is a proper beginning of another: a
tree and the number of its entries.
-/

namespace AdaptiveRadix

structure Map (V : Type) where
  tree : Tree V
  size : Nat

namespace Map

variable {V : Type}

def empty : Map V :=
  ⟨Tree.empty, 0⟩

/-- The largest number of entries that is counted. -/
def sizeLimit : Nat := UInt64.size - 1

def insert (m : Map V) (key : Bytes) (value : V) :
    Checked (Outcome (Map V) (Except KeyError Unit)) := do
  let o ← m.tree.insert (.ofBytes key) value 0
  match o.answer with
  | .error _ => return o.mapAfter ({ m with tree := · })
  | .ok _ =>
    let size ← Checked.increment sizeLimit m.size
    return o.mapAfter (⟨·, size⟩)

/-- Stores a new key, or counts one more hit of a stored one; answers the hits. -/
def record (m : Map V) (key : Bytes) (value : V) :
    Checked (Outcome (Map V) (Except KeyError UInt64)) := do
  let o ← m.tree.record (.ofBytes key) value 0
  match o.answer with
  | .error _ => return o.mapAfter ({ m with tree := · })
  | .ok hits =>
    if hits = 1 then
      let size ← Checked.increment sizeLimit m.size
      return o.mapAfter (⟨·, size⟩)
    else return o.mapAfter ({ m with tree := · })

def get? (m : Map V) (key : Bytes) : Checked (Option V) :=
  return (← m.tree.lookup (.ofBytes key)).toOption

/-- Replaces the value of a stored key, and answers the old one. -/
def set (m : Map V) (key : Bytes) (value : V) : Checked (Outcome (Map V) (Option V)) := do
  let o ← m.tree.assign (.ofBytes key) value
  return (o.mapAfter ({ m with tree := · })).mapAnswer (·.toOption)

def contains (m : Map V) (key : Bytes) : Checked Bool :=
  return (← m.get? key).isSome

def hits? (m : Map V) (key : Bytes) : Checked (Option UInt64) :=
  return (← m.tree.hits (.ofBytes key)).toOption

def remove (m : Map V) (key : Bytes) : Checked (Outcome (Map V) (Option V)) := do
  let o ← m.tree.delete (.ofBytes key)
  match o.answer with
  | .error _ => return (o.mapAfter ({ m with tree := · })).mapAnswer fun _ => none
  | .ok value =>
    let size ← Checked.decrement m.size
    return (o.mapAfter (⟨·, size⟩)).mapAnswer fun _ => some value

def isEmpty (m : Map V) : Bool :=
  m.size = 0

def toList (m : Map V) : List (Bytes × V) :=
  (Walk.ofTree m.tree).toList

def debug (value : V → String) (m : Map V) : String :=
  DebugText.entries value m.toList

end Map

end AdaptiveRadix
