import AdaptiveRadix.Tree

/-!
How many nodes of each kind a tree has, how full they are and how deep it goes. The count is taken
from the root down, with the level of each node.
-/

namespace AdaptiveRadix

structure Tally where
  nodes : Nat
  children : Nat
  deriving DecidableEq, Repr

def Tally.add (t : Tally) (children : Nat) : Tally :=
  ⟨t.nodes + 1, t.children + children⟩

structure Census where
  leaves : Nat
  hits : UInt64
  height : Nat
  tally : Layout → Tally

namespace Census

def zero : Census :=
  ⟨0, 0, 0, fun _ => ⟨0, 0⟩⟩

def addLeaf (hits : UInt64) (level : Nat) (c : Census) : Census :=
  { c with leaves := c.leaves + 1, hits := c.hits + hits, height := max c.height level }

def addInner (layout : Layout) (children level : Nat) (c : Census) : Census :=
  { c with
    height := max c.height level
    tally := fun l => if l = layout then (c.tally l).add children else c.tally l }

def addNode {V : Type} (n : Node V) : Nat → Census → Census :=
  n.fold (fun _ _ hits => addLeaf hits) fun _ s below level c =>
    below.foldl (fun c b => b.2 (level + 1) c) (c.addInner s.layout s.count level)

def ofTree {V : Type} (t : Tree V) : Census :=
  t.root.elim zero fun root => zero.addNode root 1

/-- The layouts that occur, smallest first. -/
def layouts (c : Census) : List Layout :=
  Layout.all.filter fun l => (c.tally l).nodes ≠ 0

def total (f : Layout → Nat) : Nat :=
  f .keyed4 + f .keyed16 + f .indexed48 + f .direct256

def innerNodes (c : Census) : Nat :=
  total fun l => (c.tally l).nodes

def children (c : Census) : Nat :=
  total fun l => (c.tally l).children

def room (c : Census) (l : Layout) : Nat :=
  l.width * (c.tally l).nodes

def totalRoom (c : Census) : Nat :=
  total c.room

/-- The part of the room in nodes of one layout that is used. -/
def densityOf (c : Census) (l : Layout) : Float :=
  (c.tally l).children.toFloat / (c.room l).toFloat

/-- The part of all room that is used; zero where there is none. -/
def density (c : Census) : Float :=
  if 0 < c.totalRoom then c.children.toFloat / c.totalRoom.toFloat else 0

end Census

end AdaptiveRadix
