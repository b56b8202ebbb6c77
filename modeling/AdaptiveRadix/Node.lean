import AdaptiveRadix.Event
import AdaptiveRadix.Stem
import AdaptiveRadix.Storage

/-!
Nodes: a leaf holds the rest of its key, a value and a hit count; an inner node holds the bytes
that all keys below it share next, and its children by the byte that follows. Every function of a
whole tree is a fold over it.
-/

namespace AdaptiveRadix

inductive Node (V : Type) where
  | leaf (suffix : Bytes) (value : V) (hits : UInt64)
  | inner (stem : Bytes) (storage : Storage (Node V))

namespace Node

variable {V β : Type}

def isLeaf : Node V → Bool
  | leaf .. => true
  | inner .. => false

def shape : Node V → Shape
  | leaf .. => .leaf
  | inner _ s => .inner s.layout

/-- The bytes a node holds itself, for a leaf its suffix. -/
def stem : Node V → Bytes
  | leaf suffix _ _ => suffix
  | inner stem _ => stem

def withStem : Node V → Bytes → Node V
  | leaf _ value hits, suffix => leaf suffix value hits
  | inner _ s, stem => inner stem s

def value? : Node V → Option V
  | leaf _ value _ => some value
  | inner .. => none

def hits? : Node V → Option UInt64
  | leaf _ _ hits => some hits
  | inner .. => none

def capacity (n : Node V) : Nat :=
  n.shape.capacity

def count : Node V → Nat
  | leaf .. => 0
  | inner _ s => s.count

def children : Node V → List (UInt8 × Node V)
  | leaf .. => []
  | inner _ s => s.children

def held : Node V → Bytes
  | leaf .. => []
  | inner _ s => s.held

def child? : Node V → UInt8 → Checked (Option (Node V))
  | leaf .., _ => .ok none
  | inner _ s, b => s.find? b

/-- The node reached by taking one edge after the other, whatever the stems. -/
def descend? (n : Node V) : Bytes → Checked (Option (Node V))
  | [] => return some n
  | b :: path => do
    match ← n.child? b with
    | none => return none
    | some child => child.descend? path

theorem sizeOf_lt_of_mem_children {stem : Bytes} {s : Storage (Node V)} {c : UInt8 × Node V}
    (h : c ∈ s.children) : sizeOf c.2 < sizeOf (inner stem s) := by
  have := Storage.sizeOf_lt_of_mem_children h
  simp only [inner.sizeOf_spec]
  omega

theorem sizeOf_lt_of_find? {stem : Bytes} {s : Storage (Node V)} {b : UInt8} {child : Node V}
    (h : s.find? b = .ok (some child)) : sizeOf child < sizeOf (inner stem s) := by
  have := Storage.sizeOf_lt_of_find? h
  simp only [inner.sizeOf_spec]
  omega

/-- Combines what `onLeaf` says of a leaf, and what `onInner` makes of a node's stem, storage and
the results for its children. -/
def fold (onLeaf : Bytes → V → UInt64 → β)
    (onInner : Bytes → Storage (Node V) → List (UInt8 × β) → β) : Node V → β
  | leaf suffix value hits => onLeaf suffix value hits
  | inner stem s =>
    onInner stem s (s.children.attach.map fun c => (c.1.1, fold onLeaf onInner c.1.2))
termination_by n => n
decreasing_by exact sizeOf_lt_of_mem_children c.2

theorem fold_leaf (onLeaf : Bytes → V → UInt64 → β)
    (onInner : Bytes → Storage (Node V) → List (UInt8 × β) → β)
    (suffix : Bytes) (value : V) (hits : UInt64) :
    fold onLeaf onInner (leaf suffix value hits) = onLeaf suffix value hits := by
  rw [fold]

theorem fold_inner (onLeaf : Bytes → V → UInt64 → β)
    (onInner : Bytes → Storage (Node V) → List (UInt8 × β) → β)
    (stem : Bytes) (s : Storage (Node V)) :
    fold onLeaf onInner (inner stem s) =
      onInner stem s (s.children.map fun c => (c.1, fold onLeaf onInner c.2)) := by
  rw [fold]
  exact congrArg (onInner stem s)
    (List.attach_map_val (f := fun c : UInt8 × Node V => (c.1, fold onLeaf onInner c.2)))

theorem induct {motive : Node V → Prop}
    (leaf : ∀ suffix value hits, motive (leaf suffix value hits))
    (inner : ∀ stem s, (∀ c ∈ s.children, motive c.2) → motive (inner stem s)) :
    ∀ n, motive n
  | .leaf suffix value hits => leaf suffix value hits
  | .inner stem s => inner stem s fun c _ => induct leaf inner c.2
termination_by n => n
decreasing_by exact sizeOf_lt_of_mem_children ‹_›

theorem induct_find? {motive : Node V → Prop}
    (leaf : ∀ suffix value hits, motive (leaf suffix value hits))
    (inner : ∀ stem s, (∀ b child, s.find? b = .ok (some child) → motive child) →
      motive (inner stem s)) : ∀ n, motive n
  | .leaf suffix value hits => leaf suffix value hits
  | .inner stem s => inner stem s fun _ child _ => induct_find? leaf inner child
termination_by n => n
decreasing_by exact sizeOf_lt_of_find? ‹_›

end Node

end AdaptiveRadix
