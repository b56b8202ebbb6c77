/-!
The four layouts of an inner node's children, the shapes of nodes, and the numbers that decide when
a node grows or shrinks.
-/

namespace AdaptiveRadix

inductive Layout where
  | keyed4
  | keyed16
  | indexed48
  | direct256
  deriving DecidableEq, Repr

namespace Layout

def width : Layout → Nat
  | keyed4 => 4
  | keyed16 => 16
  | indexed48 => 48
  | direct256 => 256

/-- Fewest children with which a node is grown into the layout or left in it. -/
def minimum : Layout → Nat
  | keyed4 => 2
  | keyed16 => 5
  | indexed48 => 17
  | direct256 => 49

def name : Layout → String
  | keyed4 => "Node4"
  | keyed16 => "Node16"
  | indexed48 => "Node48"
  | direct256 => "Node256"

def larger? : Layout → Option Layout
  | keyed4 => some keyed16
  | keyed16 => some indexed48
  | indexed48 => some direct256
  | direct256 => none

def all : List Layout :=
  [keyed4, keyed16, indexed48, direct256]

/-- A node that outgrows a layout enters the next one at its minimum. -/
theorem minimum_of_larger? {a b : Layout} (h : a.larger? = some b) : b.minimum = a.width + 1 := by
  cases a <;> cases h <;> rfl

end Layout

inductive Shape where
  | leaf
  | inner (layout : Layout)
  deriving DecidableEq, Repr

namespace Shape

def capacity : Shape → Nat
  | leaf => 0
  | inner layout => layout.width

def minimum : Shape → Nat
  | leaf => 0
  | inner layout => layout.minimum

/-- The name in listings and messages. -/
def name : Shape → String
  | leaf => "Leaf"
  | inner layout => layout.name

def debugName : Shape → String
  | leaf => "Leaf"
  | inner .keyed4 => "Inner4"
  | inner .keyed16 => "Inner16"
  | inner .indexed48 => "Inner48"
  | inner .direct256 => "Inner256"

/-- Leaves come first, then the layouts by width. -/
def cmp (a b : Shape) : Ordering :=
  compare a.capacity b.capacity

theorem cmp_eq_eq_iff {a b : Shape} : a.cmp b = .eq ↔ a = b := by
  revert a b
  rintro (_ | _ | _) (_ | _ | _) <;> decide

end Shape

end AdaptiveRadix
