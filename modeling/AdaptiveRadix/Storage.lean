import AdaptiveRadix.Layout
import AdaptiveRadix.Storage.Conversion

/-!
The children of an inner node in any of the four layouts. What a storage holds is what `children`
lists, ascending by byte; growth and shrinking change the layout only.
-/

namespace AdaptiveRadix

inductive Storage (α : Type) where
  | keyed4 (s : Keyed 4 α)
  | keyed16 (s : Keyed 16 α)
  | indexed48 (s : Indexed α)
  | direct256 (s : Direct α)

namespace Storage

variable {α : Type}

def empty : Layout → Storage α
  | .keyed4 => keyed4 Keyed.empty
  | .keyed16 => keyed16 Keyed.empty
  | .indexed48 => indexed48 Indexed.empty
  | .direct256 => direct256 Direct.empty

def layout : Storage α → Layout
  | keyed4 _ => .keyed4
  | keyed16 _ => .keyed16
  | indexed48 _ => .indexed48
  | direct256 _ => .direct256

def width (s : Storage α) : Nat :=
  s.layout.width

/-- The number of children as the storage itself counts them. -/
def count : Storage α → Nat
  | keyed4 s => s.count
  | keyed16 s => s.count
  | indexed48 s => s.count
  | direct256 s => s.count

def children : Storage α → List (UInt8 × α)
  | keyed4 s => s.children
  | keyed16 s => s.children
  | indexed48 s => s.children
  | direct256 s => s.children

/-- The edge bytes as the storage itself keeps them. -/
def held : Storage α → Bytes
  | keyed4 s => s.held
  | keyed16 s => s.held
  | indexed48 s => s.children.map (·.1)
  | direct256 s => s.children.map (·.1)

def find? : Storage α → UInt8 → Checked (Option α)
  | keyed4 s, b => s.find? b
  | keyed16 s, b => s.find? b
  | indexed48 s, b => s.find? b
  | direct256 s, b => s.find? b

def replace (b : UInt8) (child : α) : Storage α → Checked (Storage α)
  | keyed4 s => return keyed4 (← s.replace b child)
  | keyed16 s => return keyed16 (← s.replace b child)
  | indexed48 s => return indexed48 (← s.replace b child)
  | direct256 s => return direct256 (← s.replace b child)

def add (b : UInt8) (child : α) : Storage α → Checked (Storage α)
  | keyed4 s => return keyed4 (← s.add b child)
  | keyed16 s => return keyed16 (← s.add b child)
  | indexed48 s => return indexed48 (← s.add b child)
  | direct256 s => return direct256 (← s.add b child)

def erase (b : UInt8) : Storage α → Checked (Option α × Storage α)
  | keyed4 s => return (← s.erase b).map id keyed4
  | keyed16 s => return (← s.erase b).map id keyed16
  | indexed48 s => return (← s.erase b).map id indexed48
  | direct256 s => return (← s.erase b).map id direct256

/-- Moves the children to another layout, where the two have a direct conversion. -/
def convert? : Storage α → Layout → Option (Checked (Storage α × Storage α))
  | keyed4 s, .keyed4 => some (return (← s.resize).map keyed4 keyed4)
  | keyed4 s, .keyed16 => some (return (← s.resize).map keyed16 keyed4)
  | keyed4 s, .indexed48 => some (return (← s.toIndexed).map indexed48 keyed4)
  | keyed16 s, .keyed4 => some (return (← s.resize).map keyed4 keyed16)
  | keyed16 s, .keyed16 => some (return (← s.resize).map keyed16 keyed16)
  | keyed16 s, .indexed48 => some (return (← s.toIndexed).map indexed48 keyed16)
  | indexed48 s, .keyed4 => some (return (← s.toKeyed).map keyed4 indexed48)
  | indexed48 s, .keyed16 => some (return (← s.toKeyed).map keyed16 indexed48)
  | indexed48 s, .direct256 => some (return (← s.toDirect).map direct256 indexed48)
  | direct256 s, .indexed48 => some (return (← s.toIndexed).map indexed48 direct256)
  | _, _ => none

def grow : Storage α → Checked (Storage α)
  | keyed4 s => return keyed16 (← s.resize).1
  | keyed16 s => return indexed48 (← s.toIndexed).1
  | indexed48 s => return direct256 (← s.toDirect).1
  | direct256 _ => throw .growthOfLargest

def shrink : Storage α → Checked (Option (Storage α))
  | keyed4 _ => return none
  | keyed16 s => return some (keyed4 (← s.resize).1)
  | indexed48 s => return some (keyed16 (← s.toKeyed).1)
  | direct256 s => return some (indexed48 (← s.toIndexed).1)

theorem layout_empty (l : Layout) : (empty l : Storage α).layout = l := by
  cases l <;> rfl

/-- The places of the children, with the places left empty. -/
def slots : Storage α → Array (Option α)
  | keyed4 s => s.slots
  | keyed16 s => s.slots
  | indexed48 s => s.slots
  | direct256 s => s.slots

theorem sizeOf_lt_of_mem_slots [SizeOf α] {s : Storage α} {child : α}
    (h : some child ∈ s.slots) : sizeOf child < sizeOf s := by
  have inside := Array.sizeOf_lt_of_mem h
  rw [Option.some.sizeOf_spec] at inside
  cases s with
  | keyed4 s | keyed16 s =>
    cases s
    simp only [slots, keyed4.sizeOf_spec, keyed16.sizeOf_spec, Keyed.mk.sizeOf_spec] at inside ⊢
    omega
  | indexed48 s =>
    cases s
    simp only [slots, indexed48.sizeOf_spec, Indexed.mk.sizeOf_spec] at inside ⊢
    omega
  | direct256 s =>
    cases s
    simp only [slots, direct256.sizeOf_spec, Direct.mk.sizeOf_spec] at inside ⊢
    omega

theorem sizeOf_lt_of_mem_children [SizeOf α] {s : Storage α} {c : UInt8 × α}
    (h : c ∈ s.children) : sizeOf c.2 < sizeOf s := by
  apply sizeOf_lt_of_mem_slots
  cases s with
  | keyed4 s => exact Keyed.mem_slots_of_mem_children h
  | keyed16 s => exact Keyed.mem_slots_of_mem_children h
  | indexed48 s => exact Indexed.mem_slots_of_mem_children h
  | direct256 s => exact Direct.mem_slots_of_mem_children h

theorem sizeOf_lt_of_find? [SizeOf α] {s : Storage α} {b : UInt8} {child : α}
    (h : s.find? b = .ok (some child)) : sizeOf child < sizeOf s := by
  apply sizeOf_lt_of_mem_slots
  cases s with
  | keyed4 s => exact Keyed.mem_slots_of_find? h
  | keyed16 s => exact Keyed.mem_slots_of_find? h
  | indexed48 s => exact Indexed.mem_slots_of_find? h
  | direct256 s => exact Direct.mem_slots_of_find? h

end Storage

end AdaptiveRadix
