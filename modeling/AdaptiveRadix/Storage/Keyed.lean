import AdaptiveRadix.Bytes
import AdaptiveRadix.Fault
import AdaptiveRadix.SortedBytes

/-!
Children beside their edge bytes in two parallel rows of fixed width, sorted by byte. The first
`count` places are in use; the others hold the filler and no child. Room is made and closed one
place at a time.
-/

namespace AdaptiveRadix

structure Keyed (w : Nat) (α : Type) where
  keys : Vector UInt8 w
  slots : Array (Option α)
  count : Nat

namespace Keyed

variable {α : Type} {w : Nat}

/-- Also a byte that can be stored: only `count` tells the two apart. -/
def filler : UInt8 := 255

def empty : Keyed w α :=
  ⟨Vector.replicate w filler, Array.replicate w none, 0⟩

def held (s : Keyed w α) : Bytes :=
  SortedBytes.held s.keys s.count

def children (s : Keyed w α) : List (UInt8 × α) :=
  ((s.keys.toList.zip s.slots.toList).take s.count).filterMap fun (b, child?) => child?.map (b, ·)

theorem mem_slots_of_mem_children {s : Keyed w α} {c : UInt8 × α} (h : c ∈ s.children) :
    some c.2 ∈ s.slots := by
  simp only [children, List.mem_filterMap, Option.map_eq_some_iff] at h
  obtain ⟨⟨b, child?⟩, hp, child, rfl, rfl⟩ := h
  exact Array.mem_def.2 (List.of_mem_zip (List.mem_of_mem_take hp)).2

def position? (s : Keyed w α) (b : UInt8) : Checked (Option Nat) :=
  if s.count ≤ w then .ok (SortedBytes.position? b s.keys s.count) else .error .outOfBounds

def find? (s : Keyed w α) (b : UInt8) : Checked (Option α) := do
  match ← s.position? b with
  | none => return none
  | some i => Checked.read s.slots i

theorem mem_slots_of_find? {s : Keyed w α} {b : UInt8} {child : α}
    (h : s.find? b = .ok (some child)) : some child ∈ s.slots := by
  unfold find? at h
  cases position : s.position? b with
  | error e =>
    rw [position] at h
    contradiction
  | ok i? =>
    rw [position] at h
    cases i? with
    | none => cases h
    | some i => exact Array.mem_of_getElem? (Checked.getElem?_of_read h)

def replace (s : Keyed w α) (b : UInt8) (child : α) : Checked (Keyed w α) := do
  match ← s.position? b with
  | none => return s
  | some i =>
    match ← Checked.read s.slots i with
    | none => return s
    | some _ => return { s with slots := ← Checked.write s.slots i (some child) }

def writeKey (s : Keyed w α) (i : Nat) (b : UInt8) : Checked (Keyed w α) :=
  if h : i < w then .ok { s with keys := s.keys.set i b } else .error .outOfBounds

/-- Moves the byte and the child at `i` to `j`; the byte at `i` stays, the child does not. -/
def move (s : Keyed w α) (i j : Nat) : Checked (Keyed w α) := do
  if h : i < w then
    let child? ← Checked.read s.slots i
    let slots ← Checked.write s.slots i none
    let slots ← Checked.write slots j child?
    { s with slots }.writeKey j s.keys[i]
  else throw .outOfBounds

/-- Moves the `n` places from `i` on one place up, the last of them first. -/
def shiftUp (s : Keyed w α) (i : Nat) : Nat → Checked (Keyed w α)
  | 0 => return s
  | n + 1 => do (← s.move (i + n) (i + n + 1)).shiftUp i n

/-- Moves the `n` places behind `i` one place down, the first of them first. -/
def shiftDown (s : Keyed w α) (i : Nat) : Nat → Checked (Keyed w α)
  | 0 => return s
  | n + 1 => do (← s.move (i + 1) i).shiftDown (i + 1) n

def add (s : Keyed w α) (b : UInt8) (child : α) : Checked (Keyed w α) := do
  if s.count < w then
    let i := SortedBytes.insertPosition b s.keys s.count
    let s ← s.shiftUp i (s.count - i)
    let s ← s.writeKey i b
    return { s with
      slots := ← Checked.write s.slots i (some child)
      count := ← Checked.increment 255 s.count }
  else throw .noSpaceLeft

def erase (s : Keyed w α) (b : UInt8) : Checked (Option α × Keyed w α) := do
  match ← s.position? b with
  | none => return (none, s)
  | some i =>
    let child? ← Checked.read s.slots i
    let slots ← Checked.write s.slots i none
    let last ← Checked.decrement s.count
    let s ← { s with slots }.shiftDown i (last - i)
    let s ← s.writeKey last filler
    return (child?, { s with count := last })

end Keyed

end AdaptiveRadix
