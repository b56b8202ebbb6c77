import AdaptiveRadix.Bitset
import AdaptiveRadix.Bytes

/-!
Children in 48 slots, in any order, behind a table that gives the slot of each byte. A bit set of
64 positions says which slots are taken, and the lowest free one is used next.
-/

namespace AdaptiveRadix

structure Indexed (α : Type) where
  index : Vector UInt8 256
  slots : Array (Option α)
  occupied : Bitset 64 1
  count : Nat

namespace Indexed

variable {α : Type}

def width : Nat := 48

/-- The table's entry for a byte without a child; no slot has this number. -/
def vacant : UInt8 := 0xff

def empty : Indexed α :=
  ⟨Vector.replicate 256 vacant, Array.replicate width none, Bitset.empty, 0⟩

def entry (s : Indexed α) (b : UInt8) : UInt8 :=
  have := b.toNat_lt
  s.index[b.toNat]

def setEntry (s : Indexed α) (b position : UInt8) : Indexed α :=
  have := b.toNat_lt
  { s with index := s.index.set b.toNat position }

def children (s : Indexed α) : List (UInt8 × α) :=
  Bytes.all.filterMap fun b =>
    if s.entry b = vacant then none else s.slots[(s.entry b).toNat]?.join.map (b, ·)

theorem mem_slots_of_mem_children {s : Indexed α} {c : UInt8 × α} (h : c ∈ s.children) :
    some c.2 ∈ s.slots := by
  simp only [children, List.mem_filterMap] at h
  obtain ⟨b, -, hb⟩ := h
  split at hb
  · contradiction
  · simp only [Option.map_eq_some_iff, Option.join_eq_some_iff] at hb
    obtain ⟨child, hc, rfl⟩ := hb
    exact Array.mem_of_getElem? hc

def find? (s : Indexed α) (b : UInt8) : Checked (Option α) :=
  if s.entry b = vacant then .ok none else Checked.read s.slots (s.entry b).toNat

theorem mem_slots_of_find? {s : Indexed α} {b : UInt8} {child : α}
    (h : s.find? b = .ok (some child)) : some child ∈ s.slots := by
  unfold find? at h
  split at h
  · cases h
  · exact Array.mem_of_getElem? (Checked.getElem?_of_read h)

def replace (s : Indexed α) (b : UInt8) (child : α) : Checked (Indexed α) := do
  match ← s.find? b with
  | none => return s
  | some _ => return { s with slots := ← Checked.write s.slots (s.entry b).toNat (some child) }

/-- Adds a child under a byte that is not held yet. -/
def add (s : Indexed α) (b : UInt8) (child : α) : Checked (Indexed α) := do
  match s.occupied.firstEmpty with
  | none => throw .noSpaceLeft
  | some position =>
    if position < width then
      Checked.assert (!(← s.occupied.check position))
      return { s.setEntry b position.toUInt8 with
        occupied := ← s.occupied.set position
        slots := ← Checked.write s.slots position (some child)
        count := ← Checked.increment 255 s.count }
    else throw .noSpaceLeft

def erase (s : Indexed α) (b : UInt8) : Checked (Option α × Indexed α) := do
  if s.entry b = vacant then return (none, s)
  else
    let position := (s.entry b).toNat
    let occupied ← s.occupied.unset position
    let count ← Checked.decrement s.count
    Checked.assert (occupied.size = count)
    return (← Checked.read s.slots position, { s.setEntry b vacant with
      occupied
      count
      slots := ← Checked.write s.slots position none })

def moveInto {τ : Type} (add : τ → UInt8 → α → Checked τ) (target : τ) (s : Indexed α) :
    Checked (τ × Indexed α) :=
  Bytes.all.foldlM (fun (target, s) b => do
    match ← s.erase b with
    | (none, s) => return (target, s)
    | (some child, s) => return (← add target b child, s)) (target, s)

end Indexed

end AdaptiveRadix
