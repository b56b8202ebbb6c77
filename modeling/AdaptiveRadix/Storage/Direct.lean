import AdaptiveRadix.Bytes
import AdaptiveRadix.Fault

/-!
One slot for each of the 256 bytes.
-/

namespace AdaptiveRadix

structure Direct (α : Type) where
  slots : Array (Option α)
  count : Nat

namespace Direct

variable {α : Type}

def width : Nat := 256

def empty : Direct α :=
  ⟨Array.replicate width none, 0⟩

def children (s : Direct α) : List (UInt8 × α) :=
  Bytes.all.filterMap fun b => s.slots[b.toNat]?.join.map (b, ·)

theorem mem_slots_of_mem_children {s : Direct α} {c : UInt8 × α} (h : c ∈ s.children) :
    some c.2 ∈ s.slots := by
  simp only [children, List.mem_filterMap, Option.map_eq_some_iff, Option.join_eq_some_iff] at h
  obtain ⟨b, -, child, hc, rfl⟩ := h
  exact Array.mem_of_getElem? hc

def find? (s : Direct α) (b : UInt8) : Checked (Option α) :=
  Checked.read s.slots b.toNat

theorem mem_slots_of_find? {s : Direct α} {b : UInt8} {child : α}
    (h : s.find? b = .ok (some child)) : some child ∈ s.slots :=
  Array.mem_of_getElem? (Checked.getElem?_of_read h)

/-- Puts a child in place of the one under `b`, if there is one. -/
def replace (s : Direct α) (b : UInt8) (child : α) : Checked (Direct α) := do
  match ← s.find? b with
  | none => return s
  | some _ => return { s with slots := ← Checked.write s.slots b.toNat (some child) }

/-- Adds a child under `b`, or puts it in place of the one there. -/
def add (s : Direct α) (b : UInt8) (child : α) : Checked (Direct α) := do
  let old? ← s.find? b
  let slots ← Checked.write s.slots b.toNat (some child)
  match old? with
  | some _ => return { s with slots }
  | none => return { slots, count := ← Checked.increment (UInt64.size - 1) s.count }

def erase (s : Direct α) (b : UInt8) : Checked (Option α × Direct α) := do
  let old? ← s.find? b
  let slots ← Checked.write s.slots b.toNat none
  match old? with
  | none => return (none, { s with slots })
  | some child => return (some child, { slots, count := ← Checked.decrement s.count })

/-- Takes the children out, ascending, and hands each to `add`. -/
def moveInto {τ : Type} (add : τ → UInt8 → α → Checked τ) (target : τ) (s : Direct α) :
    Checked (τ × Direct α) := do
  let (target, slots) ← Bytes.all.foldlM (fun (target, slots) b => do
    match ← Checked.read slots b.toNat with
    | none => return (target, slots)
    | some child => return (← add target b child, ← Checked.write slots b.toNat none))
    (target, s.slots)
  return (target, ⟨slots, 0⟩)

end Direct

end AdaptiveRadix
