import AdaptiveRadix.Storage

/-!
The children of a storage, read place by place: where a place lies outside its row, reading faults,
while `children` passes over it. What is read without a fault is what `children` lists.
-/

namespace AdaptiveRadix

variable {α : Type} {w : Nat}

def Checked.collect (find? : UInt8 → Checked (Option α)) : Bytes → Checked (List (UInt8 × α))
  | [] => return []
  | b :: bytes => do
    match ← find? b with
    | none => collect find? bytes
    | some child => return (b, child) :: (← collect find? bytes)

theorem Checked.eq_of_collect {find? : UInt8 → Checked (Option α)} (row : UInt8 → Option α)
    (found : ∀ b child?, find? b = .ok child? → row b = child?) {bytes : Bytes}
    {cs : List (UInt8 × α)} (read : collect find? bytes = .ok cs) :
    cs = bytes.filterMap fun b => (row b).map (b, ·) := by
  induction bytes generalizing cs with
  | nil =>
    cases read
    rfl
  | cons b bytes ih =>
    rw [collect] at read
    cases here : find? b with
    | error e =>
      rw [here] at read
      cases read
    | ok child? =>
      rw [here] at read
      have same := found b child? here
      cases child? with
      | none =>
        rw [List.filterMap_cons_none (by rw [same]; rfl)]
        exact ih read
      | some child =>
        rw [List.filterMap_cons_some (b := (b, child)) (by rw [same]; rfl)]
        cases rest : collect find? bytes with
        | error e =>
          rw [rest] at read
          cases read
        | ok cs' =>
          rw [rest] at read
          cases read
          rw [ih rest]

/-- The row of bytes is cut at the counter. -/
def Keyed.read (s : Keyed w α) : Checked (List (UInt8 × α)) :=
  if s.count ≤ w then .ok s.children else .error .outOfBounds

def Indexed.read (s : Indexed α) : Checked (List (UInt8 × α)) :=
  Checked.collect s.find? Bytes.all

def Direct.read (s : Direct α) : Checked (List (UInt8 × α)) :=
  Checked.collect s.find? Bytes.all

theorem Keyed.children_of_read {s : Keyed w α} {cs : List (UInt8 × α)} (h : s.read = .ok cs) :
    cs = s.children := by
  rw [read] at h
  split at h
  · exact (Except.ok.inj h).symm
  · cases h

theorem Indexed.children_of_read {s : Indexed α} {cs : List (UInt8 × α)} (h : s.read = .ok cs) :
    cs = s.children := by
  refine (Checked.eq_of_collect
    (fun b => if s.entry b = vacant then none else s.slots[(s.entry b).toNat]?.join)
    (fun b child? found => ?_) h).trans ?_
  · rw [find?] at found
    split at found
    · next free => rw [if_pos free, Except.ok.inj found]
    · next used => rw [if_neg used, Checked.getElem?_of_read found, Option.join_some]
  · rw [children]
    congr
    funext b
    split <;> rfl

theorem Direct.children_of_read {s : Direct α} {cs : List (UInt8 × α)} (h : s.read = .ok cs) :
    cs = s.children :=
  Checked.eq_of_collect (fun b => s.slots[b.toNat]?.join)
    (fun b child? found => by rw [Checked.getElem?_of_read found, Option.join_some]) h

def Storage.read : Storage α → Checked (List (UInt8 × α))
  | keyed4 s => s.read
  | keyed16 s => s.read
  | indexed48 s => s.read
  | direct256 s => s.read

theorem Storage.children_of_read {s : Storage α} {cs : List (UInt8 × α)} (h : s.read = .ok cs) :
    cs = s.children := by
  cases s with
  | keyed4 s => exact Keyed.children_of_read h
  | keyed16 s => exact Keyed.children_of_read h
  | indexed48 s => exact Indexed.children_of_read h
  | direct256 s => exact Direct.children_of_read h

end AdaptiveRadix
