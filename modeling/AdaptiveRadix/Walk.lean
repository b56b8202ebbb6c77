import AdaptiveRadix.Tree

/-!
A walk over a tree's entries, one at a time: the root while it is still to be visited, the open
inner nodes with the children they have left, and one key that is cut back only when the next child
is taken. A walk that has ended stays ended.
-/

namespace AdaptiveRadix

/-- An open inner node: the length of the key at which its children start, and those left. -/
structure Frame (V : Type) where
  depth : Nat
  left : List (UInt8 × Node V)

structure Walk (V : Type) where
  root : Option (Node V)
  stack : List (Frame V)
  key : Bytes

namespace Walk

variable {V : Type}

def ofTree (t : Tree V) : Walk V :=
  ⟨t.root, [], []⟩

/-- A bound on the steps left: two for each node not yet visited and one for each frame. -/
def weight (w : Walk V) : Nat :=
  w.root.elim 0 (2 * ·.size) + w.stack.foldr (fun f total =>
    1 + 2 * f.left.foldr (fun c total => c.2.size + total) 0 + total) 0

/-- Takes the children of the open nodes up to the next leaf. -/
def resume (stack : List (Frame V)) (key : Bytes) : Option (Bytes × V) × Walk V :=
  match stack with
  | [] => (none, ⟨none, [], key⟩)
  | ⟨_, []⟩ :: stack => resume stack key
  | ⟨depth, (b, child) :: left⟩ :: stack =>
    let key := key.take depth ++ b :: child.stem
    match child with
    | .leaf _ value _ => (some (key, value), ⟨none, ⟨depth, left⟩ :: stack, key⟩)
    | .inner _ s => resume (⟨key.length, s.children⟩ :: ⟨depth, left⟩ :: stack) key
termination_by weight ⟨none, stack, key⟩
decreasing_by
  · simp [weight]
  · simp [weight, Node.size_inner]
    omega

def next (w : Walk V) : Option (Bytes × V) × Walk V :=
  match w.root with
  | none => resume w.stack w.key
  | some root =>
    let key := w.key ++ root.stem
    match root with
    | .leaf _ value _ => (some (key, value), ⟨none, w.stack, key⟩)
    | .inner _ s => resume (⟨key.length, s.children⟩ :: w.stack) key

theorem weight_resume_lt (stack : List (Frame V)) (key : Bytes) {item : Bytes × V} {w : Walk V}
    (h : resume stack key = (some item, w)) : w.weight < weight ⟨none, stack, key⟩ := by
  fun_induction resume stack key with
  | case1 => simp at h
  | case2 key depth stack ih =>
    have := ih h
    simp [weight] at this ⊢
    omega
  | case3 key depth b left stack suffix value hits key' =>
    obtain ⟨-, rfl⟩ := Prod.mk.inj h
    simp [weight, Node.size_leaf]
  | case4 key depth b left stack stem s key' ih =>
    have := ih h
    simp [weight, Node.size_inner] at this ⊢
    omega

theorem weight_next_lt {w w' : Walk V} {item : Bytes × V} (h : w.next = (some item, w')) :
    w'.weight < w.weight := by
  obtain ⟨root?, stack, key⟩ := w
  cases root? with
  | none => exact weight_resume_lt _ _ h
  | some root =>
    cases root with
    | leaf suffix value hits =>
      obtain ⟨-, rfl⟩ := Prod.mk.inj h
      simp [weight, Node.size_leaf]
    | inner stem s =>
      have := weight_resume_lt _ _ h
      simp [weight, Node.size_inner] at this ⊢
      omega

def toList (w : Walk V) : List (Bytes × V) :=
  match _h : w.next with
  | (none, _) => []
  | (some item, w) => item :: w.toList
termination_by w.weight
decreasing_by exact weight_next_lt ‹_›

def nexts (w : Walk V) : Nat → List (Option (Bytes × V))
  | 0 => []
  | n + 1 => w.next.1 :: w.next.2.nexts n

end Walk

end AdaptiveRadix
