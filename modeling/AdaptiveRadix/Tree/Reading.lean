import AdaptiveRadix.Census
import AdaptiveRadix.DebugText
import AdaptiveRadix.Listing
import AdaptiveRadix.Storage.Reading
import AdaptiveRadix.Walk

/-!
The readers of a whole tree with the faults that they could meet: a place that lies outside its row,
and a sum of hits that does not fit in its word.
-/

namespace AdaptiveRadix

variable {V β : Type}

namespace Node

/-- A fold that reads the children of every inner node place by place. -/
def read (onLeaf : Bytes → V → UInt64 → β)
    (onInner : Bytes → Storage (Node V) → List (UInt8 × β) → β) : Node V → Checked β
  | leaf suffix value hits => return onLeaf suffix value hits
  | inner stem s =>
    match _h : s.read with
    | .error e => throw e
    | .ok cs => do
      let below ← cs.attach.mapM fun c => return (c.1.1, ← read onLeaf onInner c.1.2)
      return onInner stem s below
termination_by n => n
decreasing_by exact sizeOf_lt_of_mem_children (Storage.children_of_read _h ▸ c.2)

end Node

namespace Walk

def readResume (stack : List (Frame V)) (key : Bytes) : Checked (Option (Bytes × V) × Walk V) :=
  match stack with
  | [] => return (none, ⟨none, [], key⟩)
  | ⟨_, []⟩ :: stack => readResume stack key
  | ⟨depth, (b, child) :: left⟩ :: stack =>
    let key := key.take depth ++ b :: child.stem
    match child with
    | .leaf _ value _ => return (some (key, value), ⟨none, ⟨depth, left⟩ :: stack, key⟩)
    | .inner _ s =>
      match _h : s.read with
      | .error e => throw e
      | .ok cs => readResume (⟨key.length, cs⟩ :: ⟨depth, left⟩ :: stack) key
termination_by weight ⟨none, stack, key⟩
decreasing_by
  · simp [weight]
  · have := Storage.children_of_read _h
    subst this
    simp [weight, Node.size_inner]
    omega

def readNext (w : Walk V) : Checked (Option (Bytes × V) × Walk V) :=
  match w.root with
  | none => readResume w.stack w.key
  | some root =>
    let key := w.key ++ root.stem
    match root with
    | .leaf _ value _ => return (some (key, value), ⟨none, w.stack, key⟩)
    | .inner _ s => do readResume (⟨key.length, ← s.read⟩ :: w.stack) key

def readNexts (w : Walk V) : Nat → Checked (List (Option (Bytes × V)))
  | 0 => return []
  | n + 1 => do
    let (item?, w) ← w.readNext
    return item? :: (← w.readNexts n)

end Walk

namespace Census

/-- Counts a leaf whose hits can be added. -/
def countLeaf (hits : UInt64) (level : Nat) (c : Census) : Checked Census :=
  if c.hits.toNat + hits.toNat < UInt64.size then .ok (c.addLeaf hits level)
  else .error .counterOverflow

def countInner (s : Storage (Node V)) (below : List (UInt8 × (Nat → Census → Checked Census)))
    (level : Nat) (c : Census) : Checked Census :=
  below.foldlM (fun c b => b.2 (level + 1) c) (c.addInner s.layout s.count level)

end Census

namespace Tree

def read (onLeaf : Bytes → V → UInt64 → β)
    (onInner : Bytes → Storage (Node V) → List (UInt8 × β) → β) (t : Tree V) :
    Checked (Option β) := do
  match t.root with
  | none => return none
  | some root => return some (← root.read onLeaf onInner)

def readHeight (t : Tree V) : Checked Nat := do
  let height? ← t.read (fun _ _ _ => 1) fun _ _ below => 1 + (below.map (·.2)).foldl max 0
  return height?.getD 0

def readCheck (t : Tree V) : Checked (Except Violation Unit) := do
  let check? ← t.read (fun _ _ _ _ => none) fun stem s below path =>
    (Violation.ofStorage? path s).or (below.findSome? fun b => b.2 (path ++ stem ++ [b.1]))
  return match check?.bind (· []) with
    | none => .ok ()
    | some violation => .error violation

def readDump (t : Tree V) : Checked String := do
  let lines? ← t.read (fun suffix _ hits level => [.leaf level suffix hits])
    fun stem s (below : List (UInt8 × (Nat → List Line))) level =>
      .inner level s.layout stem s.count ::
        below.flatMap fun b => .edge level b.1 :: b.2 (level + 1)
  match lines? with
  | none => return "[]\n"
  | some lines => return String.join ((lines 0).map fun line => line.render ++ "\n")

def readStats (t : Tree V) : Checked Census := do
  match ← t.read (fun _ _ hits => Census.countLeaf hits) fun _ s => Census.countInner s with
  | none => return Census.zero
  | some count => count 1 Census.zero

end Tree

end AdaptiveRadix
