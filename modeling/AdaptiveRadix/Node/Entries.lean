import AdaptiveRadix.Node

/-!
What a tree holds and how tall it is. `entries` lists every leaf under its whole key, in the order
in which the nodes list their children.
-/

namespace AdaptiveRadix

structure Entry (V : Type) where
  key : Bytes
  value : V
  hits : UInt64
  deriving DecidableEq, Repr

namespace Node

variable {V : Type}

def entries : Node V → List (Entry V) :=
  fold (fun suffix value hits => [⟨suffix, value, hits⟩])
    fun stem _ below => below.flatMap fun (b, es) =>
      es.map fun e => { e with key := stem ++ b :: e.key }

theorem entries_leaf (suffix : Bytes) (value : V) (hits : UInt64) :
    (leaf suffix value hits).entries = [⟨suffix, value, hits⟩] :=
  fold_leaf ..

theorem entries_inner (stem : Bytes) (s : Storage (Node V)) :
    (inner stem s).entries = s.children.flatMap fun c =>
      c.2.entries.map fun e => { e with key := stem ++ c.1 :: e.key } := by
  rw [entries, fold_inner, List.flatMap_map]

/-- Number of nodes on the longest path down. -/
def height : Node V → Nat :=
  fold (fun _ _ _ => 1) fun _ _ below => 1 + (below.map (·.2)).foldl max 0

theorem height_leaf (suffix : Bytes) (value : V) (hits : UInt64) :
    (leaf suffix value hits).height = 1 :=
  fold_leaf ..

theorem height_inner (stem : Bytes) (s : Storage (Node V)) :
    (inner stem s).height = 1 + (s.children.map fun c => c.2.height).foldl max 0 := by
  rw [height, fold_inner, List.map_map]
  rfl

def size : Node V → Nat :=
  fold (fun _ _ _ => 1) fun _ _ below => 1 + below.foldr (fun b total => b.2 + total) 0

theorem size_leaf (suffix : Bytes) (value : V) (hits : UInt64) :
    (leaf suffix value hits).size = 1 :=
  fold_leaf ..

theorem size_inner (stem : Bytes) (s : Storage (Node V)) :
    (inner stem s).size = 1 + s.children.foldr (fun c total => c.2.size + total) 0 := by
  rw [size, fold_inner, List.foldr_map]

end Node

end AdaptiveRadix
