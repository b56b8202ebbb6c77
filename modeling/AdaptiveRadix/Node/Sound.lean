import AdaptiveRadix.Node
import AdaptiveRadix.Storage.Sound

/-!
Trees whose storages are all sound: at every inner node the edges are distinct. Nothing is said of
how full a node is.
-/

namespace AdaptiveRadix.Node

variable {V : Type}

def Sound : Node V → Prop :=
  fold (fun _ _ _ => True) fun _ s below => s.Sound ∧ ∀ b ∈ below, b.2

theorem sound_leaf (suffix : Bytes) (value : V) (hits : UInt64) :
    (leaf suffix value hits).Sound := by
  rw [Sound, fold_leaf]
  trivial

theorem sound_inner {stem : Bytes} {s : Storage (Node V)} :
    (inner stem s).Sound ↔ s.Sound ∧ ∀ c ∈ s.children, c.2.Sound := by
  rw [Sound, fold_inner, List.forall_mem_map]

end AdaptiveRadix.Node
