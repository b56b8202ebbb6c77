import AdaptiveRadix.Tree

/-!
A tree as lines of text: one for each node, and one for each edge above the node it leads to,
indented by their level.
-/

namespace AdaptiveRadix

inductive Line where
  | leaf (level : Nat) (suffix : Bytes) (hits : UInt64)
  | inner (level : Nat) (layout : Layout) (stem : Bytes) (children : Nat)
  | edge (level : Nat) (byte : UInt8)
  deriving DecidableEq, Repr

namespace Line

def indent (level : Nat) : String :=
  String.ofList (List.replicate (2 * level) ' ')

def render : Line → String
  | leaf level suffix hits =>
    indent level ++ Shape.leaf.name ++ " suffix " ++ suffix.renderStem ++ ", " ++
      Nat.repr hits.toNat ++ " hits"
  | inner level layout stem children =>
    indent level ++ layout.name ++ " prefix " ++ stem.renderStem ++ ", " ++
      Nat.repr children ++ " #children"
  | edge level byte => indent level ++ "  (" ++ Bytes.hexPair byte ++ ") =>"

end Line

namespace Node

variable {V : Type}

def lines (n : Node V) : Nat → List Line :=
  n.fold (fun suffix _ hits level => [.leaf level suffix hits]) fun stem s below level =>
    .inner level s.layout stem s.count ::
      below.flatMap fun (b, lines) => .edge level b :: lines (level + 1)

theorem lines_leaf (suffix : Bytes) (value : V) (hits : UInt64) (level : Nat) :
    (leaf suffix value hits).lines level = [.leaf level suffix hits] := by
  rw [lines, fold_leaf]

theorem lines_inner (stem : Bytes) (s : Storage (Node V)) (level : Nat) :
    (inner stem s).lines level = .inner level s.layout stem s.count ::
      s.children.flatMap fun c => .edge level c.1 :: c.2.lines (level + 1) := by
  rw [lines, fold_inner, List.flatMap_map]
  rfl

end Node

/-- The lines of the node graph, each ended by a line feed. -/
def Tree.dump {V : Type} (t : Tree V) : String :=
  match t.root with
  | none => "[]\n"
  | some root => String.join ((root.lines 0).map fun line => line.render ++ "\n")

end AdaptiveRadix
