/-!
The errors of tree operations. They are answers, not faults: a tree that answers one is unchanged.
-/

namespace AdaptiveRadix

inductive KeyError where
  | outOfRange (offset remaining : UInt64)
  | duplicateKey
  | notFound
  | prefixConflict
  deriving DecidableEq, Repr

def KeyError.message : KeyError → String
  | .outOfRange offset remaining =>
    "read of " ++ Nat.repr offset.toNat ++ " bytes past cursor with only " ++
      Nat.repr remaining.toNat ++ " remaining"
  | .duplicateKey => "key is already present in the tree"
  | .notFound => "key not found"
  | .prefixConflict => "key is a prefix of, or is prefixed by, a stored key"

end AdaptiveRadix
