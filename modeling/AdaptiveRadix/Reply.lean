import AdaptiveRadix.KeyError

/-!
The answers of steps on trees and maps, whichever step they answer.
-/

namespace AdaptiveRadix

inductive Reply (V : Type) where
  | done
  | error (e : KeyError)
  | value (value? : Option V)
  | hits (hits? : Option UInt64)
  | flag (holds : Bool)
  | number (n : Nat)
  deriving DecidableEq, Repr

def Reply.ofExcept {V α : Type} (f : α → Reply V) : Except KeyError α → Reply V
  | .ok x => f x
  | .error e => .error e

end AdaptiveRadix
