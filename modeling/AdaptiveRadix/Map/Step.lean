import AdaptiveRadix.Map
import AdaptiveRadix.Reply

/-!
The operations of a map as data, so that runs of them can be spoken of.
-/

namespace AdaptiveRadix.Map

variable {V : Type}

inductive Step (V : Type) where
  | insert (key : Bytes) (value : V)
  | record (key : Bytes) (value : V)
  | get (key : Bytes)
  | set (key : Bytes) (value : V)
  | contains (key : Bytes)
  | hits (key : Bytes)
  | remove (key : Bytes)
  | len
  | isEmpty
  | clear

def step (m : Map V) : Step V → Checked (Outcome (Map V) (Reply V))
  | .insert key value => return (← m.insert key value).mapAnswer (.ofExcept fun _ => .done)
  | .record key value => return (← m.record key value).mapAnswer (.ofExcept (.hits <| some ·))
  | .get key => return .unchanged m (.value (← m.get? key))
  | .set key value => return (← m.set key value).mapAnswer .value
  | .contains key => return .unchanged m (.flag (← m.contains key))
  | .hits key => return .unchanged m (.hits (← m.hits? key))
  | .remove key => return (← m.remove key).mapAnswer .value
  | .len => return .unchanged m (.number m.size)
  | .isEmpty => return .unchanged m (.flag m.isEmpty)
  | .clear => return .unchanged .empty .done

def run (m : Map V) (steps : List (Step V)) : Checked (Outcome (Map V) (List (Reply V))) :=
  Outcome.runAll step m steps

end AdaptiveRadix.Map
