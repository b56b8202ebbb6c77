import AdaptiveRadix.Cursor

/-!
Moves and readings of a cursor as data. A request that is refused leaves the cursor where it is.
-/

namespace AdaptiveRadix.Cursor

inductive Step where
  | advance (n : UInt64)
  | peek (offset : UInt64)
  deriving DecidableEq, Repr

inductive Reply where
  | moved
  | byte (b : UInt8)
  deriving DecidableEq, Repr

def step (c : Cursor) : Step → Except KeyError Reply × Cursor
  | .advance n =>
    match c.advance n with
    | .ok d => (.ok .moved, d)
    | .error e => (.error e, c)
  | .peek offset => ((c.peek offset).map .byte, c)

def run (c : Cursor) : List Step → List (Except KeyError Reply) × Cursor
  | [] => ([], c)
  | i :: steps =>
    let later := (c.step i).2.run steps
    ((c.step i).1 :: later.1, later.2)

def Step.consumes : Step → Except KeyError Reply → Nat
  | .advance n, .ok _ => n.toNat
  | _, _ => 0

/-- The bytes that the accepted moves among the steps consume. -/
def consumed : List Step → List (Except KeyError Reply) → Nat
  | i :: steps, reply :: replies => i.consumes reply + consumed steps replies
  | _, _ => 0

end AdaptiveRadix.Cursor
