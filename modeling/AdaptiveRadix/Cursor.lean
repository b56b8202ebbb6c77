import AdaptiveRadix.Bytes
import AdaptiveRadix.KeyError

/-!
A position in a key that only moves forward. Offsets and positions are 64-bit words, and every
request is compared with what remains before anything is added.
-/

namespace AdaptiveRadix

structure Cursor where
  bytes : Bytes
  position : UInt64
  deriving DecidableEq, Repr

namespace Cursor

def ofBytes (bytes : Bytes) : Cursor :=
  ⟨bytes, 0⟩

/-- Length of the whole key, consumed or not. -/
def length (c : Cursor) : UInt64 :=
  c.bytes.length.toUInt64

def isEmpty (c : Cursor) : Bool :=
  c.bytes.isEmpty

def remaining (c : Cursor) : UInt64 :=
  c.length - c.position

def isExhausted (c : Cursor) : Bool :=
  c.length ≤ c.position

def rest (c : Cursor) : Bytes :=
  c.bytes.drop c.position.toNat

/-- The sum of two words, unless it needs more than 64 bits. -/
def sum? (a b : UInt64) : Option UInt64 :=
  if a.toNat + b.toNat < UInt64.size then some (a + b) else none

/-- The byte `offset` places past the position. -/
def peek (c : Cursor) (offset : UInt64) : Except KeyError UInt8 :=
  match (sum? c.position offset).bind fun i => c.bytes[i.toNat]? with
  | some b => .ok b
  | none => .error (.outOfRange offset c.remaining)

def advance (c : Cursor) (n : UInt64) : Except KeyError Cursor :=
  if c.remaining < n then .error (.outOfRange n c.remaining)
  else .ok { c with position := c.position + n }

theorem rest_ofBytes (bytes : Bytes) : (ofBytes bytes).rest = bytes := rfl

theorem advance_zero (c : Cursor) : c.advance 0 = .ok c := by
  simp [advance]

end Cursor

end AdaptiveRadix
