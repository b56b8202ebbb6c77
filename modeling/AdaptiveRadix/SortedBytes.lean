import AdaptiveRadix.Bytes

/-!
Searches in a row of bytes whose first `n` are ascending; what stands behind them is not looked at.
A row of sixteen is searched by comparing all its lanes at once or by halving, a shorter one from
the front.
-/

namespace AdaptiveRadix.SortedBytes

def held {w : Nat} (row : Vector UInt8 w) (n : Nat) : List UInt8 :=
  row.toList.take n

/-- One bit per lane, set where the lane holds `key`, lane 0 lowest. -/
def equalLanes (key : UInt8) : List UInt8 → BitVec 32
  | [] => 0
  | b :: lanes => equalLanes key lanes <<< 1 ||| if b = key then 1 else 0

def findInLanes (key : UInt8) (row : Vector UInt8 16) (n : Nat) : Option Nat :=
  let hits := equalLanes key row.toList &&& ((1 <<< n) - 1)
  if hits = 0 then none else some hits.ctz.toNat

/-- Halves the `size` positions from `base` on until one is left, keeping the upper half whenever
its first byte passes `goesUp`. -/
def halve (goesUp : UInt8 → Bool) (bytes : List UInt8) (base size : Nat) : Nat :=
  if size ≤ 1 then base
  else
    let mid := base + size / 2
    halve goesUp bytes (if bytes[mid]?.any goesUp then mid else base) (size - size / 2)
termination_by size

def findByHalving (key : UInt8) (bytes : List UInt8) : Option Nat :=
  let position := halve (· ≤ key) bytes 0 bytes.length
  if bytes[position]? = some key then some position else none

def countBelowByHalving (key : UInt8) (bytes : List UInt8) : Nat :=
  let position := halve (· < key) bytes 0 bytes.length
  if bytes[position]?.any (· < key) then position + 1 else position

def findFromFront (key : UInt8) (bytes : List UInt8) : Option Nat :=
  bytes.findIdx? (· = key)

def countBelowFromFront (key : UInt8) (bytes : List UInt8) : Nat :=
  bytes.findIdx (key < ·)

def position? (key : UInt8) : {w : Nat} → Vector UInt8 w → Nat → Option Nat
  | 16, row, n => findInLanes key row n
  | _, row, n => findFromFront key (held row n)

/-- The same without lanes: a row of sixteen is halved. -/
def scalarPosition? (key : UInt8) : {w : Nat} → Vector UInt8 w → Nat → Option Nat
  | 16, row, n => findByHalving key (held row n)
  | _, row, n => findFromFront key (held row n)

/-- Where `key` must be put to keep the first `n + 1` bytes ascending. -/
def insertPosition (key : UInt8) : {w : Nat} → Vector UInt8 w → Nat → Nat
  | 16, row, n => countBelowByHalving key (held row n)
  | _, row, n => countBelowFromFront key (held row n)

end AdaptiveRadix.SortedBytes
