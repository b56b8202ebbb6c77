import AdaptiveRadix.Fault

/-!
Sets of positions, one bit each, in `n` words of `w` bits. Position `p` is bit `p % w` of word
`p / w`.
-/

namespace AdaptiveRadix

structure Bitset (w n : Nat) where
  words : Vector (BitVec w) n
  deriving DecidableEq, Repr

namespace Bitset

variable {w n : Nat}

def empty : Bitset w n :=
  ⟨Vector.replicate n 0⟩

theorem word_lt {p : Nat} (h : p < n * w) : p / w < n :=
  Nat.div_lt_of_lt_mul (Nat.mul_comm n w ▸ h)

def bit (p : Nat) : BitVec w :=
  1 <<< (p % w)

def set (s : Bitset w n) (p : Nat) : Checked (Bitset w n) :=
  if h : p < n * w then
    have := word_lt h
    .ok ⟨s.words.set (p / w) (s.words[p / w] ||| bit p)⟩
  else .error .outOfBounds

def unset (s : Bitset w n) (p : Nat) : Checked (Bitset w n) :=
  if h : p < n * w then
    have := word_lt h
    .ok ⟨s.words.set (p / w) (s.words[p / w] &&& ~~~bit p)⟩
  else .error .outOfBounds

def check (s : Bitset w n) (p : Nat) : Checked Bool :=
  if h : p < n * w then
    have := word_lt h
    .ok (s.words[p / w] &&& bit p != 0)
  else .error .outOfBounds

/-- The lowest position that is not set: the lowest clear bit of the first word that has one. -/
def firstEmpty (s : Bitset w n) : Option Nat :=
  s.words.toList.zipIdx.findSome? fun (word, i) =>
    if word = BitVec.allOnes w then none else some (i * w + (~~~word).ctz.toNat)

def isEmpty (s : Bitset w n) : Bool :=
  s.words.all (· == 0)

def size (s : Bitset w n) : Nat :=
  s.words.toList.foldl (fun total word => total + word.cpop.toNat) 0

end Bitset

end AdaptiveRadix
