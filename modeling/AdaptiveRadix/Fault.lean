/-!
Broken promises of a caller. An operation that would leave an array, a counter or its own contract
answers a fault in place of a value, and so does one whose assertion fails, so that "no fault
arises" is a statement about the definitions.
-/

namespace AdaptiveRadix

inductive Fault where
  | noSpaceLeft
  | outOfBounds
  | tooManyChildren
  | childOfLeaf
  | growthOfLargest
  | hitsOfInner
  | counterOverflow
  | counterUnderflow
  | assertionFailed
  deriving DecidableEq, Repr

/-- Only a full storage is reported by its text. -/
def Fault.message? : Fault → Option String
  | .noSpaceLeft => some "add_child: no space left"
  | _ => none

abbrev Checked := Except Fault

namespace Checked

def read {β : Type} (xs : Array β) (i : Nat) : Checked β :=
  match xs[i]? with
  | some x => .ok x
  | none => .error .outOfBounds

def write {β : Type} (xs : Array β) (i : Nat) (x : β) : Checked (Array β) :=
  if h : i < xs.size then .ok (xs.set i x) else .error .outOfBounds

/-- Counts one more in a counter whose largest value is `limit`. -/
def increment (limit n : Nat) : Checked Nat :=
  if n < limit then .ok (n + 1) else .error .counterOverflow

def decrement : Nat → Checked Nat
  | 0 => .error .counterUnderflow
  | n + 1 => .ok n

def assert (p : Prop) [Decidable p] : Checked Unit :=
  if p then .ok () else .error .assertionFailed

theorem read_eq_ok {β : Type} {xs : Array β} {i : Nat} (h : i < xs.size) :
    read xs i = .ok xs[i] := by
  simp [read, h]

theorem getElem?_of_read {β : Type} {xs : Array β} {i : Nat} {x : β} (h : read xs i = .ok x) :
    xs[i]? = some x := by
  unfold read at h
  split at h
  · next here => exact here.trans (congrArg some (Except.ok.inj h))
  · contradiction

theorem write_eq_ok {β : Type} {xs : Array β} {i : Nat} (h : i < xs.size) (x : β) :
    write xs i x = .ok (xs.set i x) := by
  simp [write, h]

theorem increment_eq_ok {limit n : Nat} (h : n < limit) : increment limit n = .ok (n + 1) := by
  simp [increment, h]

theorem decrement_eq_ok {n : Nat} (h : 0 < n) : decrement n = .ok (n - 1) := by
  cases n with
  | zero => omega
  | succ n => rfl

theorem assert_eq_ok {p : Prop} [Decidable p] (h : p) : assert p = .ok () :=
  if_pos h

theorem toNat_add {a b : UInt64} (fits : a.toNat + b.toNat < UInt64.size) :
    (a + b).toNat = a.toNat + b.toNat :=
  (UInt64.toNat_add a b).trans (Nat.mod_eq_of_lt fits)

end Checked

end AdaptiveRadix
