/-!
Byte strings and the three ways in which they are written: hexadecimal pairs between blanks,
hexadecimal pairs between commas, and decimal numbers between commas.
-/

namespace AdaptiveRadix

abbrev Bytes := List UInt8

namespace Bytes

def hexDigit (n : Nat) : Char :=
  Nat.digitChar (n % 16)

/-- Two lower-case hexadecimal digits. -/
def hexPair (b : UInt8) : String :=
  String.ofList [hexDigit (b.toNat / 16), hexDigit b.toNat]

def decimal (b : UInt8) : String :=
  Nat.repr b.toNat

def bracketed (separator : String) (digits : UInt8 → String) (bytes : Bytes) : String :=
  "[" ++ separator.intercalate (bytes.map digits) ++ "]"

/-- The form `[61 0f]` of stems. -/
def renderStem : Bytes → String :=
  bracketed " " hexPair

/-- The form `[61, 0f]` of paths. -/
def renderPath : Bytes → String :=
  bracketed ", " hexPair

/-- The form `[97, 15]` of a list of numbers. -/
def renderDecimal : Bytes → String :=
  bracketed ", " decimal

def all : List UInt8 :=
  (List.range 256).map UInt8.ofNat

theorem mem_all (b : UInt8) : b ∈ all := by
  simp only [all, List.mem_map, List.mem_range]
  exact ⟨b.toNat, b.toNat_lt, UInt8.ofNat_toNat⟩

theorem pairwise_all : all.Pairwise (· < ·) := by
  rw [all, List.pairwise_map]
  refine List.pairwise_lt_range.imp_of_mem fun {a b} ha hb hab => ?_
  rw [List.mem_range] at ha hb
  rw [UInt8.lt_iff_toNat_lt, UInt8.toNat_ofNat_of_lt' ha, UInt8.toNat_ofNat_of_lt' hb]
  exact hab

end Bytes

end AdaptiveRadix
