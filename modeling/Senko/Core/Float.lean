import Senko.Lib.Bytes

/-!
# Senko — IEEE 754 binary64 scores

An `f64` by its bits. Comparisons are IEEE's: false as soon as one side is NaN, and the two zeros
are equal. Away from NaN they are the order of `F64.key`, the sign-magnitude reading of the bits
(`F64.lt_iff`, `F64.eq_iff`). Arithmetic, parsing and printing are the standard
library's; where the program uses them they are parameters.
-/

namespace Senko

structure F64 where
  bits : UInt64
deriving DecidableEq, Repr

namespace F64

/-- The bits without the sign. -/
def magnitude (x : F64) : Nat := x.bits.toNat % 2 ^ 63

/-- All exponent bits set and a nonzero fraction. -/
def isNan (x : F64) : Bool := decide (0x7FF0000000000000 < x.magnitude)

/-- The sign-magnitude value of the bits: the order of the non-NaN floats, with `-0 = +0`. -/
def key (x : F64) : Int := if x.bits.toNat < 2 ^ 63 then x.magnitude else -x.magnitude

/-- `x < y`. -/
def lt (x y : F64) : Bool := !x.isNan && !y.isNan && decide (x.key < y.key)

/-- `x <= y`. -/
def le (x y : F64) : Bool := !x.isNan && !y.isNan && decide (x.key ≤ y.key)

/-- `x == y`. -/
def eq (x y : F64) : Bool := !x.isNan && !y.isNan && decide (x.key = y.key)

/-- `0.0`. -/
def zero : F64 := ⟨0⟩

/-- `f64::NAN`. -/
def nan : F64 := ⟨0x7FF8000000000000⟩

/-- `f64::to_le_bytes`. -/
def toLeBytes (x : F64) : Bytes := Senko.toLeBytes 8 x.bits.toNat

/-- `f64::from_le_bytes`. -/
def fromLeBytes (bs : Bytes) : F64 := ⟨UInt64.ofNat (Senko.fromLeBytes bs)⟩

variable {x y : F64}

theorem lt_iff (hx : x.isNan = false) (hy : y.isNan = false) : x.lt y = true ↔ x.key < y.key := by
  simp [lt, hx, hy]

theorem eq_iff (hx : x.isNan = false) (hy : y.isNan = false) : x.eq y = true ↔ x.key = y.key := by
  simp [eq, hx, hy]

@[simp] theorem length_toLeBytes (x : F64) : x.toLeBytes.length = 8 := Senko.length_toLeBytes 8 _

/-- A score survives its eight bytes. -/
@[simp] theorem fromLeBytes_toLeBytes (x : F64) : fromLeBytes x.toLeBytes = x := by
  have hlt : x.bits.toNat < 256 ^ 8 := x.bits.toNat_lt
  rw [fromLeBytes, toLeBytes, fromLeBytes_toLeBytes_of_lt hlt, UInt64.ofNat_toNat]

end F64

/-- The float arithmetic and text conversions of the standard library that the program uses.
Nothing is assumed of them. -/
structure FloatStd where
  add : F64 → F64 → F64
  /-- `str::parse::<f64>` -/
  parse : Bytes → Option F64
  /-- `f64::to_string` -/
  print : F64 → Bytes

end Senko
