import Senko.Core.Float
import Senko.Lib.Decimal

/-!
# Senko — scores as text

How a score is read from an argument and written to a reply. The conversions themselves are those of
`fast_float` and `ryu`; around them the commands accept the two infinities by name, refuse NaN, and
write out what `ryu` gives in scientific notation.
-/

namespace Senko

/-- The float arithmetic of the standard library and the text conversions of `fast_float` and `ryu`
that the commands use. Nothing is assumed of them. -/
structure FloatMath where
  /-- `fast_float::parse` -/
  fastParse : Bytes → Option F64
  /-- `ryu::Buffer::format_finite` -/
  formatFinite : F64 → Bytes
  add : F64 → F64 → F64
  sub : F64 → F64 → F64
  mul : F64 → F64 → F64
  div : F64 → F64 → F64
  sin : F64 → F64
  cos : F64 → F64
  asin : F64 → F64
  sqrt : F64 → F64
  toRadians : F64 → F64
  /-- An integer `as f64`. -/
  ofNat : Nat → F64
  /-- `round() as u64` -/
  roundToU64 : F64 → Nat

/-- Arithmetic that knows no number but zero, and decimal digits as the only syntax of a float. -/
def FloatMath.plain : FloatMath where
  fastParse bytes := (parseDigits bytes).map fun n => ⟨UInt64.ofNat n⟩
  formatFinite x := toDecimal x.bits.toNat
  add x _ := x
  sub x _ := x
  mul x _ := x
  div x _ := x
  sin x := x
  cos x := x
  asin x := x
  sqrt x := x
  toRadians x := x
  ofNat n := ⟨UInt64.ofNat n⟩
  roundToU64 x := x.bits.toNat

namespace F64

/-- `f64::INFINITY`. -/
def infinity : F64 := ⟨0x7FF0000000000000⟩

/-- `f64::NEG_INFINITY`. -/
def negInfinity : F64 := ⟨0xFFF0000000000000⟩

def isSignNegative (x : F64) : Bool := decide (2 ^ 63 ≤ x.bits.toNat)

def isInfinite (x : F64) : Bool := x.magnitude == 0x7FF0000000000000

end F64

/-! ## Replies -/

/-- `split_once`: what is before and after the first byte of a kind. -/
def splitOnce (p : UInt8 → Bool) (bytes : Bytes) : Option (Bytes × Bytes) :=
  if bytes.any p then
    some (bytes.takeWhile fun b => !p b, (bytes.dropWhile fun b => !p b).drop 1)
  else none

/-- Zeros at the end of a fraction are dropped, and the point if nothing follows it. -/
def trimFraction (text : Bytes) : Bytes :=
  if text.contains 0x2e then
    let text := (text.reverse.dropWhile (· = 0x30)).reverse
    if text.getLast? = some 0x2e then text.dropLast else text
  else text

/-- `-0` is written `0`. -/
def withoutNegativeZero (text : Bytes) : Bytes := if text = [0x2d, 0x30] then [0x30] else text

def trimDecimal (raw : Bytes) : Bytes := withoutNegativeZero (trimFraction raw)

def isExponentMark (b : UInt8) : Bool := b = 0x65 || b = 0x45

/-- `str::parse::<i32>().unwrap_or(0)`. -/
def parseExponent (raw : Bytes) : Int :=
  ((parseI64 raw).filter fun e => decide (-2 ^ 31 ≤ e ∧ e < 2 ^ 31)).getD 0

def expandScientific (raw : Bytes) : Bytes :=
  let negative := raw.head? = some 0x2d
  let body := if negative then raw.drop 1 else raw
  let (mantissa, exponentRaw) := (splitOnce isExponentMark body).getD (body, [0x30])
  let exponent := parseExponent exponentRaw
  let (intPart, fracPart) := (splitOnce (· = 0x2e) mantissa).getD (mantissa, [])
  let digits := intPart ++ fracPart
  let newPoint : Int := intPart.length + exponent
  let out :=
    if newPoint ≤ 0 then [0x30, 0x2e] ++ List.replicate (-newPoint).toNat 0x30 ++ digits
    else if digits.length ≤ newPoint then
      digits ++ List.replicate (newPoint.toNat - digits.length) 0x30
    else digits.take newPoint.toNat ++ [0x2e] ++ digits.drop newPoint.toNat
  withoutNegativeZero (trimFraction ((if negative then [0x2d] else []) ++ out))

section Math

variable (math : FloatMath)

/-- The text of `formatted_score_value`. -/
def formattedScore (score : F64) : Bytes :=
  if score.isInfinite then
    if score.isSignNegative then [0x2d, 0x69, 0x6e, 0x66] else [0x2b, 0x69, 0x6e, 0x66]
  else
    let raw := math.formatFinite score
    if raw.any isExponentMark then expandScientific raw else trimDecimal raw

end Math

end Senko
