import Senko.Proto.Parser

/-!
# Senko — the RESP serializer (`senko-proto/src/serializer.rs`)

What is written for a frame, and how long it is said to be. `ryu` prints a float.
-/

namespace Senko.Resp

open List

/-! ## Writing -/

def writeSimpleString (value : Bytes) : Bytes := 0x2b :: (value ++ crlf)

def writeError (value : Bytes) : Bytes := 0x2d :: (value ++ crlf)

def writeInteger (value : Int) : Bytes := 0x3a :: (printI64 value ++ crlf)

/-- A first byte, a length and a line break. -/
def writeHeader (lead : UInt8) (len : Nat) : Bytes := lead :: (toDecimal len ++ crlf)

def writeBulkString (value : Bytes) : Bytes := writeHeader 0x24 value.length ++ (value ++ crlf)

def writeNull : Bytes := 0x5f :: crlf

def writeArrayHeader (len : Nat) : Bytes := writeHeader 0x2a len

def writeRawMapHeader (len : Nat) : Bytes := writeHeader 0x25 len

def writeNilBulk : Bytes := 0x24 :: 0x2d :: 0x31 :: crlf

def AggregateKind.lead : AggregateKind → UInt8
  | .array => 0x2a
  | .map => 0x25
  | .set => 0x7e
  | .push => 0x3e

def writeAggregate (aggregate : Aggregate) : Bytes :=
  match aggregate.encoding with
  | .resp => writeHeader aggregate.kind.lead aggregate.len ++ aggregate.data
  | .inline => aggregate.data ++ crlf

def writeFrame (ryu : F64 → Bytes) : Frame → Bytes
  | .simpleString value => writeSimpleString value
  | .simpleError value => writeError value
  | .integer value => writeInteger value
  | .bulkString value => writeBulkString value
  | .array aggregate | .map aggregate | .set aggregate | .push aggregate => writeAggregate aggregate
  | .null => writeNull
  | .boolean value => 0x23 :: (if value then 0x74 else 0x66) :: crlf
  | .double value => 0x2c :: (ryu value ++ crlf)
  | .bigNumber value => 0x28 :: (value ++ crlf)
  | .blobError value => writeHeader 0x21 value.length ++ (value ++ crlf)
  | .verbatimString encoding data =>
    writeHeader 0x3d (encoding.length + 1 + data.length) ++ (encoding ++ 0x3a :: data ++ crlf)

/-- `RespSerializer::serialize`; the capacity it reserves is `encodedLen`. -/
def serialize (ryu : F64 → Bytes) (frame : Frame) : Bytes := writeFrame ryu frame

/-! ## Lengths -/

/-- The number of digits, one division after the other. -/
def decimalLen (value : Nat) : Nat :=
  if 10 ≤ value then decimalLen (value / 10) + 1 else 1
termination_by value
decreasing_by omega

def integerWireLen (value : Int) : Nat :=
  1 + (if value = -1 then 2
    else if value < 0 then 1 + decimalLen value.natAbs
    else decimalLen value.toNat) + 2

def aggregateWireLen (aggregate : Aggregate) : Nat :=
  match aggregate.encoding with
  | .resp => 1 + decimalLen aggregate.len + 2 + aggregate.data.length
  | .inline => aggregate.data.length + 2

def encodedLen (ryu : F64 → Bytes) : Frame → Nat
  | .simpleString value | .simpleError value | .bigNumber value => 1 + value.length + 2
  | .integer value => integerWireLen value
  | .bulkString value | .blobError value => 1 + decimalLen value.length + 2 + value.length + 2
  | .array aggregate | .map aggregate | .set aggregate | .push aggregate =>
    aggregateWireLen aggregate
  | .null => 3
  | .boolean _ => 4
  | .double value => 1 + (ryu value).length + 2
  | .verbatimString encoding data =>
    let payloadLen := encoding.length + 1 + data.length
    1 + decimalLen payloadLen + 2 + payloadLen + 2

theorem length_toDecimal (n : Nat) : (toDecimal n).length = decimalLen n := by
  induction n using Nat.strong_induction_on with
  | _ n ih =>
    rw [decimalLen]
    split
    · rename_i hle
      have hdiv : n / 10 ≠ 0 := by omega
      have hrest := ih (n / 10) (by omega)
      rw [toDecimal, if_neg hdiv] at hrest
      rw [toDecimal, if_neg (by omega), ← hrest]
      simp only [length_reverse, length_map]
      rw [Nat.digits_def' (by norm_num) (by omega), length_cons]
    · rename_i hlt
      by_cases hzero : n = 0
      · rw [hzero]
        rfl
      · rw [toDecimal, if_neg hzero, Nat.digits_of_lt 10 n hzero (by omega)]
        rfl

theorem length_crlf : crlf.length = 2 := rfl

theorem length_writeHeader (lead : UInt8) (len : Nat) :
    (writeHeader lead len).length = 1 + decimalLen len + 2 := by
  rw [writeHeader, length_cons, length_append, length_toDecimal, length_crlf]
  omega

/-- **The reserved capacity is what is written**, whatever the frame. -/
theorem length_serialize (ryu : F64 → Bytes) (frame : Frame) :
    (serialize ryu frame).length = encodedLen ryu frame := by
  have haggregate : ∀ aggregate,
      (writeAggregate aggregate).length = aggregateWireLen aggregate := by
    intro aggregate
    unfold writeAggregate aggregateWireLen
    split
    · rw [length_append, length_writeHeader]
    · rw [length_append, length_crlf]
  unfold serialize
  cases frame with
  | array aggregate | map aggregate | set aggregate | push aggregate => exact haggregate aggregate
  | integer value =>
    have hnat : ∀ {n : Nat}, (toDecimal n).length = decimalLen n := length_toDecimal _
    show (0x3a :: (printI64 value ++ crlf)).length = integerWireLen value
    rw [length_cons, length_append, length_crlf, integerWireLen, printI64]
    by_cases hone : value = -1
    · subst hone
      rfl
    rw [if_neg hone]
    split
    · rw [length_cons, hnat]
      omega
    · rw [hnat]
      omega
  | boolean value => cases value <;> rfl
  | null => rfl
  | _ =>
    simp only [writeFrame, encodedLen, writeSimpleString, writeError, writeBulkString, length_cons,
      length_append, length_writeHeader, length_crlf]
    omega

end Senko.Resp
