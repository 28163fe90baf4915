import Senko.Core.QuickList
import Senko.Core.Set
import Senko.Core.Stream
import Senko.Core.ZSet.Object

/-!
# Senko — values

`SenkoValue` and the encoding of strings. `encode_attempt` keeps a string that parses as an integer
or as a float in parsed form, and `as_bytes` prints it again, so a string comes back as it was
written exactly if printing restores its spelling.
-/

namespace Senko

/-- An ASCII literal. -/
def ascii (s : String) : Bytes := s.toList.map fun c => UInt8.ofNat c.toNat

/-! ## Hash objects -/

structure HashField (V : Type) where
  value : V
  expiresAt : Option Nat := none

/-- `HashObject`, without the listpack copy of its fields that nothing reads back. -/
structure HashObject (V : Type) where
  fields : HashTable (CompactString × HashField V)
  fieldCount : Nat := 0
  hasFieldExpiry : Bool := false

/-! ## Values -/

/-- The object types whose contents the model does not look into. -/
inductive ObjectKind where
  | json
  | vectorSet
  | bloomFilter
  | cuckooFilter
  | countMinSketch
  | topK
  | tDigest
deriving DecidableEq, Repr

inductive SenkoValue where
  | raw (bytes : Bytes)
  | int (value : Int)
  | float (value : F64)
  | hash (hash : HashObject SenkoValue)
  | list (list : QuickList)
  | set (set : SetObject)
  | stream (stream : StreamObject)
  | zset (zset : ZSetObject)
  /-- For JSON, `contents` is the rendered text. -/
  | object (kind : ObjectKind) (contents : Bytes)

namespace SenkoValue

/-- The name of the type, as errors and `TYPE` give it. -/
def typeName : SenkoValue → String
  | raw _ | int _ | float _ => "string"
  | hash _ => "hash"
  | list _ => "list"
  | set _ => "set"
  | stream _ => "stream"
  | zset _ => "zset"
  | object .json _ => "json"
  | object .vectorSet _ => "vectorset"
  | object .bloomFilter _ => "MBbloom--"
  | object .cuckooFilter _ => "cuckooFilter"
  | object .countMinSketch _ => "CMSk--"
  | object .topK _ => "topk"
  | object .tDigest _ => "TDIS-TYPE"

section Std

variable (std : FloatStd)

def encodeAttempt (bytes : Bytes) : SenkoValue :=
  if validUtf8 bytes then
    match parseI64 bytes with
    | some value => .int value
    | none =>
      match std.parse bytes with
      | some value => .float value
      | none => .raw bytes
  else .raw bytes

def asBytes : SenkoValue → Bytes
  | raw bytes => bytes
  | int value => printI64 value
  | float value => std.print value
  | hash _ => ascii "[hash]"
  | list _ => ascii "[list]"
  | set _ => ascii "[set]"
  | stream _ => ascii "[stream]"
  | zset _ => ascii "[zset]"
  | object .json contents => contents
  | object .vectorSet _ => ascii "[vectorset]"
  | object .bloomFilter _ => ascii "[bloom]"
  | object .cuckooFilter _ => ascii "[cuckoo]"
  | object .countMinSketch _ => ascii "[cms]"
  | object .topK _ => ascii "[topk]"
  | object .tDigest _ => ascii "[tdigest]"

/-- The spelling survives the encoding: the bytes are no number, or a number in the spelling that
printing gives it. -/
def SpelledAsPrinted (bytes : Bytes) : Prop :=
  validUtf8 bytes = true →
    match parseI64 bytes with
    | some _ => plainSpelling bytes = true
    | none => ∀ x, std.parse bytes = some x → std.print x = bytes

/-- **A string is read back as it was written** if and only if it is spelled as it is printed. -/
theorem asBytes_encodeAttempt (bytes : Bytes) :
    asBytes std (encodeAttempt std bytes) = bytes ↔ SpelledAsPrinted std bytes := by
  unfold encodeAttempt SpelledAsPrinted
  split
  · rename_i hutf8
    simp only [hutf8, forall_const]
    cases hint : parseI64 bytes with
    | some i => exact printI64_of_parseI64 hint
    | none =>
      cases hfloat : std.parse bytes with
      | some | none => simp [asBytes]
  · rename_i hutf8
    simp [hutf8, asBytes]

/-- An encoded string is a string. -/
theorem typeName_encodeAttempt (bytes : Bytes) : (encodeAttempt std bytes).typeName = "string" := by
  unfold encodeAttempt
  split
  · split
    · rfl
    · split <;> rfl
  · rfl

end Std

end SenkoValue

end Senko
