import Senko.Lib.Decoder
import Senko.Store.Command

/-!
# Senko — `DUMP` and `RESTORE` payloads (`commands/generic/migrate.rs`)

A payload is a type tag, the value in a format of its own, a version and a checksum. All containers
are written alike, as their length and their elements, and are read back element by element through
the operation that adds one.

The checksum is the CRC library's, and `isListpack` tells whether a hash still keeps its listpack
copy, which the model leaves out; it only chooses between two tags that are read alike. The outer
`Option` of a writer is `none` where an iterator would panic.
-/

namespace Senko

def rdbVersion : Nat := 10
def rdbTypeString : UInt8 := 0
def rdbTypeListQuicklist2 : UInt8 := 18
def rdbTypeHashListpack : UInt8 := 16
def rdbTypeHash : UInt8 := 4
def rdbTypeSetIntset : UInt8 := 11
def rdbTypeSetListpack : UInt8 := 20
def rdbTypeSet : UInt8 := 2
def rdbTypeZsetListpack : UInt8 := 17
def rdbTypeZset2 : UInt8 := 5
def rdbTypeStreamListpacks : UInt8 := 19

/-! ## Writing -/

def writeLen (len : Nat) : Bytes := toLeBytes 8 len

def writeBlob (value : Bytes) : Bytes := writeLen value.length ++ value

/-- A length and the elements, each written by `write`. -/
def writeItems {α : Type} (write : α → Bytes) (len : Nat) (items : List α) : Bytes :=
  writeLen len ++ items.flatMap write

def writeHashField (std : FloatStd) (field : CompactString × HashField SenkoValue) : Bytes :=
  writeBlob field.1.bytes ++ writeBlob (field.2.value.asBytes std)

def writeZsetEntry (entry : ZSetEntry) : Bytes :=
  writeBlob entry.member.bytes ++ entry.score.toLeBytes

def writeStreamEntry (entry : StreamId × StreamFields) : Bytes :=
  toLeBytes 8 entry.1.ms ++ toLeBytes 8 entry.1.seq ++
    writeItems (fun field => writeBlob field.1 ++ writeBlob field.2) entry.2.length entry.2

section Write

variable (env : Env) (checksum : Bytes → UInt64) (isListpack : HashObject SenkoValue → Bool)

def dumpString (value : SenkoValue) : Bytes := writeBlob (value.asBytes env.std)

def setTag : SetEncoding → UInt8
  | .intset _ => rdbTypeSetIntset
  | .listpack _ => rdbTypeSetListpack
  | .hashtable _ => rdbTypeSet

def zsetTag : ZSetEncoding → UInt8
  | .listpack _ => rdbTypeZsetListpack
  | .bpTree _ _ => rdbTypeZset2

def writeValue (now : Nat) (value : SenkoValue) : Option Bytes :=
  match value with
  | .raw _ | .int _ | .float _ | .object _ _ => some (rdbTypeString :: dumpString env value)
  | .list list => do
    let items ← list.iter
    some (rdbTypeListQuicklist2 :: writeItems writeBlob list.len items)
  | .hash hash =>
    let entries := hash.iterLive now
    some ((if isListpack hash then rdbTypeHashListpack else rdbTypeHash) ::
      writeItems (writeHashField env.std) entries.length entries)
  | .set set => some (setTag set.inner :: writeItems writeBlob set.iter.length set.iter)
  | .zset zset => do
    let entries ← zset.rangeByRank env.std 0 (-1) false none
    some (zsetTag zset.inner :: writeItems writeZsetEntry entries.length entries)
  | .stream stream =>
    let entries := stream.tree.range .zero .max none
    some (rdbTypeStreamListpacks :: writeItems writeStreamEntry entries.length entries)

def dumpValue (now : Nat) (value : SenkoValue) : Option Bytes := do
  let out ← writeValue env isListpack now value
  let out := out ++ toLeBytes 2 rdbVersion
  some (out ++ toLeBytes 8 (checksum out).toNat)

end Write

/-! ## Reading -/

open Decoder

def invalidDumpError : SenkoError := .protocol "ERR DUMP payload version or checksum are wrong"

def readLen : Decoder SenkoError Nat := do
  let raw ← take invalidDumpError 8
  pure (fromLeBytes raw)

def readBlob : Decoder SenkoError Bytes := do
  let len ← readLen
  take invalidDumpError len

/-- A length, and as many rounds of `step`. -/
def readItems {σ : Type} (step : σ → Decoder SenkoError σ) (s : σ) : Decoder SenkoError σ := do
  let len ← readLen
  iterate step len s

def readLenPeek (data : Bytes) (cursor : Nat) : Option Nat :=
  (getRange data cursor (cursor + 8)).map fromLeBytes

/-- The rounds of `looks_like_list` that are left. -/
def looksLikeListLoop (data : Bytes) : Nat → Nat → Bool
  | 0, _ => true
  | left + 1, offset =>
    match readLenPeek data offset with
    | none => false
    | some itemLen =>
      let offset := saturatingAdd (saturatingAdd offset 8) itemLen
      if data.length < offset then false else looksLikeListLoop data left offset

def looksLikeList (data : Bytes) (cursor : Nat) : Bool :=
  match readLenPeek data cursor with
  | none => true
  | some len => looksLikeListLoop data len (cursor + 8)

def readListItem (list : QuickList) : Decoder SenkoError QuickList := do
  let value ← readBlob
  unwrap (list.pushBack value)

def readStreamField (fields : StreamFields) : Decoder SenkoError StreamFields := do
  let field ← readBlob
  let value ← readBlob
  pure (fields ++ [(field, value)])

def readStreamEntry (stream : StreamObject) : Decoder SenkoError StreamObject := do
  let ms ← take invalidDumpError 8
  let seq ← take invalidDumpError 8
  let fields ← readItems readStreamField []
  -- an id that is refused is skipped
  let tree := stream.tree.insertWithMode ⟨fromLeBytes ms, fromLeBytes seq⟩ fields .keepRef
  pure { stream with tree := tree.getD stream.tree }

section Read

variable (env : Env) (checksum : Bytes → UInt64)

def readHashField (hash : HashObject SenkoValue) : Decoder SenkoError (HashObject SenkoValue) := do
  let field ← readBlob
  let value ← readBlob
  let field ← ofExcept (parseKey field)
  pure (hash.set env.fieldPlace field (.encodeAttempt env.std value) none).1

def readSetMember (set : SetObject) : Decoder SenkoError SetObject := do
  let member ← readBlob
  pure (set.add env.memberPlace member).1

def readZsetEntry (zset : ZSetObject) : Decoder SenkoError ZSetObject := do
  let member ← readBlob
  let score ← take invalidDumpError 8
  let member ← ofExcept (parseKey member)
  let added ← unwrap (zset.add env.std (F64.fromLeBytes score) member {})
  pure added.1

def readList : Decoder SenkoError SenkoValue := do
  let list ← readItems readListItem QuickList.default
  pure (.list list)

def readHash : Decoder SenkoError SenkoValue := do
  let hash ← readItems (readHashField env) (.new env.fieldPlace)
  pure (.hash hash)

def readSet : Decoder SenkoError SenkoValue := do
  let set ← readItems (readSetMember env) .new
  pure (.set set)

def readZset : Decoder SenkoError SenkoValue := do
  let zset ← readItems (readZsetEntry env) .new
  pure (.zset zset)

def readStream : Decoder SenkoError SenkoValue := do
  let stream ← readItems readStreamEntry {}
  pure (.stream stream)

def readString : Decoder SenkoError SenkoValue := do
  let blob ← readBlob
  pure (.encodeAttempt env.std blob)

/-- What follows the tag. -/
def readTagged (tag : UInt8) : Decoder SenkoError SenkoValue :=
  if tag = rdbTypeString then readString env
  else if tag = rdbTypeStreamListpacks then do
    let list ← ahead looksLikeList
    if list then readList else readStream
  else if tag = rdbTypeListQuicklist2 then readList
  else if tag = rdbTypeHashListpack ∨ tag = rdbTypeHash then readHash env
  else if tag = rdbTypeSetIntset ∨ tag = rdbTypeSetListpack ∨ tag = rdbTypeSet then readSet env
  else if tag = rdbTypeZsetListpack ∨ tag = rdbTypeZset2 then readZset env
  else ofExcept (.error invalidDumpError)

def readValue : Decoder SenkoError SenkoValue := do
  let tag ← take invalidDumpError 1
  readTagged env (tag.headD 0)

def restoreValue (data : Bytes) : Option (Except SenkoError SenkoValue) :=
  if data.length < 11 then some (.error invalidDumpError)
  else
    let checksumOffset := data.length - 8
    let versionOffset := checksumOffset - 2
    let body := data.take versionOffset
    let version := fromLeBytes ((data.take checksumOffset).drop versionOffset)
    if rdbVersion < version then some (.error invalidDumpError)
    else if fromLeBytes (data.drop checksumOffset) ≠
      (checksum (data.take checksumOffset)).toNat then
      some (.error invalidDumpError)
    else (readValue env body 0).map fun result => result.map Prod.fst

end Read

end Senko
