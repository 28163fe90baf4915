import Senko.Lib.Ring
import Senko.Store.Command
import Senko.Proto.Parser

/-!
# Senko — the replication backlog (`senko-net/src/cluster/replication.rs`)

A shard keeps the end of its command log in a ring of bytes. A record is the length of its payload,
as a big-endian `u32`, and the payload. The offsets `tail` and `head` are those of the oldest
record that is kept and of the next one; they count bytes from the start of the log and are `u64`
values, so their sums wrap around.
-/

namespace Senko.Cluster

/-- A `SenkoError` comes from the parser or from a command. -/
inductive ReplError where
  | offsetTooOld (requested oldest : Nat)
  | noData (requested head : Nat)
  | entryTooLarge (len capacity : Nat)
  | invalidShard (shard : Nat)
  | invalidShardMask (mask : BitVec 64)
  | truncated
  | trailingBytes (count : Nat)
  | snapshotDecode
  | protocol (message : String)
  | store (error : Resp.ParseError ⊕ SenkoError)
deriving DecidableEq

structure ReplRecord where
  startOffset : Nat
  endOffset : Nat
  payload : Bytes
deriving DecidableEq

structure ReplBuffer where
  capacity : Nat
  data : Vector UInt8 capacity
  head : Nat
  tail : Nat
  baseOffset : Nat
  roomy : 8 ≤ capacity

namespace ReplBuffer

instance (b : ReplBuffer) : NeZero b.capacity := ⟨by have := b.roomy; omega⟩

def withCapacity (capacity : Nat) : ReplBuffer where
  capacity := max capacity 8
  data := Vector.replicate (max capacity 8) 0
  head := 0
  tail := 0
  baseOffset := 0
  roomy := le_max_right capacity 8

def writeBytes (b : ReplBuffer) (offset : Nat) (bytes : Bytes) : ReplBuffer :=
  { b with
    data := bytes.zipIdx.foldl (fun data (byte, index) =>
      Ring.put data (wrappingAdd (offset - b.baseOffset) index) byte) b.data }

def readBytes (b : ReplBuffer) (offset len : Nat) : Bytes :=
  (List.range len).map fun index => Ring.get b.data (wrappingAdd (offset - b.baseOffset) index)

def byteAt (b : ReplBuffer) (offset : Nat) : Option UInt8 :=
  if offset < b.baseOffset then none else some (Ring.get b.data (offset - b.baseOffset))

def readU32 (b : ReplBuffer) (offset : Nat) : Except ReplError Nat :=
  match (List.range 4).mapM fun index => b.byteAt (wrappingAdd offset index) with
  | some bytes => .ok (fromBeBytes bytes)
  | none => .error .truncated

def entryTotalLenAt (b : ReplBuffer) (offset : Nat) : Except ReplError Nat :=
  if b.head < wrappingAdd offset 4 then .error (.noData offset b.head)
  else (b.readU32 offset).map (4 + ·)

/-- The loop that gives up records until an entry fits. The offset grows in every round or is
saturated, so a loop that has not ended after `2 ^ 64` rounds does not end. -/
def evict (b : ReplBuffer) (totalLen : Nat) : Nat → Nat → Option (Except ReplError Nat)
  | 0, _ => none
  | fuel + 1, tail =>
    if wrappingAdd tail b.capacity < wrappingAdd b.head totalLen then
      match b.entryTotalLenAt tail with
      | .error e => some (.error e)
      | .ok entryLen => evict b totalLen fuel (saturatingAdd tail entryLen)
    else some (.ok tail)

/-- The bytes of an entry, at the head. -/
def writeEntry (b : ReplBuffer) (cmdBytes : Bytes) : ReplBuffer :=
  -- the cast of the length to `u32` keeps its low four bytes
  (b.writeBytes b.head (toBeBytes 4 cmdBytes.length)).writeBytes (wrappingAdd b.head 4) cmdBytes

/-- The entry is written and the offsets are stored. -/
def pushEntry (b : ReplBuffer) (cmdBytes : Bytes) (tail : Nat) : ReplBuffer :=
  { b.writeEntry cmdBytes with
    tail := tail
    head := wrappingAdd b.head (4 + cmdBytes.length) }

def tryAppend (b : ReplBuffer) (cmdBytes : Bytes) : Option (Except ReplError Nat × ReplBuffer) :=
  let totalLen := 4 + cmdBytes.length
  if b.capacity < totalLen then some (.error (.entryTooLarge totalLen b.capacity), b)
  else
    match b.evict totalLen (2 ^ 64) b.tail with
    | none => none
    | some (.error e) => some (.error e, b)
    | some (.ok tail) => some (.ok (wrappingAdd b.head totalLen), b.pushEntry cmdBytes tail)

/-- The bytes that are pushed to `out`. -/
def readFrom (b : ReplBuffer) (offset : Nat) : Except ReplError Bytes :=
  if offset < b.tail then .error (.offsetTooOld offset b.tail)
  else if b.head ≤ offset then .error (.noData offset b.head)
  else if b.head < wrappingAdd offset 4 then .error (.noData offset b.head)
  else
    match b.readU32 offset with
    | .error e => .error e
    | .ok payloadLen =>
      let totalLen := 4 + payloadLen
      if b.head < wrappingAdd offset totalLen then .error (.noData offset b.head)
      else .ok (b.readBytes offset totalLen)

def readRecord (b : ReplBuffer) (offset : Nat) : Except ReplError ReplRecord :=
  match b.readFrom offset with
  | .error e => .error e
  | .ok raw =>
    let payloadLen := fromBeBytes (raw.take 4)
    .ok ⟨offset, wrappingAdd offset (4 + payloadLen), raw.drop 4⟩

end ReplBuffer

end Senko.Cluster
