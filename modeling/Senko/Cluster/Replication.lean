import Senko.Cluster.ReplBuffer
import Senko.Cluster.Node
import Senko.Lib.Decoder

/-!
# Senko — replication (`senko-net/src/cluster/replication.rs`)

The primary keeps a backlog for every shard and sends its records as frames; a replica applies
frames to its own stores and remembers one offset, the greatest that it has seen. What commands
and snapshot records do to a store is a parameter (`StoreOps`): the primary and the replica run
them on stores of their own, and replication does not look into a store.
-/

namespace Senko.Cluster

/-! ## Frames -/

inductive ReplHelloStatus where
  | ok
  | fullSync
  | wait
deriving DecidableEq, Repr

structure ReplHello where
  replicaId : NodeId
  replId : BitVec 128
  offset : Nat
  shardMask : BitVec 64

structure ReplHelloAck where
  status : ReplHelloStatus
  replId : BitVec 128
  offset : Nat
deriving DecidableEq

inductive ReplFrameType where
  | command
  | snapshot
  | snapshotEnd
  | ack
deriving DecidableEq, Repr

structure ReplFrame where
  frameType : ReplFrameType
  shard : Nat
  offset : Nat
  payload : Bytes
deriving DecidableEq

namespace ReplFrame

def command (shard offset : Nat) (payload : Bytes) : ReplFrame := ⟨.command, shard, offset, payload⟩

def ack (offset : Nat) : ReplFrame := ⟨.ack, 0, offset, []⟩

end ReplFrame

structure SnapshotRecord where
  key : CompactString
  dump : Bytes
  expiresAt : Option Nat
deriving DecidableEq

namespace SnapshotRecord

/-- `Cursor::take_u16`, `take_u32` and `take_u64`. -/
def takeWord (width : Nat) : Decoder ReplError Nat := do
  let bytes ← Decoder.take .truncated width
  pure (fromBeBytes bytes)

def takeVec (len : Nat) : Decoder ReplError Bytes := Decoder.take .truncated len

def ofUtf8 (bytes : Bytes) : Except ReplError CompactString :=
  if h : validUtf8 bytes then .ok ⟨bytes, h⟩ else .error .snapshotDecode

/-- The fields, without the check that nothing follows. -/
def decodeFields : Decoder ReplError SnapshotRecord := do
  let keyLen ← takeWord 4
  let keyBytes ← takeVec keyLen
  let key ← Decoder.ofExcept (ofUtf8 keyBytes)
  let hasExpiry ← takeWord 1
  let deadline ← takeWord 8
  let dumpLen ← takeWord 4
  let dump ← takeVec dumpLen
  pure ⟨key, dump, if hasExpiry ≠ 0 then some deadline else none⟩

def decode (bytes : Bytes) : Option (Except ReplError SnapshotRecord) :=
  match decodeFields bytes 0 with
  | none => none
  | some (.error e) => some (.error e)
  | some (.ok (record, cursor)) =>
    if cursor = bytes.length then some (.ok record)
    else some (.error (.trailingBytes (bytes.length - cursor)))

end SnapshotRecord

/-! ## The primary -/

structure ShardReplication where
  shard : Nat
  backlog : ReplBuffer
  snapshotInProgress : Bool
  snapshotDelta : List ReplFrame

namespace ShardReplication

def new (shard backlogSize : Nat) : ShardReplication where
  shard := shard
  backlog := .withCapacity backlogSize
  snapshotInProgress := false
  snapshotDelta := []

def nextFrame (s : ShardReplication) (offset : Nat) : Except ReplError ReplFrame :=
  match s.backlog.readRecord offset with
  | .error e => .error e
  | .ok record => .ok (.command s.shard record.endOffset record.payload)

end ShardReplication

/-- The shift wraps around at 64. -/
def shardIndicesFromMask (mask : BitVec 64) (shardCount : Nat) : Except ReplError (List Nat) :=
  if mask = 0#64 then .error (.invalidShardMask mask)
  else
    let shards := (List.range shardCount).filter fun shard => mask.getLsbD (shard % 64)
    if shards.isEmpty then .error (.invalidShardMask mask) else .ok shards

def maskContainsShard (mask : BitVec 64) (shard : Nat) : Bool :=
  shard < 64 && mask.getLsbD shard

structure PrimaryReplicationState where
  replId : BitVec 128
  shards : List ShardReplication

namespace PrimaryReplicationState

/-- The greatest tail and the least head of some shards. -/
def bounds (p : PrimaryReplicationState) (indices : List Nat) : Nat × Nat :=
  (indices.filterMap (p.shards[·]?)).foldl (fun (oldest, newest) shard =>
    (max oldest shard.backlog.tail, min newest shard.backlog.head)) (0, u64Max)

def handshake (p : PrimaryReplicationState) (hello : ReplHello) : Except ReplError ReplHelloAck :=
  match shardIndicesFromMask hello.shardMask p.shards.length with
  | .error e => .error e
  | .ok indices =>
    let (oldest, newest) := p.bounds indices
    if hello.offset < oldest then .ok ⟨.fullSync, p.replId, oldest⟩
    else if newest < hello.offset then .ok ⟨.wait, p.replId, newest⟩
    else .ok ⟨.ok, p.replId, hello.offset⟩

/-- The loop of `stream_available`; its argument counts the frames that may still be taken. -/
def streamLoop (s : ShardReplication) : Nat → Nat → Except ReplError (List ReplFrame)
  | 0, _ => .ok []
  | room + 1, offset =>
    match s.nextFrame offset with
    | .ok frame =>
      match streamLoop s room frame.offset with
      | .ok frames => .ok (frame :: frames)
      | .error e => .error e
    | .error (.noData _ _) => .ok []
    | .error e => .error e

def streamAvailable (p : PrimaryReplicationState) (shard offset maxFrames : Nat) :
    Except ReplError (List ReplFrame) :=
  match p.shards[shard]? with
  | none => .error (.invalidShard shard)
  | some replication => streamLoop replication maxFrames offset

end PrimaryReplicationState

/-! ## The replica -/

/-- What a replica does to a store: a run may fail, and `none` is a panic. -/
structure StoreOps (σ : Type) where
  execute : σ → Bytes → Option (Except ReplError Unit × σ)
  applySnapshotRecord : σ → SnapshotRecord → Option (Except ReplError Unit × σ)

structure ReplicaApplyState where
  replId : BitVec 128
  replicationOffset : Nat
  shardMask : BitVec 64
  bytesSinceAck : Nat
  lastAckAtMs : Nat

namespace ReplicaApplyState

def defaultAckIntervalMs : Nat := 1000
def defaultAckBytes : Nat := 65536

def new (replId : BitVec 128) (shardMask : BitVec 64) : Except ReplError ReplicaApplyState :=
  if shardMask = 0#64 then .error (.invalidShardMask shardMask)
  else .ok ⟨replId, 0, shardMask, 0, 0⟩

def noteProgress (r : ReplicaApplyState) (offset bytes nowMs : Nat) :
    Option ReplFrame × ReplicaApplyState :=
  let r := { r with
    replicationOffset := max r.replicationOffset offset
    bytesSinceAck := saturatingAdd r.bytesSinceAck bytes }
  let elapsed := if r.lastAckAtMs = 0 then nowMs else nowMs - r.lastAckAtMs
  if defaultAckBytes ≤ r.bytesSinceAck ∨ defaultAckIntervalMs ≤ elapsed then
    (some (.ack r.replicationOffset), { r with bytesSinceAck := 0, lastAckAtMs := nowMs })
  else (none, { r with lastAckAtMs := if r.lastAckAtMs = 0 then nowMs else r.lastAckAtMs })

/-- What `apply_frame` returns, and the state and the stores after it. -/
abbrev Applied (σ : Type) :=
  Option (Except ReplError (Option ReplFrame) × ReplicaApplyState × List σ)

/-- The part that frames of commands and of snapshots share: find the store, run on it, and note
the progress if the run did not fail. -/
def applyTo {σ : Type} (r : ReplicaApplyState) (frame : ReplFrame) (stores : List σ) (nowMs : Nat)
    (run : σ → Option (Except ReplError Unit × σ)) : Applied σ :=
  if !maskContainsShard r.shardMask frame.shard then
    some (.error (.invalidShard frame.shard), r, stores)
  else
    match stores[frame.shard]? with
    | none => some (.error (.invalidShard frame.shard), r, stores)
    | some store =>
      match run store with
      | none => none
      | some (.error e, store) => some (.error e, r, stores.set frame.shard store)
      | some (.ok _, store) =>
        let (ack, r) := r.noteProgress frame.offset frame.payload.length nowMs
        some (.ok ack, r, stores.set frame.shard store)

def applyFrame {σ : Type} (ops : StoreOps σ) (r : ReplicaApplyState) (frame : ReplFrame)
    (stores : List σ) (nowMs : Nat) : Applied σ :=
  match frame.frameType with
  | .command => r.applyTo frame stores nowMs fun store => ops.execute store frame.payload
  | .snapshot =>
    match SnapshotRecord.decode frame.payload with
    | none => none
    | some (.error e) => some (.error e, r, stores)
    | some (.ok record) =>
      r.applyTo frame stores nowMs fun store => ops.applySnapshotRecord store record
  | .snapshotEnd =>
    let (ack, r) := r.noteProgress frame.offset frame.payload.length nowMs
    some (.ok ack, r, stores)
  | .ack =>
    some (.ok none, { r with replicationOffset := max r.replicationOffset frame.offset }, stores)

/-- Frames applied one after the other, each at its own time; `none` if one of them fails. -/
def applyAll {σ : Type} (ops : StoreOps σ) :
    ReplicaApplyState → List σ → List (ReplFrame × Nat) → Option (ReplicaApplyState × List σ)
  | r, stores, [] => some (r, stores)
  | r, stores, (frame, nowMs) :: frames =>
    match r.applyFrame ops frame stores nowMs with
    | some (.ok _, r, stores) => applyAll ops r stores frames
    | _ => none

end ReplicaApplyState

/-! ## Commands on the wire -/

def commandName : Resp.Frame → Except ReplError Bytes
  | .bulkString value | .simpleString value | .simpleError value | .bigNumber value => .ok value
  | _ => .error (.protocol "command name must be a string frame")

/-- `item?` for every item. -/
def collectFrames : List (Except Resp.ParseError Resp.Frame) → Except ReplError (List Resp.Frame)
  | [] => .ok []
  | .error e :: _ => .error (.store (.inl e))
  | .ok frame :: items => (collectFrames items).map (frame :: ·)

/-- The command and the arguments of a payload. -/
def wireCommand (std : FloatStd) (wire : Bytes) :
    Option (Except ReplError (Bytes × List Resp.Frame)) :=
  match Resp.parse std wire with
  | none => none
  | some (.error e) => some (.error (.store (.inl e)))
  | some (.ok (.incomplete _)) => some (.error (.protocol "replication command frame incomplete"))
  | some (.ok (.complete frame used)) =>
    if used ≠ wire.length then some (.error (.trailingBytes (wire.length - used)))
    else
      match frame with
      | .array aggregate =>
        if aggregate.kind ≠ .array then
          some (.error (.protocol "replication payload must be an array"))
        else
          match aggregate.frames std with
          | none => none
          | some items =>
            match collectFrames items with
            | .error e => some (.error e)
            | .ok [] => some (.error (.protocol "replication command array is empty"))
            | .ok (first :: args) => some ((commandName first).map fun name => (name, args))
      | _ => some (.error (.protocol "replication payload must be a command array"))

/-- `execute_wire_command`, where `dispatch` runs a command on a store. -/
def executeWireCommand {σ : Type} (std : FloatStd)
    (dispatch : Bytes → List Resp.Frame → σ → Option (Except SenkoError Unit × σ)) (store : σ)
    (wire : Bytes) : Option (Except ReplError Unit × σ) :=
  match wireCommand std wire with
  | none => none
  | some (.error e) => some (.error e, store)
  | some (.ok (command, args)) =>
    match dispatch command args store with
    | none => none
    | some (.error e, store) => some (.error (.store (.inr e)), store)
    | some (.ok _, store) => some (.ok (), store)

end Senko.Cluster
