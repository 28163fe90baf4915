import Senko.Cluster.Slot
import Senko.Net.Reply
import Std.Data.TreeMap

/-!
# Senko — commands over several shards (`senko-net/src/connection.rs`)

A command whose keys live on different shards is carried out by the connection, as a plan of
sub-commands that shards execute. Commands that the plans do not rebuild from smaller ones run on a
temporary store, into which the keys they read are copied and from which the destination is copied
back.
-/

namespace Senko.Net

open Resp Plan

/-- What a plan asks for: a sub-command on a shard, whose reply it reads or does not look at, or a
step on its own temporary store. An entry of that store is asked for as its remaining time to live
and its dump. -/
inductive Request where
  | execute (shard : Nat) (command : Bytes) (args : List Bytes)
  | discard (shard : Nat) (command : Bytes) (args : List Bytes)
  | tempNew
  | tempDispatch (command : Bytes) (args : List Bytes)
  | tempEntry (key : Bytes)
  | randomIndex (len : Nat)

/-- The answer of a shard: a response, an error with its text, or none in time. -/
inductive Reply where
  | response (response : Response)
  | error (text : Bytes)
  | timeout

def Request.Answer : Request → Type
  | .execute _ _ _ | .discard _ _ _ => Reply
  | .tempNew => Unit
  | .tempDispatch _ _ => Except Bytes Response
  | .tempEntry _ => Option (Nat × Bytes)
  | .randomIndex _ => Nat

/-- A plan ends with the bytes for the client, or with those of an error. -/
abbrev Routed := Plan Request Request.Answer Bytes

inductive CrossShardBatchCondition where
  | always
  | nx
  | xx
deriving DecidableEq, Repr

structure ParsedCrossShardMsetex where
  numkeys : Nat
  pairBytes : List Bytes
  optionBytes : List Bytes
  condition : CrossShardBatchCondition

structure GlobalScanArgs where
  cursor : Nat
  pattern : Option Bytes := none
  count : Nat := 10
  typeFilter : Option Bytes := none

namespace Coordinator

/-! ## Arguments -/

def failWith {α : Type} (message : String) : Routed α := fail (errorMessage (ascii message))

def syntaxFailure {α : Type} : Routed α := failWith "ERR syntax error"

def parseUsizeBytes (raw : Bytes) (message : String) : Routed Nat :=
  match parseU64 raw with
  | some value => done value
  | none => failWith message

def collectFrameArgs : List Resp.Frame → Routed (List Bytes)
  | [] => done []
  | frame :: frames => do
    let bytes ← frameBytes frame
    let rest ← collectFrameArgs frames
    done (bytes :: rest)

def collectFixedArgKeys (args : List Resp.Frame) (indexes : List Nat) : Routed (List Bytes) :=
  collectFrameArgs (indexes.filterMap fun index => args[index]?)

def collectBitopSourceKeys (args : List Resp.Frame) : Routed (List Bytes) :=
  if args.length < 3 then failWith "ERR wrong number of arguments for 'bitop' command"
  else collectFrameArgs (args.drop 2)

def parseRequiredArgBytes (args : List Resp.Frame) (index : Nat) (wrongArity : String) :
    Routed Bytes :=
  match args[index]? with
  | none => failWith wrongArity
  | some frame => frameBytes frame

/-- The arguments at `left` positions from `index` on. -/
def parseKeyArgs (args : List Resp.Frame) : Nat → Nat → Routed (List Bytes)
  | _, 0 => done []
  | index, left + 1 => do
    let key ← parseRequiredArgBytes args index "ERR numkeys does not match number of keys"
    let keys ← parseKeyArgs args (index + 1) left
    done (key :: keys)

def parseNumkeysArg (args : List Resp.Frame) (index : Nat) (zeroMessage mismatchMessage : String) :
    Routed Nat := do
  let raw ← parseRequiredArgBytes args index mismatchMessage
  let numkeys ← parseUsizeBytes raw zeroMessage
  if numkeys = 0 then failWith zeroMessage
  else if args.length < usize (index + 1 + numkeys) then failWith mismatchMessage
  else done numkeys

def parseNumkeys (args : List Resp.Frame) (index : Nat) : Routed Nat :=
  parseNumkeysArg args index "ERR numkeys should be greater than 0"
    "ERR numkeys does not match number of keys"

/-- `frame_bytes(frame).is_ok_and(..)` -/
def isToken (tokens : List String) : Resp.Frame → Bool
  | .bulkString bytes | .simpleString bytes | .blobError bytes | .verbatimString _ bytes =>
    tokens.any fun token => isOpt bytes token
  | _ => false

def hasGeoStoreOption (args : List Resp.Frame) : Bool := args.any (isToken ["STORE", "STOREDIST"])

/-- The argument behind the first of the tokens, wherever that stands. -/
def findOptionDestination (tokens : List String) : List Resp.Frame → Routed (Option Bytes)
  | [] => done none
  | arg :: rest => do
    let token ← frameBytes arg
    if tokens.any fun expected => isOpt token expected then
      match rest with
      | [] => done none
      | frame :: _ => do
        let destination ← frameBytes frame
        done (some destination)
    else findOptionDestination tokens rest

def collectZsetTempCommandKeys (command : Bytes) (args : List Resp.Frame) :
    Routed (List Bytes × Option Bytes) := do
  if isOpt command "ZRANGESTORE" then
    let keys ← collectFixedArgKeys args [1]
    let destination ← parseRequiredArgBytes args 0
      "ERR wrong number of arguments for 'zrangestore' command"
    done (keys, some destination)
  else if isOpt command "ZDIFF" || isOpt command "ZINTER" || isOpt command "ZUNION" ||
      isOpt command "ZINTERCARD" then
    let numkeys ← parseNumkeys args 0
    let keys ← parseKeyArgs args 1 numkeys
    done (keys, none)
  else
    let numkeys ← parseNumkeys args 1
    -- the range `2..2 + numkeys`, whose end may wrap
    let keys ← parseKeyArgs args 2 (usize (2 + numkeys) - 2)
    let destination ← parseRequiredArgBytes args 0
      "ERR wrong number of arguments for zset store command"
    done (keys, some destination)

def parseCrossShardTwoKeys (args : List Resp.Frame) (wrongArity : String)
    (validateDestinationUtf8 : Bool) : Routed (Bytes × Bytes) := do
  match args with
  | [source, destination] =>
    let source ← frameBytes source
    let destination ← frameBytes destination
    if validateDestinationUtf8 && !validUtf8 destination then failWith "ERR invalid UTF-8 key"
    else done (source, destination)
  | _ => failWith wrongArity

/-- The options of `COPY`: whether to replace. -/
def parseCopyOptions : List Resp.Frame → Bool → Routed Bool
  | [], replace => done replace
  | arg :: rest, replace => do
    let token ← frameBytes arg
    if isOpt token "REPLACE" then parseCopyOptions rest true
    else if isOpt token "DB" then
      match rest with
      | [] => syntaxFailure
      | db :: rest => do
        let db ← frameBytes db
        if parseU64 db = some 0 then parseCopyOptions rest replace
        else failWith "ERR invalid DB index"
    else syntaxFailure

def parseCrossShardCopyArgs (args : List Resp.Frame) : Routed (Bytes × Bytes × Bool) := do
  match args with
  | source :: destination :: options =>
    let source ← frameBytes source
    let destination ← frameBytes destination
    if !validUtf8 destination then failWith "ERR invalid UTF-8 key"
    else
      let replace ← parseCopyOptions options false
      done (source, destination, replace)
  | _ => failWith "ERR wrong number of arguments for 'copy' command"

def parseSide (side : Bytes) (left right : String) : Routed Bytes :=
  if isOpt side "LEFT" then done (ascii left)
  else if isOpt side "RIGHT" then done (ascii right)
  else syntaxFailure

/-- The commands that pop from the source and push to the destination. -/
def parseCrossShardListMoveArgs (command : Bytes) (args : List Resp.Frame) :
    Routed (Bytes × Bytes × Bytes × Bytes) := do
  if isOpt command "RPOPLPUSH" then
    match args with
    | [source, destination] =>
      let source ← frameBytes source
      let destination ← frameBytes destination
      done (source, destination, ascii "RPOP", ascii "LPUSH")
    | _ => failWith "ERR wrong number of arguments for 'rpoplpush' command"
  else
    match args with
    | [source, destination, fromSide, toSide] =>
      let fromSide ← frameBytes fromSide
      let toSide ← frameBytes toSide
      let pop ← parseSide fromSide "LPOP" "RPOP"
      let push ← parseSide toSide "LPUSH" "RPUSH"
      let source ← frameBytes source
      let destination ← frameBytes destination
      done (source, destination, pop, push)
    | _ => failWith "ERR wrong number of arguments for 'lmove' command"

def parseCrossShardMsetexArgs (args : List Resp.Frame) : Routed ParsedCrossShardMsetex := do
  match args with
  | [] => failWith "ERR wrong number of arguments for 'msetex' command"
  | numkeysFrame :: rest =>
    let raw ← frameBytes numkeysFrame
    let numkeys ← parseUsizeBytes raw "ERR numkeys value is not an integer or out of range"
    if numkeys = 0 then failWith "ERR numkeys should be greater than 0"
    else if u64Max < numkeys * 2 then syntaxFailure
    else if args.length < 1 + numkeys * 2 then
      failWith "ERR numkeys does not match number of key-value pairs"
    else
      let pairBytes ← collectFrameArgs (rest.take (numkeys * 2))
      let optionBytes ← collectFrameArgs (rest.drop (numkeys * 2))
      let condition := optionBytes.foldl (fun condition token =>
        if isOpt token "NX" then .nx else if isOpt token "XX" then .xx else condition) .always
      done { numkeys, pairBytes, optionBytes, condition }

/-- The limit behind the keys, if there is one. -/
def parseSintercardLimit (args : List Resp.Frame) (numkeys : Nat) : Routed (Option Nat) := do
  if args.length = usize (1 + numkeys) then done none
  else if args.length = usize (3 + numkeys) then
    let token ← unwrap args[usize (1 + numkeys)]?
    let token ← frameBytes token
    if isOpt token "LIMIT" then
      let limit ← unwrap args[usize (2 + numkeys)]?
      let limit ← frameBytes limit
      done (some ((parseI64 limit).getD 0).toNat)
    else syntaxFailure
  else syntaxFailure

def parseCrossShardSintercardArgs (args : List Resp.Frame) : Routed (List Bytes × Option Nat) := do
  match args with
  | first :: _ :: _ =>
    let raw ← frameBytes first
    let numkeys ← parseUsizeBytes raw "ERR numkeys should be greater than 0"
    if numkeys = 0 then failWith "ERR numkeys should be greater than 0"
    else if args.length < usize (1 + numkeys) then syntaxFailure
    else
      let limit ← parseSintercardLimit args numkeys
      let keys ← collectFrameArgs ((args.take (1 + numkeys)).drop 1)
      done (keys, limit.filter fun limit => 0 < limit)
  | _ => failWith "ERR wrong number of arguments for 'sintercard' command"

def parseCrossShardSetStoreArgs (command : Bytes) (args : List Resp.Frame) :
    Routed (Bytes × List Bytes) := do
  match args with
  | first :: second :: rest =>
    let destination ← frameBytes first
    let sources ← collectFrameArgs (second :: rest)
    done (destination, sources)
  | _ =>
    if isOpt command "SDIFFSTORE" then
      failWith "ERR wrong number of arguments for 'sdiffstore' command"
    else if isOpt command "SINTERSTORE" then
      failWith "ERR wrong number of arguments for 'sinterstore' command"
    else failWith "ERR wrong number of arguments for 'sunionstore' command"

def isScanTypeFilter (value : Bytes) : Bool :=
  ["string", "list", "set", "zset", "hash", "stream"].any fun name => isOpt value name

/-- The options of `SCAN`, in any order; the last of a kind counts. -/
def parseScanOptions : List Resp.Frame → GlobalScanArgs → Routed GlobalScanArgs
  | [], parsed => done parsed
  | arg :: rest, parsed => do
    let token ← frameBytes arg
    if isOpt token "MATCH" then
      match rest with
      | [] => syntaxFailure
      | value :: rest => do
        let pattern ← frameBytes value
        parseScanOptions rest { parsed with pattern := some pattern }
    else if isOpt token "COUNT" then
      match rest with
      | [] => syntaxFailure
      | value :: rest => do
        let raw ← frameBytes value
        let count ← parseUsizeBytes raw "ERR value is not an integer or out of range"
        parseScanOptions rest { parsed with count := max count 1 }
    else if isOpt token "TYPE" then
      match rest with
      | [] => syntaxFailure
      | value :: rest => do
        let filter ← frameBytes value
        parseScanOptions rest { parsed with typeFilter := some filter }
    else syntaxFailure

def parseGlobalScanArgs (args : List Resp.Frame) : Routed GlobalScanArgs := do
  match args with
  | [] => failWith "ERR wrong number of arguments for 'scan' command"
  | first :: options =>
    let raw ← frameBytes first
    let cursor ← parseUsizeBytes raw "ERR invalid cursor"
    parseScanOptions options { cursor }

/-! ## Shards -/

variable (c : Coordinator)

def shardForKey (key : Bytes) : Nat := Cluster.crc16Slot key % max c.numShards 1

/-- `execute_store_command_on_shard`: the reply as it is serialized. -/
def execute (shard : Nat) (command : Bytes) (args : List Bytes) : Routed Bytes :=
  ask (.execute shard command args) fun
    | .response response => done (serializeResponse c.std c.resp3 response)
    | .error text => done (errorMessage text)
    | .timeout => failWith "ERR shard coordination timeout"

/-- A sub-command whose reply is not parsed. -/
def executeOnly (shard : Nat) (command : Bytes) (args : List Bytes) : Routed Unit :=
  ask (.discard shard command args) fun
    | .response _ | .error _ => done ()
    | .timeout => failWith "ERR shard coordination timeout"

def reply (response : Response) : Routed Bytes := done (serializeResponse c.std c.resp3 response)

/-- `entry(shard).or_default()`, extended. -/
def extendBucket {β : Type} (grouped : Std.TreeMap Nat (List β)) (shard : Nat) (items : List β) :
    Std.TreeMap Nat (List β) :=
  grouped.insert shard (grouped.getD shard [] ++ items)

/-- Every key goes to its shard, with its position. -/
def groupKeys (keys : List Bytes) : Std.TreeMap Nat (List (Nat × Bytes)) :=
  keys.zipIdx.foldl (fun grouped entry =>
    extendBucket grouped (c.shardForKey entry.1) [(entry.2, entry.1)]) ∅

def groupKeyArgs (args : List Resp.Frame) : Routed (List (Nat × List (Nat × Bytes))) := do
  let keys ← collectFrameArgs args
  done (c.groupKeys keys).toList

/-- `chunks(2)`. -/
def chunkPairs {β : Type} : List β → List (List β)
  | [] => []
  | [a] => [[a]]
  | a :: b :: rest => [a, b] :: chunkPairs rest

/-- Every chunk goes to the shard of its key. -/
def groupPairs (bytes : List Bytes) : Std.TreeMap Nat (List Bytes) :=
  (chunkPairs bytes).foldl (fun grouped chunk =>
    match chunk with
    | [] => grouped
    | key :: _ => extendBucket grouped (c.shardForKey key) chunk) ∅

def groupMsetPairs (args : List Resp.Frame) : Routed (List (Nat × List Bytes)) := do
  let bytes ← collectFrameArgs args
  done (c.groupPairs bytes).toList

def groupMsetexPairs (parsed : ParsedCrossShardMsetex) : List (Nat × List Bytes) :=
  (c.groupPairs parsed.pairBytes).toList.map fun (shard, bucket) =>
    (shard, toDecimal (bucket.length / 2) :: bucket ++ parsed.optionBytes)

/-- `i64` arithmetic wraps. -/
def wrapI64 (n : Int) : Int := n.bmod (2 ^ 64)

def restoreArgs (destination : Bytes) (ttlMs : Nat) (payload : Bytes) (replace : Bool) :
    List Bytes :=
  [destination, toDecimal ttlMs, payload] ++ if replace then [ascii "REPLACE"] else []

/-- The sum of the integers that the shards answer. -/
def sumOverShards (command : Bytes) (grouped : List (Nat × List (Nat × Bytes))) : Routed Int :=
  grouped.foldlM (fun total (shard, entries) => do
    let bytes ← c.execute shard command (entries.map Prod.snd)
    let value ← c.parseIntegerResponse bytes
    done (wrapI64 (total + value))) 0

def crossShardExistsCount (args : List Resp.Frame) : Routed Int := do
  let grouped ← c.groupKeyArgs args
  c.sumOverShards (ascii "EXISTS") grouped

def ensureOk (bytes : Bytes) : Routed Unit := do
  if ← c.parseOkResponse bytes then done () else fail protocolError

def ensureRemoteType (shard : Nat) (key expected : Bytes) : Routed Unit := do
  let bytes ← c.execute shard (ascii "TYPE") [key]
  let value ← c.parseTypeNameResponse bytes
  if value ≠ ascii "none" ∧ value ≠ expected then
    failWith "WRONGTYPE Operation against a key holding the wrong kind of value"
  else done ()

def fetchDumpPayload (source : Bytes) (shard : Nat) : Routed (Option (Bytes × Nat)) := do
  let dump ← c.execute shard (ascii "DUMP") [source]
  match ← c.parseOptionalBytesResponse dump with
  | none => done none
  | some payload =>
    let ttl ← c.execute shard (ascii "PTTL") [source]
    let ttl ← c.parseIntegerResponse ttl
    done (some (payload, ttl.toNat))

def fetchSetSources (keys : List Bytes) : Routed (List (List Bytes)) :=
  keys.foldlM (fun sets key => do
    let bytes ← c.execute (c.shardForKey key) (ascii "SMEMBERS") [key]
    let members ← c.parseBulkArrayResponse bytes
    done (sets ++ [members.dedup])) []

def fetchAllKeysMatching (pattern : Bytes) : Routed (List Bytes) :=
  (List.range c.numShards).foldlM (fun out shard => do
    let bytes ← c.execute shard (ascii "KEYS") [pattern]
    let keys ← c.parseBulkArrayResponse bytes
    done (out ++ keys)) []

def filterKeysByType (keys : List Bytes) (typeFilter : Bytes) : Routed (List Bytes) :=
  keys.foldlM (fun out key => do
    let bytes ← c.execute (c.shardForKey key) (ascii "TYPE") [key]
    let name ← c.parseTypeNameResponse bytes
    if name.map toAsciiLowercase = typeFilter.map toAsciiLowercase then done (out ++ [key])
    else done out) []

/-! ## The temporary store -/

def tempNew : Routed Unit := ask .tempNew done

def tempEntry (key : Bytes) : Routed (Option (Nat × Bytes)) := ask (.tempEntry key) done

/-- `dispatch` on the temporary store. -/
def tempDispatch (command : Bytes) (args : List Bytes) : Routed Response :=
  ask (.tempDispatch command args) fun
    | .ok response => done response
    | .error text => fail (errorMessage text)

def restoreKeyIntoTempStore (key payload : Bytes) (ttlMs : Nat) : Routed Unit := do
  let _ ← tempDispatch (ascii "RESTORE") [key, toDecimal ttlMs, payload]
  done ()

/-- A key is copied the first time it is seen. -/
def hydrateKey (seen : List Bytes) (key : Bytes) : Routed (List Bytes) := do
  if key ∈ seen then done seen
  else
    match ← c.fetchDumpPayload key (c.shardForKey key) with
    | none => done (key :: seen)
    | some (payload, ttlMs) =>
      restoreKeyIntoTempStore key payload ttlMs
      done (key :: seen)

def hydrateTempStoreFromKeys (keys : List Bytes) : Routed Unit := do
  tempNew
  let _ ← keys.foldlM c.hydrateKey []
  done ()

def syncTempStoreKey (key : Bytes) : Routed Unit := do
  match ← tempEntry key with
  | none =>
    let bytes ← c.execute (c.shardForKey key) (ascii "DEL") [key]
    let _ ← c.parseIntegerResponse bytes
    done ()
  | some (ttlMs, payload) =>
    let bytes ← c.execute (c.shardForKey key) (ascii "RESTORE") (restoreArgs key ttlMs payload true)
    c.ensureOk bytes

def syncDestination : Option Bytes → Routed Unit
  | some destination => c.syncTempStoreKey destination
  | none => done ()

def dispatchCrossShardTempStoreCommand (command : Bytes) (args : List Resp.Frame)
    (sourceKeys : List Bytes) (destination : Option Bytes) : Routed Bytes := do
  let ownedArgs ← collectFrameArgs args
  c.hydrateTempStoreFromKeys sourceKeys
  let response ← tempDispatch command ownedArgs
  c.syncDestination destination
  c.reply response

/-! ## Strings and generic commands -/

def dispatchCrossShardMget (args : List Resp.Frame) : Routed Bytes := do
  let grouped ← c.groupKeyArgs args
  let merged ← grouped.foldlM (fun merged (shard, entries) => do
    let bytes ← c.execute shard (ascii "MGET") (entries.map Prod.snd)
    let values ← c.parseMgetResponse bytes
    if values.length ≠ entries.length then fail protocolError
    else done ((entries.zip values).foldl (fun merged (entry, value) => merged.set entry.1 value)
      merged)) (List.replicate args.length (Response.value none))
  c.reply (.array merged)

/-- The `MSET` of every shard. -/
def msetOverShards (grouped : List (Nat × List Bytes)) : Routed Unit :=
  grouped.foldlM (fun _ (shard, shardArgs) => do
    let bytes ← c.execute shard (ascii "MSET") shardArgs
    c.ensureOk bytes) ()

def dispatchCrossShardMset (args : List Resp.Frame) : Routed Bytes := do
  let grouped ← c.groupMsetPairs args
  c.msetOverShards grouped
  c.reply (.simple (ascii "OK"))

def dispatchCrossShardIntegerSum (command : Bytes) (args : List Resp.Frame) : Routed Bytes := do
  let grouped ← c.groupKeyArgs args
  let total ← c.sumOverShards command grouped
  c.reply (.integer total)

/-- The keys that must be missing are all the arguments, the values among them. -/
def dispatchCrossShardMsetnx (args : List Resp.Frame) : Routed Bytes := do
  let present ← c.crossShardExistsCount args
  if 0 < present then c.reply (.integer 0)
  else
    let grouped ← c.groupMsetPairs args
    c.msetOverShards grouped
    c.reply (.integer 1)

def dispatchCrossShardMsetex (args : List Resp.Frame) : Routed Bytes := do
  let parsed ← parseCrossShardMsetexArgs args
  let keyArgs := (chunkPairs parsed.pairBytes).filterMap fun chunk =>
    chunk.head?.map Resp.Frame.bulkString
  let present ← c.crossShardExistsCount keyArgs
  if parsed.condition = .nx ∧ 0 < present then c.reply (.integer 0)
  else if parsed.condition = .xx ∧ present ≠ wrapI64 parsed.numkeys then c.reply (.integer 0)
  else
    (c.groupMsetexPairs parsed).foldlM (fun _ (shard, shardArgs) => do
      let bytes ← c.execute shard (ascii "MSETEX") shardArgs
      let applied ← c.parseIntegerResponse bytes
      if applied ≤ 0 then fail protocolError else done ()) ()
    c.reply (.integer (wrapI64 parsed.numkeys))

/-- Whether a destination that may not be replaced is there. -/
def destinationTaken (replace : Bool) (destination : Bytes) : Routed Bool := do
  if replace then done false
  else
    let bytes ← c.execute (c.shardForKey destination) (ascii "EXISTS") [destination]
    let present ← c.parseIntegerResponse bytes
    done (decide (0 < present))

def dispatchCrossShardCopy (args : List Resp.Frame) : Routed Bytes := do
  let (source, destination, replace) ← parseCrossShardCopyArgs args
  match ← c.fetchDumpPayload source (c.shardForKey source) with
  | none => c.reply (.integer 0)
  | some (payload, ttlMs) =>
    if ← c.destinationTaken replace destination then c.reply (.integer 0)
    else
      let bytes ← c.execute (c.shardForKey destination) (ascii "RESTORE")
        (restoreArgs destination ttlMs payload replace)
      c.ensureOk bytes
      c.reply (.integer 1)

def dispatchCrossShardRename (args : List Resp.Frame) (nx : Bool) : Routed Bytes := do
  let (source, destination) ← parseCrossShardTwoKeys args
    (if nx then "ERR wrong number of arguments for 'renamenx' command"
      else "ERR wrong number of arguments for 'rename' command") true
  match ← c.fetchDumpPayload source (c.shardForKey source) with
  | none => failWith "ERR no such key"
  | some (payload, ttlMs) =>
    if ← c.destinationTaken (!nx) destination then c.reply (.integer 0)
    else
      let bytes ← c.execute (c.shardForKey destination) (ascii "RESTORE")
        (restoreArgs destination ttlMs payload !nx)
      c.ensureOk bytes
      let bytes ← c.execute (c.shardForKey source) (ascii "DEL") [source]
      let deleted ← c.parseIntegerResponse bytes
      if deleted ≠ 1 then fail protocolError
      else c.reply (if nx then .integer 1 else .simple (ascii "OK"))

/-! ## Lists, sets and sorted sets -/

def dispatchCrossShardListMove (command : Bytes) (args : List Resp.Frame) : Routed Bytes := do
  let (source, destination, popCommand, pushCommand) ← parseCrossShardListMoveArgs command args
  c.ensureRemoteType (c.shardForKey destination) destination (ascii "list")
  let popped ← c.execute (c.shardForKey source) popCommand [source]
  match ← c.parseOptionalBytesResponse popped with
  | none => c.reply (.value none)
  | some member =>
    let pushed ← c.execute (c.shardForKey destination) pushCommand [destination, member]
    let _ ← c.parseIntegerResponse pushed
    c.reply (.value (some (.raw member)))

def dispatchCrossShardSmove (args : List Resp.Frame) : Routed Bytes := do
  match args with
  | [source, destination, member] =>
    let source ← frameBytes source
    let destination ← frameBytes destination
    let member ← frameBytes member
    c.ensureRemoteType (c.shardForKey source) source (ascii "set")
    c.ensureRemoteType (c.shardForKey destination) destination (ascii "set")
    let present ← c.execute (c.shardForKey source) (ascii "SISMEMBER") [source, member]
    if (← c.parseIntegerResponse present) = 0 then c.reply (.integer 0)
    else
      let removed ← c.execute (c.shardForKey source) (ascii "SREM") [source, member]
      if (← c.parseIntegerResponse removed) = 0 then c.reply (.integer 0)
      else
        let added ← c.execute (c.shardForKey destination) (ascii "SADD") [destination, member]
        let _ ← c.parseIntegerResponse added
        c.reply (.integer 1)
  | _ => failWith "ERR wrong number of arguments for 'smove' command"

/-- One key after the other, until one has something to pop. -/
def popFirst (command : Bytes) (args : List Resp.Frame) (popArgs : List Bytes) :
    Nat → Nat → Routed Bytes
  | _, 0 => c.reply (.value none)
  | index, left + 1 => do
    let key ← parseRequiredArgBytes args index "ERR numkeys does not match number of keys"
    let bytes ← c.execute (c.shardForKey key) command (ascii "1" :: key :: popArgs)
    if ← c.isNullResponse bytes then popFirst command args popArgs (index + 1) left
    else done bytes

def trailingArgs (args : List Resp.Frame) (start : Nat) : Routed (List Bytes) :=
  if start < args.length then collectFrameArgs (args.drop start) else done []

/-- `LMPOP` and `ZMPOP` differ in their name. -/
def dispatchCrossShardMpop (command : String) (wrongArity : String) (args : List Resp.Frame) :
    Routed Bytes := do
  if args.length < 3 then failWith wrongArity
  else
    let numkeys ← parseNumkeys args 0
    let sideIndex := usize (1 + numkeys)
    let side ← parseRequiredArgBytes args sideIndex wrongArity
    let options ← trailingArgs args (usize (sideIndex + 1))
    c.popFirst (ascii command) args (side :: options) 1 numkeys

def dispatchCrossShardLmpop : List Resp.Frame → Routed Bytes :=
  c.dispatchCrossShardMpop "LMPOP" "ERR wrong number of arguments for 'lmpop' command"

def dispatchCrossShardZmpop : List Resp.Frame → Routed Bytes :=
  c.dispatchCrossShardMpop "ZMPOP" "ERR wrong number of arguments for 'zmpop' command"

def dispatchCrossShardZsetTempCommand (command : Bytes) (args : List Resp.Frame) :
    Routed Bytes := do
  let (sourceKeys, destination) ← collectZsetTempCommandKeys command args
  c.dispatchCrossShardTempStoreCommand command args sourceKeys destination

def computeCrossShardSdiff : List (List Bytes) → List Bytes
  | [] => []
  | first :: others =>
    c.setOrder (others.foldl (fun current other => current.filter (· ∉ other)) first)

def computeCrossShardSinter (sets : List (List Bytes)) (limit : Option Nat) : List Bytes :=
  match sets with
  | [] => []
  | first :: others =>
    let members := c.setOrder (others.foldl (fun current other => current.filter (· ∈ other)) first)
    match limit with
    | some limit => members.take limit
    | none => members

def computeCrossShardSunion (sets : List (List Bytes)) : List Bytes :=
  c.setOrder sets.flatten.dedup

def rawArrayResponse (members : List Bytes) : Response :=
  .array (members.map fun member => .value (some (.raw member)))

/-- The destination is emptied first; the reply to that is not parsed. -/
def writeCrossShardSetResult (destination : Bytes) (members : List Bytes) : Routed Unit := do
  executeOnly (c.shardForKey destination) (ascii "DEL") [destination]
  if members.isEmpty then done ()
  else
    let bytes ← c.execute (c.shardForKey destination) (ascii "SADD") (destination :: members)
    let _ ← c.parseIntegerResponse bytes
    done ()

def dispatchCrossShardSetAlgebra (command : Bytes) (args : List Resp.Frame) : Routed Bytes := do
  if isOpt command "SDIFF" || isOpt command "SINTER" || isOpt command "SUNION" then
    let keys ← collectFrameArgs args
    let sets ← c.fetchSetSources keys
    c.reply (rawArrayResponse
      (if isOpt command "SDIFF" then c.computeCrossShardSdiff sets
        else if isOpt command "SINTER" then c.computeCrossShardSinter sets none
        else c.computeCrossShardSunion sets))
  else if isOpt command "SINTERCARD" then
    let (keys, limit) ← parseCrossShardSintercardArgs args
    let sets ← c.fetchSetSources keys
    c.reply (.integer (wrapI64 (c.computeCrossShardSinter sets limit).length))
  else
    let (destination, sources) ← parseCrossShardSetStoreArgs command args
    let sets ← c.fetchSetSources sources
    let members :=
      if isOpt command "SDIFFSTORE" then c.computeCrossShardSdiff sets
      else if isOpt command "SINTERSTORE" then c.computeCrossShardSinter sets none
      else c.computeCrossShardSunion sets
    c.writeCrossShardSetResult destination members
    c.reply (.integer (wrapI64 members.length))

/-! ## Commands over all keys -/

def dispatchGlobalKeys (args : List Resp.Frame) : Routed Bytes := do
  let pattern ← parseRequiredArgBytes args 0 "ERR wrong number of arguments for 'keys' command"
  if args.length ≠ 1 then failWith "ERR wrong number of arguments for 'keys' command"
  else
    let keys ← c.fetchAllKeysMatching pattern
    c.reply (rawArrayResponse keys)

def randomIndex (len : Nat) : Routed Nat := ask (.randomIndex len) done

def touchKey (key : Bytes) : Routed Unit :=
  if c.noTouch then done () else executeOnly (c.shardForKey key) (ascii "TOUCH") [key]

def dispatchGlobalRandomkey (args : List Resp.Frame) : Routed Bytes := do
  if !args.isEmpty then failWith "ERR wrong number of arguments for 'randomkey' command"
  else
    let keys ← c.fetchAllKeysMatching (ascii "*")
    let index ← randomIndex keys.length
    match keys[index]? with
    | none => c.reply (.value none)
    | some key =>
      c.touchKey key
      c.reply (.value (some (.raw key)))

def scanResponse (next : Nat) (keys : List Bytes) : Response :=
  .array [.value (some (.raw (toDecimal next))), rawArrayResponse keys]

def filterKeys (keys : List Bytes) : Option Bytes → Routed (List Bytes)
  | some typeFilter => c.filterKeysByType keys typeFilter
  | none => done keys

/-- A page of a sorted list of keys, and the cursor behind it. -/
def scanPage (keys : List Bytes) (cursor count : Nat) : Nat × List Bytes :=
  if keys.length ≤ cursor then (0, [])
  else
    let last := min (cursor + count) keys.length
    (if keys.length ≤ last then 0 else last, (keys.take last).drop cursor)

/-- The keys of all shards that pass the filters, sorted. -/
def gatherKeys (pattern typeFilter : Option Bytes) : Routed (List Bytes) := do
  let keys ← c.fetchAllKeysMatching (pattern.getD (ascii "*"))
  let keys ← c.filterKeys keys typeFilter
  done (keys.insertionSort fun left right => compareBytes left right ≠ .gt)

/-- The cursor is a position in the sorted list of the keys of this call. -/
def globalScan (args : List Resp.Frame) : Routed (Nat × List Bytes) := do
  let parsed ← parseGlobalScanArgs args
  if parsed.typeFilter.any fun filter => !isScanTypeFilter filter then done (0, [])
  else
    let keys ← c.gatherKeys parsed.pattern parsed.typeFilter
    done (scanPage keys parsed.cursor parsed.count)

def dispatchGlobalScan (args : List Resp.Frame) : Routed Bytes := do
  let page ← c.globalScan args
  c.reply (scanResponse page.1 page.2)

def dispatchGlobalSortCommand (command : Bytes) (args : List Resp.Frame) : Routed Bytes := do
  let sourceKeys ← c.fetchAllKeysMatching (ascii "*")
  let destination ← findOptionDestination ["STORE"] args
  c.dispatchCrossShardTempStoreCommand command args sourceKeys destination

/-! ## Dispatch -/

/-- A command on a temporary store, once its keys are found. -/
def tempStoreCommand (command : Bytes) (args : List Resp.Frame) (sourceKeys : Routed (List Bytes))
    (destination : Routed (Option Bytes)) : Routed Bytes := do
  let sourceKeys ← sourceKeys
  let destination ← destination
  c.dispatchCrossShardTempStoreCommand command args sourceKeys destination

def requiredDestination (args : List Resp.Frame) (index : Nat) (wrongArity : String) :
    Routed (Option Bytes) := do
  let destination ← parseRequiredArgBytes args index wrongArity
  done (some destination)

def dispatchGlobalOrSpecialMultiShardCommand (command : Bytes) (args : List Resp.Frame) :
    Option (Routed Bytes) :=
  if isOpt command "KEYS" then some (c.dispatchGlobalKeys args)
  else if isOpt command "SCAN" then some (c.dispatchGlobalScan args)
  else if isOpt command "RANDOMKEY" then some (c.dispatchGlobalRandomkey args)
  else if isOpt command "SORT" || isOpt command "SORT_RO" then
    some (c.dispatchGlobalSortCommand command args)
  else if isOpt command "GEOSEARCHSTORE" then
    some (c.tempStoreCommand command args (collectFixedArgKeys args [1])
      (requiredDestination args 0 "ERR wrong number of arguments for 'geosearchstore' command"))
  else if (isOpt command "GEORADIUS" || isOpt command "GEORADIUSBYMEMBER") &&
      hasGeoStoreOption args then
    some (c.tempStoreCommand command args (collectFixedArgKeys args [0])
      (findOptionDestination ["STORE", "STOREDIST"] args))
  else none

def dispatchCrossShardMultiKeyCommand (command : Bytes) (args : List Resp.Frame) :
    Option (Routed Bytes) :=
  if isOpt command "MGET" then some (c.dispatchCrossShardMget args)
  else if isOpt command "MSET" then some (c.dispatchCrossShardMset args)
  else if isOpt command "MSETNX" then some (c.dispatchCrossShardMsetnx args)
  else if isOpt command "MSETEX" then some (c.dispatchCrossShardMsetex args)
  else if isOpt command "BITOP" then
    some (c.tempStoreCommand command args (collectBitopSourceKeys args)
      (requiredDestination args 1 "ERR wrong number of arguments for 'bitop' command"))
  else if isOpt command "LCS" then
    some (c.tempStoreCommand command args (collectFixedArgKeys args [0, 1]) (done none))
  else if isOpt command "PFCOUNT" then
    some (c.tempStoreCommand command args (collectFrameArgs args) (done none))
  else if isOpt command "PFMERGE" then
    some (c.tempStoreCommand command args (collectFrameArgs args)
      (requiredDestination args 0 "ERR wrong number of arguments for 'pfmerge' command"))
  else if isOpt command "COPY" then some (c.dispatchCrossShardCopy args)
  else if isOpt command "RENAME" then some (c.dispatchCrossShardRename args false)
  else if isOpt command "RENAMENX" then some (c.dispatchCrossShardRename args true)
  else if isOpt command "LMOVE" || isOpt command "RPOPLPUSH" then
    some (c.dispatchCrossShardListMove command args)
  else if isOpt command "SMOVE" then some (c.dispatchCrossShardSmove args)
  else if isOpt command "LMPOP" then some (c.dispatchCrossShardLmpop args)
  else if isOpt command "ZMPOP" then some (c.dispatchCrossShardZmpop args)
  else if ["SDIFF", "SINTER", "SINTERCARD", "SUNION", "SDIFFSTORE", "SINTERSTORE",
      "SUNIONSTORE"].any fun name => isOpt command name then
    some (c.dispatchCrossShardSetAlgebra command args)
  else if ["ZDIFF", "ZINTER", "ZINTERCARD", "ZUNION", "ZDIFFSTORE", "ZINTERSTORE", "ZUNIONSTORE",
      "ZRANGESTORE"].any fun name => isOpt command name then
    some (c.dispatchCrossShardZsetTempCommand command args)
  else if ["DEL", "UNLINK", "EXISTS", "TOUCH"].any fun name => isOpt command name then
    some (c.dispatchCrossShardIntegerSum command args)
  else none

end Coordinator

end Senko.Net
