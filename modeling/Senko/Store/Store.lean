import Senko.Core.Value
import Senko.Store.Expiry
import Senko.Store.Keyspace

/-!
# Senko — the store

The store's operations on one shard: lazy expiry and the LRU clock on every access, `set` with its
conditions and expiry options, the typed accessors, renaming and copying, active expiry and
eviction. A method that reads the system clock takes the reading as its argument `now`.
-/

namespace Senko

structure Entry where
  value : SenkoValue
  expiresAt : Option Nat := none
  lruClock : Nat := 0

inductive SetCondition where
  | always
  | nx
  | xx
  | ifEq (expected : Bytes)
  | ifNe (expected : Bytes)
  | ifDeq (expected : Bytes)
  | ifDne (expected : Bytes)

inductive SetExpiry where
  | none
  | ex (seconds : Nat)
  | px (milliseconds : Nat)
  | exAt (seconds : Nat)
  | pxAt (milliseconds : Nat)
  | keepTtl

structure SetOptions where
  condition : SetCondition := .always
  expiry : SetExpiry := .none
  getOld : Bool := false

structure SetResult where
  applied : Bool
  oldValue : Option SenkoValue

/-- What the store takes from its libraries: the float conversions, the hash tables, the size of an
entry in memory and the digest of a string. -/
structure Env where
  std : FloatStd
  place : Placement (Slot Entry)
  fieldPlace : Placement (CompactString × HashField SenkoValue)
  memberPlace : Placement CompactString
  entryBytes : CompactString → Entry → UInt64
  digest16Hex : Bytes → Bytes

/-- The plainest environment: tables that append, and no float syntax. -/
def Env.plain : Env where
  std := ⟨fun x _ => x, fun _ => none, fun _ => []⟩
  place := Placement.append _
  fieldPlace := Placement.append _
  memberPlace := Placement.append _
  entryBytes _ _ := 0
  digest16Hex := id

structure Store where
  keyspace : Keyspace Entry
  globalVersion : Nat := 0
  perKeyVersion : CompactString → Option Nat := fun _ => none
  expiryWheel : TimerWheel := .new 0
  fieldExpiryWheel : FieldExpiryWheel := .new 0
  clockMs : Nat := 0
  maxMemory : Option Nat := none
  usedMemory : UInt64 := 0
  evictionSeed : UInt64 := 0
  noTouch : Bool := false

def lruGranularityMs : Nat := 10000
def evictionSampleSize : Nat := 5
def memoryHighWatermarkPercent : Nat := 90

/-- `(now_ms / LRU_GRANULARITY_MS) as u32`. -/
def lruClock (nowMs : Nat) : Nat := nowMs / lruGranularityMs % 2 ^ 32

def isExpired (expiresAt : Option Nat) (nowMs : Nat) : Bool :=
  expiresAt.any fun deadline => deadline ≤ nowMs

def shouldEvict (usedMemory : UInt64) : Option Nat → Bool
  | none => false
  | some maxMemory =>
    min (maxMemory * memoryHighWatermarkPercent) u64Max < min (usedMemory.toNat * 100) u64Max

def expiryFromOption (expiry : SetExpiry) (current : Option Entry) (nowMs : Nat) : Option Nat :=
  match expiry with
  | .none => none
  | .ex seconds => some (saturatingAdd nowMs (saturatingMul seconds 1000))
  | .px milliseconds => some (saturatingAdd nowMs milliseconds)
  | .exAt seconds => some (saturatingMul seconds 1000)
  | .pxAt milliseconds => some milliseconds
  | .keepTtl => current.bind Entry.expiresAt

section Std

variable (std : FloatStd)

def conditionMatches (condition : SetCondition) (current : Option Entry) : Bool :=
  match condition with
  | .always => true
  | .nx => current.isNone
  | .xx => current.isSome
  | .ifEq expected => current.any fun e => e.value.asBytes std == expected
  | .ifNe expected => current.any fun e => e.value.asBytes std != expected
  | .ifDeq expected => current.all fun e => e.value.asBytes std == expected
  | .ifDne expected => current.all fun e => e.value.asBytes std != expected

end Std

namespace HashObject

variable {V : Type}

def fieldKey (field : CompactString × HashField V) : Bytes := field.1.bytes

def new (place : Placement (CompactString × HashField V)) : HashObject V where
  fields := place.withCapacity 0

def iterLive (h : HashObject V) (nowMs : Nat) : List (CompactString × HashField V) :=
  h.fields.items.filter fun f => !isExpired f.2.expiresAt nowMs

def len (h : HashObject V) (nowMs : Nat) : Nat :=
  if h.hasFieldExpiry then (h.iterLive nowMs).length else h.fieldCount

def isEmpty (h : HashObject V) (nowMs : Nat) : Bool := h.len nowMs == 0

/-- Set a field; `true` if it is new. -/
def set (place : Placement (CompactString × HashField V)) (h : HashObject V)
    (field : CompactString) (value : V) (expiresAt : Option Nat) : HashObject V × Bool :=
  let hasFieldExpiry := h.hasFieldExpiry || expiresAt.isSome
  if (h.fields.find fieldKey field.bytes).isSome then
    ({ h with
        fields := h.fields.modify fieldKey field.bytes fun f => (f.1, { value, expiresAt })
        hasFieldExpiry }, false)
  else
    ({ fields := place.insertUnique h.fields (field, { value, expiresAt })
       fieldCount := min (h.fieldCount + 1) (2 ^ 32 - 1)
       hasFieldExpiry }, true)

def delete (h : HashObject V) (field : Bytes) : HashObject V × Bool :=
  match h.fields.find fieldKey field with
  | none => (h, false)
  | some removed =>
    let fields := h.fields.remove fieldKey field
    ({ fields
       fieldCount := h.fieldCount - 1
       hasFieldExpiry :=
         if removed.2.expiresAt.isSome then fields.items.any fun f => f.2.expiresAt.isSome
         else h.hasFieldExpiry }, true)

/-- Look a field up, deleting it if it has expired. -/
def getMut (h : HashObject V) (field : Bytes) (nowMs : Nat) : HashObject V × Option (HashField V) :=
  match h.fields.find fieldKey field with
  | none => (h, none)
  | some f => if isExpired f.2.expiresAt nowMs then ((h.delete field).1, none) else (h, some f.2)

/-- A field holds a string, which is its own clone. -/
def clone (place : Placement (CompactString × HashField V)) (h : HashObject V) : HashObject V :=
  { h with fields := h.fields.items.foldl place.insertUnique (place.withCapacity h.fields.len) }

/-- Delete the fields that have expired. -/
def drainExpired (h : HashObject V) (nowMs : Nat) : HashObject V :=
  if h.hasFieldExpiry then
    let expired := h.fields.items.filter fun f => isExpired f.2.expiresAt nowMs
    let drained := expired.foldl (fun h f => (h.delete (fieldKey f)).1) h
    { drained with hasFieldExpiry := drained.fields.items.any fun f => f.2.expiresAt.isSome }
  else h

end HashObject

/-- A list whose walk is undefined has no clone. -/
def SenkoValue.clone (env : Env) : SenkoValue → SenkoValue
  | .hash h => .hash (h.clone env.fieldPlace)
  | .list q => .list (q.clone.getD q)
  | .set z => .set z.clone
  | .stream s => .stream s.clone
  | .zset z => .zset z.clone
  | value => value

def Entry.clone (env : Env) (entry : Entry) : Entry := { entry with value := entry.value.clone env }

namespace Store

section Env

variable (env : Env)

def new (maxMemory : Option Nat) (now : Nat) : Store where
  keyspace := Keyspace.empty env.place
  expiryWheel := .new now
  fieldExpiryWheel := .new now
  clockMs := now
  maxMemory
  evictionSeed := UInt64.ofNat now

/-! ## Slots -/

/-- The value is a hash with a field that may expire. -/
def hasFieldExpiry : SenkoValue → Bool
  | .hash hash => hash.hasFieldExpiry
  | _ => false

/-- The field wheel forgets the fields of a value that leaves its slot. -/
def tombstoneFieldExpiriesForValue (w : FieldExpiryWheel) (key : Bytes)
    (value : Option SenkoValue) :
    FieldExpiryWheel :=
  if value.any hasFieldExpiry then FieldExpiryWheel.tombstoneKey w key else w

/-- The entry that ends up in the slot: a key of the primary table is overwritten by a clone. -/
def stored (s : Store) (key : CompactString) (entry : Entry) : Entry :=
  if (s.keyspace.tables.primary.find slotKey key.bytes).isSome then entry.clone env else entry

def insertOrReplace (s : Store) (key : CompactString) (entry : Entry) : Store :=
  let old := s.keyspace.lookup key.bytes
  { s with
    keyspace := s.keyspace.insertOrReplace env.place key (s.stored env key entry)
    expiryWheel := TimerWheel.tombstone s.expiryWheel key.bytes (old.bind Entry.expiresAt)
    fieldExpiryWheel :=
      tombstoneFieldExpiriesForValue s.fieldExpiryWheel key.bytes (old.map Entry.value)
    usedMemory := s.usedMemory - (old.map (env.entryBytes key)).getD 0 + env.entryBytes key entry }

def removeSlot (s : Store) (key : Bytes) : Store × Option (Slot Entry) :=
  match s.keyspace.tables.findSlot key with
  | none => (s, none)
  | some (storedKey, entry) =>
    ({ s with
        keyspace := s.keyspace.removeSlot key
        expiryWheel := TimerWheel.tombstone s.expiryWheel storedKey.bytes entry.expiresAt
        fieldExpiryWheel :=
          tombstoneFieldExpiriesForValue s.fieldExpiryWheel storedKey.bytes (some entry.value)
        usedMemory := s.usedMemory - env.entryBytes storedKey entry }, some (storedKey, entry))

def removeEntry (s : Store) (key : Bytes) : Store × Option Entry :=
  ((s.removeSlot env key).1, (s.removeSlot env key).2.map Prod.snd)

def removeIfExpired (s : Store) (key : Bytes) (nowMs : Nat) : Store × Bool :=
  if (s.keyspace.lookup key).any fun e => isExpired e.expiresAt nowMs then
    ((s.removeEntry env key).1, true)
  else (s, false)

/-- Write through a mutable reference to the value of a key. -/
def putValue (s : Store) (key : Bytes) (value : SenkoValue) : Store :=
  { s with keyspace := s.keyspace.modifyEntry key fun e => { e with value } }

/-- `refresh_clock` and `incremental_rehash_step`, with which most writing methods start. -/
def beginWrite (s : Store) (now : Nat) : Store :=
  { s with clockMs := now, keyspace := s.keyspace.incrementalRehashStep env.place }

/-- `expiry_wheel.update_expiry`. -/
def updateExpiry (s : Store) (key : CompactString) (oldExpiresAt newExpiresAt : Option Nat) :
    Store :=
  { s with expiryWheel :=
      TimerWheel.updateExpiry s.expiryWheel key oldExpiresAt newExpiresAt }

def scheduleHashFieldExpiry (s : Store) (key field : CompactString) (expiresAt : Nat) : Store :=
  { s with fieldExpiryWheel :=
      FieldExpiryWheel.scheduleField s.fieldExpiryWheel key field expiresAt }

def scheduleFieldExpiriesForValue (s : Store) (key : CompactString) : SenkoValue → Store
  | .hash hash =>
    if hash.hasFieldExpiry then
      (hash.iterLive s.clockMs).foldl (fun s field =>
        match field.2.expiresAt with
        | some expiresAt => s.scheduleHashFieldExpiry key field.1 expiresAt
        | none => s) s
    else s
  | _ => s

/-! ## Eviction -/

def iterLiveSlots (s : Store) : List (Slot Entry) :=
  s.keyspace.tables.slots.filter fun slot => !isExpired slot.2.expiresAt s.clockMs

/-- The slot with the oldest access among the sampled ones, the first of them on a tie. -/
def oldest : List (Slot Entry) → Option (Slot Entry)
  | [] => none
  | slot :: slots =>
    some (slots.foldl (fun old s => if s.2.lruClock < old.2.lruClock then s else old) slot)

/-- `next_random_seed`; the candidate is sampled with the same step. -/
def nextRandomSeed (s : Store) : Store :=
  { s with evictionSeed := s.evictionSeed * 6364136223846793005 + (UInt64.ofNat s.clockMs ||| 1) }

def sampleEvictionCandidate (s : Store) : Store × Option CompactString :=
  let total := s.keyspace.len
  if total = 0 then (s, none)
  else
    let s := s.nextRandomSeed
    let live := s.iterLiveSlots
    let start := s.evictionSeed.toNat % total % live.length
    let sample := (live.drop start ++ live.take start).take evictionSampleSize
    (s, (oldest sample).map Prod.fst)

def maybeEvict (s : Store) : Store :=
  if shouldEvict s.usedMemory s.maxMemory then
    match s.sampleEvictionCandidate with
    | (s, some victim) => (s.removeEntry env victim.bytes).1
    | (s, none) => s
  else s

/-! ## Access -/

/-- The start of every reading method: an expired entry is removed and missing, any other has its
LRU clock set. -/
def access (s : Store) (now : Nat) (key : Bytes) : Store × Option Entry :=
  match s.keyspace.lookup key with
  | none => (s, none)
  | some e =>
    if isExpired e.expiresAt now then ((s.removeEntry env key).1, none)
    else
      let nowLru := if e.expiresAt.isSome then lruClock now else lruClock s.clockMs
      if s.noTouch then (s, some e)
      else
        ({ s with keyspace := s.keyspace.modifyEntry key fun e => { e with lruClock := nowLru } },
          some { e with lruClock := nowLru })

def get (s : Store) (now : Nat) (key : Bytes) : Store × Option SenkoValue :=
  let (s, e) := s.access env now key
  (s, e.map Entry.value)

def getCloned (s : Store) (now : Nat) (key : Bytes) : Store × Option SenkoValue :=
  let (s, value) := s.get env now key
  (s, value.map (SenkoValue.clone env))

def getMut (s : Store) (now : Nat) (key : Bytes) : Store × Option Entry := s.access env now key

/-- A typed accessor: an empty object of the type is removed and missing, and a value of another
type is missing. `project` gives the object of the type and `isEmpty` says if it is empty. -/
def getTyped {α : Type} (project : SenkoValue → Option α) (isEmpty : α → Bool) (s : Store)
    (now : Nat) (key : Bytes) : Store × Option α :=
  match s.access env now key with
  | (s, none) => (s, none)
  | (s, some e) =>
    match project e.value with
    | none => (s, none)
    | some object => if isEmpty object then ((s.removeEntry env key).1, none) else (s, some object)

def asHash : SenkoValue → Option (HashObject SenkoValue)
  | .hash hash => some hash
  | _ => none

def asList : SenkoValue → Option QuickList
  | .list list => some list
  | _ => none

def asSet : SenkoValue → Option SetObject
  | .set set => some set
  | _ => none

def asStream : SenkoValue → Option StreamObject
  | .stream stream => some stream
  | _ => none

def asZset : SenkoValue → Option ZSetObject
  | .zset zset => some zset
  | _ => none

def getHashMut (s : Store) (now : Nat) (key : Bytes) : Store × Option (HashObject SenkoValue) :=
  getTyped env asHash (fun hash => hash.isEmpty s.clockMs) s now key

def getList (s : Store) (now : Nat) (key : Bytes) : Store × Option QuickList :=
  getTyped env asList QuickList.isEmpty s now key

def getListMut (s : Store) (now : Nat) (key : Bytes) : Store × Option QuickList :=
  getTyped env asList QuickList.isEmpty s now key

/-- An empty stream stays. -/
def getStream (s : Store) (now : Nat) (key : Bytes) : Store × Option StreamObject :=
  getTyped env asStream (fun _ => false) s now key

def getStreamMut (s : Store) (now : Nat) (key : Bytes) : Store × Option StreamObject :=
  getTyped env asStream (fun _ => false) s now key

def getZset (s : Store) (now : Nat) (key : Bytes) : Store × Option ZSetObject :=
  getTyped env asZset ZSetObject.isEmpty s now key

/-- `get_or_create_*`: a missing value, or one of another type, is replaced by a fresh object. -/
def getOrCreate {α : Type} (project : SenkoValue → Option α) (fresh : SenkoValue) (s : Store)
    (now : Nat) (key : CompactString) : Store × Option α :=
  let s := s.beginWrite env now
  let (s, _) := s.removeIfExpired env key.bytes s.clockMs
  let existing := (s.keyspace.lookup key.bytes).bind fun e => project e.value
  let s :=
    if existing.isSome then s
    else s.insertOrReplace env key { value := fresh, lruClock := lruClock s.clockMs }
  (s, (s.keyspace.lookup key.bytes).bind fun e => project e.value)

def getOrCreateHash (s : Store) (now : Nat) (key : CompactString) :
    Store × Option (HashObject SenkoValue) :=
  getOrCreate env asHash (.hash (HashObject.new env.fieldPlace)) s now key

def getOrCreateList (s : Store) (now : Nat) (key : CompactString) : Store × Option QuickList :=
  getOrCreate env asList (.list QuickList.default) s now key

def getOrCreateStream (s : Store) (now : Nat) (key : CompactString) :
    Store × Option StreamObject :=
  getOrCreate env asStream (.stream {}) s now key

/-- `remove_*_if_empty`. -/
def removeIfEmpty {α : Type} (project : SenkoValue → Option α) (isEmpty : α → Bool) (s : Store)
    (key : Bytes) : Store :=
  if (s.keyspace.lookup key).any fun e => (project e.value).any isEmpty then
    (s.removeEntry env key).1
  else s

def removeListIfEmpty (s : Store) (key : Bytes) : Store :=
  removeIfEmpty env asList QuickList.isEmpty s key

/-! ## Writing and deleting a key -/

def maybeStartResize (s : Store) : Store :=
  { s with keyspace := s.keyspace.maybeStartResize env.place }

/-- `set` up to its last call, of `maybe_evict`. -/
def write (s : Store) (now : Nat) (key : CompactString) (value : SenkoValue) (opts : SetOptions) :
    Store × SetResult :=
  let s := s.beginWrite env now
  let (s, _) := s.removeIfExpired env key.bytes s.clockMs
  let existing := s.keyspace.lookup key.bytes
  let oldValue := if opts.getOld then existing.map fun e => e.value.clone env else none
  if conditionMatches env.std opts.condition existing then
    let expiresAt := expiryFromOption opts.expiry existing s.clockMs
    let s := s.insertOrReplace env key { value, expiresAt, lruClock := lruClock s.clockMs }
    let s := s.updateExpiry key none expiresAt
    (s.maybeStartResize env, { applied := true, oldValue })
  else (s, { applied := false, oldValue })

def set (s : Store) (now : Nat) (key : CompactString) (value : SenkoValue) (opts : SetOptions) :
    Store × SetResult :=
  let (s, result) := s.write env now key value opts
  (if result.applied then s.maybeEvict env else s, result)

def delete (s : Store) (now : Nat) (key : Bytes) : Store × Bool :=
  let s := s.beginWrite env now
  let (s, _) := s.removeIfExpired env key s.clockMs
  let (s, removed) := s.removeEntry env key
  (s, removed.isSome)

/-- Put an entry with the value and the deadline under a key and schedule its own deadline and those
of the fields of `scheduled`: the common end of `rename` and `copy_from_entry`. -/
def putScheduled (s : Store) (dest : CompactString) (value scheduled : SenkoValue)
    (expiresAt : Option Nat) : Store :=
  let s := s.insertOrReplace env dest { value, expiresAt, lruClock := lruClock s.clockMs }
  let s := s.updateExpiry dest none expiresAt
  let s := s.scheduleFieldExpiriesForValue dest scheduled
  s.maybeStartResize env

/-- The types of the renamed and of the overwritten value. -/
def rename (s : Store) (now : Nat) (source : Bytes) (dest : CompactString) :
    Store × Option (String × Option String) :=
  let s := s.beginWrite env now
  match s.removeIfExpired env source s.clockMs with
  | (s, true) => (s, none)
  | (s, false) =>
    let (s, _) := s.removeIfExpired env dest.bytes s.clockMs
    match s.removeSlot env source with
    | (s, none) => (s, none)
    | (s, some (_, entry)) =>
      let (s, overwritten) := s.removeEntry env dest.bytes
      (s.putScheduled env dest entry.value entry.value entry.expiresAt,
        some (entry.value.typeName, overwritten.map fun e => e.value.typeName))

/-- `copy_from_entry` up to its last call, with the type of the overwritten value. A clone of the
new entry is stored, and the value of the new entry is itself a clone. -/
def copyEntry (s : Store) (now : Nat) (dest : CompactString) (sourceEntry : Entry)
    (newExpiresAt : Option Nat) : Store × Option String :=
  let s := s.beginWrite env now
  let (s, _) := s.removeIfExpired env dest.bytes s.clockMs
  let (s, overwritten) := s.removeEntry env dest.bytes
  let value := sourceEntry.value.clone env
  (s.putScheduled env dest (value.clone env) value newExpiresAt,
    overwritten.map fun e => e.value.typeName)

def copyFromEntry (s : Store) (now : Nat) (dest : CompactString) (sourceEntry : Entry)
    (newExpiresAt : Option Nat) : Store × Option String :=
  let (s, overwritten) := s.copyEntry env now dest sourceEntry newExpiresAt
  (s.maybeEvict env, overwritten)

/-! ## Deadlines -/

/-- Give the entry of a key another deadline, or none: `set_expiry` and `remove_expiry`. -/
def changeExpiry (s : Store) (now : Nat) (key : Bytes) (expiresAt : Option Nat) : Store :=
  let s := s.beginWrite env now
  match s.removeIfExpired env key s.clockMs with
  | (s, true) => s
  | (s, false) =>
    match s.keyspace.tables.findSlot key with
    | none => s
    | some (storedKey, entry) =>
      let s := { s with keyspace := s.keyspace.modifyEntry key fun e => { e with expiresAt } }
      s.updateExpiry storedKey entry.expiresAt expiresAt

def setExpiry (s : Store) (now : Nat) (key : Bytes) (expiresAt : Nat) : Store :=
  s.changeExpiry env now key (some expiresAt)

def removeExpiry (s : Store) (now : Nat) (key : Bytes) : Store := s.changeExpiry env now key none

def «exists» (s : Store) (now : Nat) (key : Bytes) : Bool :=
  (s.keyspace.lookup key).any fun e => !isExpired e.expiresAt now

/-- `as i64` of a `u64`. -/
def asI64 (n : Nat) : Int := if n < 2 ^ 63 then n else n - 2 ^ 64

def ttlMs (s : Store) (now : Nat) (key : Bytes) : Option Int :=
  (s.keyspace.lookup key).bind fun e =>
    match e.expiresAt with
    | none => some (-1)
    | some deadline => if deadline ≤ now then none else some (asI64 (deadline - now))

def cloneEntry (s : Store) (now : Nat) (key : Bytes) : Store × Option Entry :=
  let s := s.beginWrite env now
  match s.removeIfExpired env key s.clockMs with
  | (s, true) => (s, none)
  | (s, false) => (s, (s.keyspace.lookup key).map (Entry.clone env))

def entryCount (s : Store) : Nat :=
  s.keyspace.tables.primary.len + (s.keyspace.tables.resize.map fun r => r.table.len).getD 0

/-- Change the hash of a key in place, and delete the key if the hash is empty afterwards. A value
of another type is left alone. -/
def sweepHash (s : Store) (key : Bytes)
    (f : HashObject SenkoValue → HashObject SenkoValue) : Store × Bool :=
  match (s.keyspace.lookup key).bind fun e => asHash e.value with
  | none => (s, false)
  | some hash =>
    let s := s.putValue key (.hash (f hash))
    if (f hash).isEmpty s.clockMs then
      let (s, removed) := s.removeEntry env key
      (s, removed.isSome)
    else (s, false)

/-- Run a method for every item and count the runs that deleted a key. -/
def countDeleted {α : Type} (f : Store → α → Store × Bool) (items : List α) (s : Store)
    (deleted : Nat) : Store × Nat :=
  items.foldl (fun (s, deleted) item =>
    let (s, removed) := f s item
    (s, if removed then deleted + 1 else deleted)) (s, deleted)

/-- The keys whose hash has a field that may expire. -/
def keysWithFieldTtl (s : Store) : List CompactString :=
  (s.keyspace.tables.slots.filter fun slot => hasFieldExpiry slot.2.value).map Prod.fst

/-- The clock and both wheels move; the keys and the fields that the wheels hand out. -/
def advanceWheels (s : Store) (nowMs : Nat) :
    Store × List CompactString × List (CompactString × CompactString) :=
  let s := s.beginWrite env (max s.clockMs nowMs)
  let (expiryWheel, expired) := s.expiryWheel.advance s.clockMs
  let (fieldExpiryWheel, expiredFields) := s.fieldExpiryWheel.advance s.clockMs
  ({ s with expiryWheel, fieldExpiryWheel }, expired, expiredFields)

def advanceExpiryWheel (s : Store) (nowMs : Nat) : Store × Nat :=
  let (s, expired, expiredFields) := s.advanceWheels env nowMs
  let (s, deleted) := countDeleted (fun s (key : CompactString) =>
    s.removeIfExpired env key.bytes s.clockMs) expired s 0
  let (s, deleted) := countDeleted (fun s (item : CompactString × CompactString) =>
    s.sweepHash env item.1.bytes fun hash => (hash.getMut item.2.bytes s.clockMs).1)
    expiredFields s deleted
  countDeleted (fun s (key : CompactString) =>
    s.sweepHash env key.bytes fun hash => hash.drainExpired s.clockMs) s.keysWithFieldTtl s deleted

end Env

end Store

end Senko
