import Senko.Core.QuickListRun
import Senko.Store.StoredObjects

/-!
# Senko — reading back what was written

A string, a list element or a hash field is written by a command and read by the next one. As long
as the value is neither evicted nor expired in between, and the node that an element is pushed to
can hold it, the read gives the bytes that the encoding of the string prints. These are the bytes
written exactly if the string is spelled as it is printed.
-/

namespace Senko

open Command List Store SenkoValue QuickList HashObject KeyMap Function

variable {s s' : Store} {expiresAt : Option Nat} {side : Side} {command : String}
  {pairs : List (Bytes × Bytes)} {i now : Nat} {k f : CompactString} {q q' : QuickList}
  {l : List Bytes} {reply : Response} {key element field : Bytes} {V : Type} {h : HashObject V}
  {place : Placement (CompactString × HashField V)} {v : V} {clock' : Nat → Nat}

variable {env : Env} {clock : Nat → Nat}

/-! ## Writing a string -/

section Runs

variable {value : Bytes}

/-- The arguments of `MSET`. -/
def pairFrames (pairs : List (Bytes × Bytes)) : List Frame :=
  pairs.flatMap fun p => [.bulkString p.1, .bulkString p.2]

end Runs

/-! ## Pushing an element -/

section Hashes

variable {value : Bytes}

namespace HashObject

/-- Fields are distinct, and the count is zero only for an empty hash. -/
def Counted (h : HashObject V) : Prop :=
  (h.fields.items.map fieldKey).Nodup ∧ (h.fieldCount = 0 → h.fields.items = [])

end HashObject

end Hashes

/-! ## Writes and the reads that follow them -/

/-- The commands that write one string, with their arguments. -/
inductive Write where
  | set (key value : Bytes)
  | setnx (key value : Bytes)
  | setex (key seconds value : Bytes)
  | psetex (key milliseconds value : Bytes)
  | getset (key value : Bytes)
  | mset (before : List (Bytes × Bytes)) (key value : Bytes) (after : List (Bytes × Bytes))
  | lpush (key element : Bytes)
  | rpush (key element : Bytes)
  | hset (key field value : Bytes)

namespace Write

/-- The string that is written. -/
def value : Write → Bytes
  | set _ value | setnx _ value | setex _ _ value | psetex _ _ value | getset _ value
  | mset _ _ value _ | lpush _ value | rpush _ value | hset _ _ value => value

section Run

variable (env : Env) (clock : Nat → Nat)

def run : Write → Command Response
  | set key value => Senko.set env clock [.bulkString key, .bulkString value]
  | setnx key value => Senko.setnx env clock [.bulkString key, .bulkString value]
  | setex key seconds value =>
    Senko.setex env clock [.bulkString key, .bulkString seconds, .bulkString value]
  | psetex key milliseconds value =>
    Senko.psetex env clock [.bulkString key, .bulkString milliseconds, .bulkString value]
  | getset key value => Senko.getset env clock [.bulkString key, .bulkString value]
  | mset before key value after =>
    Senko.mset env clock (pairFrames (before ++ (key, value) :: after))
  | lpush key element => Senko.lpush env clock [.bulkString key, .bulkString element]
  | rpush key element => Senko.rpush env clock [.bulkString key, .bulkString element]
  | hset key field value =>
    Senko.hset env clock [.bulkString key, .bulkString field, .bulkString value]

/-- `GET key`, `LRANGE key 0 0`, `LRANGE key -1 -1` or `HGET key field`. -/
def read : Write → Command Response
  | set key _ | setnx key _ | setex key _ _ | psetex key _ _ | getset key _ | mset _ key _ _ =>
    get env clock [.bulkString key]
  | lpush key _ =>
    lrange env clock [.bulkString key, .bulkString (ascii "0"), .bulkString (ascii "0")]
  | rpush key _ =>
    lrange env clock [.bulkString key, .bulkString (ascii "-1"), .bulkString (ascii "-1")]
  | hset key field _ => hget env clock [.bulkString key, .bulkString field]

end Run

/-- The key is neither evicted nor expired when it is read, at the given number of further readings
of the clock. -/
def Present (s : Store) (clock : Nat → Nat) (further : Nat) (key : Bytes) : Prop :=
  ∀ n ≤ further, (s.keyMap.live (clock n) key).isSome = true

theorem Present.isExpired {further : Nat} {value : SenkoValue} (h : Present s clock further key)
    (hstored : s.keyMap key = some (value, expiresAt)) :
    ∀ n, n ≤ further → isExpired expiresAt (clock n) = false := by
  intro n hn
  have hlive := h n hn
  rw [KeyMap.live, hstored, Option.isSome_filter] at hlive
  simpa using hlive

theorem Present.stored {further : Nat} {stored : Option (SenkoValue × Option Nat)}
    (h : Present s clock further key) (hcase : s.keyMap key = stored ∨ s.keyMap key = none) :
    s.keyMap key = stored := by
  refine hcase.resolve_right fun hnone => ?_
  have hlive := h 0 (Nat.zero_le _)
  rw [KeyMap.live, hnone] at hlive
  cases hlive

end Write

end Senko
