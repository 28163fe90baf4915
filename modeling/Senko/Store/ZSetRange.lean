import Senko.Store.ZSetAlgebra

/-!
# Senko — ranges of sorted sets (`commands/zset/range.rs`)

`ZRANGE` with its options, the older commands for one kind of range each, and `ZRANGESTORE`. They
share `execute_range`, which checks which options go together and runs the range on the sorted set.
-/

namespace Senko

open Command

inductive RangeSpec where
  | byRank (start stop : Int)
  | byScore (min max : ScoreBound)
  | byLex (lower upper : LexBound)

namespace RangeSpec

def isByRank : RangeSpec → Bool
  | byRank _ _ => true
  | _ => false

def isByLex : RangeSpec → Bool
  | byLex _ _ => true
  | _ => false

end RangeSpec

structure RangeEntry where
  member : CompactString
  score : Option F64

def RangeEntry.of (withscores : Bool) (e : ZSetEntry) : RangeEntry :=
  { member := e.member, score := if withscores then some e.score else none }

section Math

variable (env : Env) (math : FloatMath) (clock : Nat → Nat)

/-! ## Ranges -/

def rangeEntries (zset : ZSetObject) (reverse : Bool) : RangeSpec → Option (List ZSetEntry)
  | .byRank start stop => zset.rangeByRank env.std start stop reverse none
  | .byScore min max => zset.rangeByScore env.std min max reverse none
  | .byLex lower upper => zset.rangeByLex env.std lower upper reverse none

/-- `apply_limit` of the range commands: a count of `-1` is no limit. -/
def applyRangeLimit (entries : List ZSetEntry) :
    Option (Int × Int) → Except SenkoError (List ZSetEntry)
  | none => .ok entries
  | some (offset, count) =>
    if offset < 0 ∨ count < -1 then .error (.protocol "ERR value is out of range")
    else
      let entries := entries.drop offset.toNat
      .ok (if count = -1 then entries else entries.take count.toNat)

def limitError : SenkoError := .protocol
  "ERR syntax error, LIMIT is only supported in combination with either BYSCORE or BYLEX"

def withscoresError : SenkoError := .protocol
  "ERR syntax error, WITHSCORES not supported in combination with BYLEX"

def executeRange (zset : ZSetObject) (spec : RangeSpec) (reverse : Bool)
    (limit : Option (Int × Int)) (withscores : Bool) : Command (List RangeEntry) :=
  if spec.isByRank ∧ limit.isSome then fail limitError
  else if spec.isByLex ∧ withscores then fail withscoresError
  else do
    let entries ← unwrap (rangeEntries env zset reverse spec)
    let entries ← ofExcept (applyRangeLimit entries limit)
    pure (entries.map (RangeEntry.of withscores))

def rangeEntriesResponse (entries : List RangeEntry) : Response :=
  .array (entries.flatMap fun e =>
    memberResponse e.member :: (e.score.map (scoreResponse math)).toList)

/-! ## Bounds and options -/

def boundError : SenkoError := .protocol "ERR min or max is not a float"

def parseBoundFloat (raw : Bytes) : Except SenkoError F64 :=
  match math.fastParse raw with
  | some value => .ok value
  | none => .error boundError

def parseScoreBound (raw : Bytes) : Except SenkoError ScoreBound :=
  if isOpt raw "+inf" then .ok .posInf
  else if isOpt raw "-inf" then .ok .negInf
  else
    match raw with
    | 0x28 :: rest => (parseBoundFloat math rest).map .exclusive
    | _ => (parseBoundFloat math raw).map .inclusive

def parseLexBound : Bytes → Except SenkoError LexBound
  | [0x2b] => .ok .max
  | [0x2d] => .ok .min
  | 0x5b :: member => .ok (.inclusive member)
  | 0x28 :: member => .ok (.exclusive member)
  | _ => .error (.protocol "ERR min or max not valid string range item")

def parseRangeI64 (raw : Bytes) : Except SenkoError Int :=
  match parseI64 raw with
  | some value => .ok value
  | none => .error (.protocol "value is out of range")

structure RangeOptions where
  byscore : Bool := false
  bylex : Bool := false
  reverse : Bool := false
  limit : Option (Int × Int) := none
  withscores : Bool := false

/-- The two numbers after `LIMIT`, and what follows them. -/
def parseRangeLimit : List Frame → Except SenkoError (Int × Int)
  | offset :: count :: _ => do
    let offset ← (argBytes offset).bind parseRangeI64
    let count ← (argBytes count).bind parseRangeI64
    .ok (offset, count)
  | _ => .error zsetSyntaxError

/-- The option loop of the older commands. -/
def parseLegacyRangeTail (lex : Bool) : List Frame → RangeOptions → Except SenkoError RangeOptions
  | [], options => .ok options
  | frame :: tail, options =>
    match argBytes frame with
    | .error e => .error e
    | .ok token =>
      if isOpt token "withscores" && !lex then
        parseLegacyRangeTail lex tail { options with withscores := true }
      else if isOpt token "limit" then
        match parseRangeLimit tail, tail with
        | .error e, _ => .error e
        | .ok limit, _ :: _ :: tail =>
          parseLegacyRangeTail lex tail { options with limit := some limit }
        | .ok _, _ => .error zsetSyntaxError
      else .error zsetSyntaxError

/-! ## Commands -/

def ensureZsetTypeOrMissing (i : Nat) (key : Bytes) : Command Unit :=
  ensureTypeOrMissing env clock Store.asZset "zset" i key

/-- The range of a sorted set, or of no sorted set. -/
def rangeOrMissing (key : Bytes) (spec : RangeSpec) (reverse : Bool) (limit : Option (Int × Int))
    (withscores : Bool) : Command (List RangeEntry) := do
  match ← store fun s => s.getZset env (clock 1) key with
  | none => pure []
  | some zset => executeRange env zset spec reverse limit withscores

/-- `ZRANGEBYSCORE`, `ZRANGEBYLEX` and their reverse forms, which take the upper bound first. -/
def legacyRange (command : String) (lex reverse : Bool) : List Frame → Command Response
  | key :: start :: stop :: tail => do
    let key ← ofExcept (argBytes key)
    ensureZsetTypeOrMissing env clock 0 key
    let options ← ofExcept (parseLegacyRangeTail lex tail {})
    let (min, max) := if reverse then (stop, start) else (start, stop)
    let spec ← ofExcept (if lex then do
        let lower ← (argBytes min).bind parseLexBound
        let upper ← (argBytes max).bind parseLexBound
        .ok (.byLex lower upper)
      else do
        let min ← (argBytes min).bind (parseScoreBound math)
        let max ← (argBytes max).bind (parseScoreBound math)
        .ok (.byScore min max))
    let entries ← rangeOrMissing env clock key spec reverse options.limit
      (!lex && options.withscores)
    pure (rangeEntriesResponse math entries)
  | _ => fail (.protocol (wrongArity command))

def zrangebyscore : List Frame → Command Response :=
  legacyRange env math clock "zrangebyscore" false false

def zrangebylex : List Frame → Command Response :=
  legacyRange env math clock "zrangebylex" true false

def zrevrangebyscore : List Frame → Command Response :=
  legacyRange env math clock "zrevrangebyscore" false true

def zrevrangebylex : List Frame → Command Response :=
  legacyRange env math clock "zrevrangebylex" true true

end Math

end Senko
