import Senko.Core.Score
import Senko.Store.Command

/-!
# Senko — sorted-set algebra (`commands/zset/algebra.rs`)

The size of an intersection of sorted sets, and what the sorted-set commands share: their number of
keys, the sets they read and a new set made of entries. `none` is a panic of a sorted set.
-/

namespace Senko

open Command

section Math

variable (env : Env) (math : FloatMath) (clock : Nat → Nat)

def zsetEntries (set : ZSetObject) : Option (List ZSetEntry) :=
  set.rangeByRank env.std 0 (-1) false none

/-! ## The intersection -/

/-- All sets have the member of an entry. -/
def inEverySet (sets : List ZSetObject) (e : ZSetEntry) : Bool :=
  sets.all fun set => (set.score env.std e.member.bytes).isSome

/-- Members of the base that all other sets have are counted, up to a limit that is not zero. -/
def zintercardLoop (limit : Nat) (others : List ZSetObject) : Nat → List ZSetEntry → Nat
  | count, [] => count
  | count, e :: entries =>
    if inEverySet env others e then
      if 0 < limit ∧ limit ≤ count + 1 then count + 1
      else zintercardLoop limit others (count + 1) entries
    else zintercardLoop limit others count entries

def computeZintercard (sets : List (Option ZSetObject)) (limit : Nat) : Option Nat :=
  if sets = [] ∨ sets.any Option.isNone then some 0
  else
    match sets.reduceOption.insertionSort fun a b => a.len ≤ b.len with
    | [] => some 0
    | base :: rest =>
      if base.isEmpty then some 0
      else do
        let entries ← zsetEntries env base
        some (zintercardLoop env limit rest 0 entries)

/-! ## Arguments -/

def parseNonNegativeI64 (raw : Bytes) : Except SenkoError Nat :=
  match (parseI64 raw).filter fun value => decide (0 ≤ value) with
  | some value => .ok value.toNat
  | none => .error (.protocol "value is out of range")

def zsetSyntaxError : SenkoError := .protocol "ERR syntax error"

/-- The keys and what follows them. -/
def parseNumkeySources (numkeys : Frame) (rest : List Frame) :
    Except SenkoError (List Frame × List Frame) := do
  let numkeys ← (argBytes numkeys).bind parseNonNegativeI64
  if numkeys = 0 then .error (.protocolMessage "ERR numkeys should be greater than 0")
  else if rest.length < numkeys then
    .error (.protocolMessage "ERR numkeys does not match number of keys")
  else .ok (rest.take numkeys, rest.drop numkeys)

/-! ## Commands -/

def collectZsetKeys : List Frame → Command (List (Option ZSetObject)) :=
  collectObjects env clock Store.asZset "zset" 0

def scoreResponse (score : F64) : Response := .value (some (.raw (formattedScore math score)))

def memberResponse (member : CompactString) : Response := .value (some (.raw member.bytes))

/-- A new sorted set with the entries. -/
def zsetOf (entries : List ZSetEntry) : Option ZSetObject :=
  entries.foldlM (fun z e => (z.add env.std e.score e.member {}).map Prod.fst) ZSetObject.new

/-- What follows the keys of `ZINTERCARD`. -/
def parseZintercardLimit : List Frame → Except SenkoError (Option Nat)
  | [] => .ok none
  | [token, value] => do
    let token ← argBytes token
    if isOpt token "limit" then (argBytes value).bind fun value =>
      (parseNonNegativeI64 value).map some
    else .error zsetSyntaxError
  | _ => .error zsetSyntaxError

def zintercard : List Frame → Command Response
  | numkeys :: rest@(_ :: _) => do
    let (keys, tail) ← ofExcept (parseNumkeySources numkeys rest)
    let limit ← ofExcept (parseZintercardLimit tail)
    let sets ← collectZsetKeys env clock keys
    let count ← unwrap (computeZintercard env sets (limit.getD 0))
    pure (.integer count)
  | _ => fail (.protocol (wrongArity "zintercard"))

end Math

end Senko
