import Senko.Core.SetRebuild
import Senko.Store.SetAlgebra

/-!
# Senko — set commands (`commands/set/algebra.rs`)

The commands that combine sets. The sets are read one after the other, each with its own reading of
the clock, and a result is returned, counted or stored under a destination key.
-/

namespace Senko

open Command

section Commands

variable (env : Env) (bytesPlace : Placement Bytes) (textPlace : Placement CompactString)
  (clock : Nat → Nat)

def bytesArrayResponse (values : List Bytes) : Response :=
  .array (values.map fun value => .value (some (.raw value)))

def collectSetKeys (expected : String) : List Frame → Command (List (Option SetObject)) :=
  collectObjects env clock Store.asSet expected 0

/-- A result is stored as a new set, and an empty one deletes the key. The reply is the length of
the new set. -/
def storeSetResult (now : Nat) (destination : CompactString) (members : List Bytes) :
    Command Nat := do
  if members = [] then
    let _ ← store fun s => s.delete env now destination.bytes
    pure 0
  else
    let result := SetObject.new.addAll env.memberPlace members
    let _ ← store fun s => s.set env now destination (.set result) {}
    pure result.len

/-- The commands that return the members of a result. -/
def setAlgebra (command : String) (compute : List (Option SetObject) → Option (List Bytes))
    (args : List Frame) : Command Response :=
  if args = [] then fail (.protocol (wrongArity command))
  else do
    let sets ← collectSetKeys env clock "set" args
    let result ← unwrap (compute sets)
    pure (bytesArrayResponse result)

/-- The commands that store a result. -/
def setAlgebraStore (command : String) (compute : List (Option SetObject) → Option (List Bytes)) :
    List Frame → Command Response
  | destination :: keys@(_ :: _) => do
    let destination ← ofExcept (argBytes destination)
    let sets ← collectSetKeys env clock "set" keys
    let result ← unwrap (compute sets)
    let len ← storeSetResult env (clock keys.length) (parseCompact destination) result
    pure (.integer len)
  | _ => fail (.protocol (wrongArity command))

def sdiff : List Frame → Command Response :=
  setAlgebra env clock "sdiff" (computeSdiff bytesPlace textPlace)

def sdiffstore : List Frame → Command Response :=
  setAlgebraStore env clock "sdiffstore" (computeSdiff bytesPlace textPlace)

def sinter : List Frame → Command Response :=
  setAlgebra env clock "sinter" fun sets => computeSinter textPlace sets none

def sinterstore : List Frame → Command Response :=
  setAlgebraStore env clock "sinterstore" fun sets => computeSinter textPlace sets none

def sunion : List Frame → Command Response :=
  setAlgebra env clock "sunion" (computeSunion bytesPlace textPlace)

def sunionstore : List Frame → Command Response :=
  setAlgebraStore env clock "sunionstore" (computeSunion bytesPlace textPlace)

/-- `parse_i64` of the set commands. -/
def parseSetI64 (raw : Bytes) : Except SenkoError Int :=
  match parseI64 raw with
  | some value => .ok value
  | none => .error (.protocol "value is out of range")

/-- What follows the keys of `SINTERCARD`. -/
def parseCardLimit : List Frame → Except SenkoError (Option Nat)
  | [] => .ok none
  | [token, limit] => do
    let token ← argBytes token
    if isOpt token "LIMIT" then
      let limit ← (argBytes limit).bind parseSetI64
      .ok (some limit.toNat)
    else .error syntaxError
  | _ => .error syntaxError

def sintercard (args : List Frame) : Command Response :=
  match args with
  | numkeys :: rest@(_ :: _) => do
    let numkeys ← ofExcept ((argBytes numkeys).bind parseSetI64)
    if numkeys ≤ 0 then fail (.protocol "numkeys should be greater than 0")
    else if rest.length < numkeys then fail syntaxError
    else do
      let limit ← ofExcept (parseCardLimit (rest.drop numkeys.toNat))
      let sets ← collectSetKeys env clock "set" (rest.take numkeys.toNat)
      let result ← unwrap (computeSinter textPlace sets (limit.filter fun limit => 0 < limit))
      pure (.integer result.length)
  | _ => fail (.protocol (wrongArity "sintercard"))

end Commands

end Senko
