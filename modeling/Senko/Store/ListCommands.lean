import Senko.Store.Commands

/-!
# Senko — moves between lists (`commands/list`)

`LMOVE` and `RPOPLPUSH`, and their blocking forms. A command checks the type with one look-up of the
key and fetches the list with another one, and it expects that the list is still there.
-/

namespace Senko

open Command

section Lists

variable (env : Env) (clock : Nat → Nat)

/-! ## Fetching and storing -/

/-- `true` for a list and `false` for a missing key, with the `i`-th reading of the clock. -/
def checkList (i : Nat) (key : Bytes) : Command Bool := do
  match ← store fun s => s.get env (clock i) key with
  | none => pure false
  | some (.list _) => pure true
  | some other => fail (wrongListType other)

/-- `get_list_mut(..).expect(..)` -/
def expectListMut (i : Nat) (key : Bytes) : Command QuickList := do
  let list ← store fun s => s.getListMut env (clock i) key
  unwrap list

/-- What has been done to the list behind the reference. -/
def putList (key : Bytes) (list : QuickList) : Command Unit :=
  store fun s => (s.putValue key (.list list), ())

def removeListIfEmpty (key : Bytes) : Command Unit :=
  store fun s => (s.removeListIfEmpty env key, ())

def popFrom (list : QuickList) (side : Side) : Option (QuickList × Option Bytes) :=
  match side with
  | .left => list.popFront
  | .right => list.popBack

def parseSide (raw : Bytes) : Except SenkoError Side :=
  if isOpt raw "LEFT" then .ok .left
  else if isOpt raw "RIGHT" then .ok .right
  else .error syntaxError

/-! ## Moves -/

/-- The second half of a move to another key, with the `i`-th reading of the clock: the destination
is fetched or created, and the source is removed if it is empty now. -/
def pushMoved (i : Nat) (source destination : Bytes) (side : Side) (value : Bytes) :
    Command Unit := do
  let key ← ofExcept (parseKey destination)
  let list ← unwrap (← store fun s => s.getOrCreateList env (clock i) key)
  let list ← unwrap (pushTo list side value)
  putList key.bytes list
  removeListIfEmpty env source

/-- `move_one` of `LMOVE` and `RPOPLPUSH`. -/
def moveOne (source destination : Bytes) (srcSide dstSide : Side) : Command Response := do
  if ← checkList env clock 0 source then
    if source = destination then do
      let list ← expectListMut env clock 1 source
      let (list, value) ← unwrap (popFrom list srcSide)
      match value with
      | none => do
        putList source list
        removeListIfEmpty env source
        pure (.value none)
      | some value => do
        let list ← unwrap (pushTo list dstSide value)
        putList source list
        pure (rawResponse value)
    else do
      let _ ← checkList env clock 1 destination
      let list ← expectListMut env clock 2 source
      let (list, value) ← unwrap (popFrom list srcSide)
      putList source list
      match value with
      | none => do
        removeListIfEmpty env source
        pure (.value none)
      | some value => do
        pushMoved env clock 3 source destination dstSide value
        removeListIfEmpty env source
        pure (rawResponse value)
  else pure (.value none)

structure MoveArgs where
  source : Bytes
  destination : Bytes
  srcSide : Side
  dstSide : Side

def parseLmove : List Frame → Except SenkoError MoveArgs
  | [source, destination, srcSide, dstSide] => do
    let source ← argBytes source
    let destination ← argBytes destination
    let srcSide ← (argBytes srcSide).bind parseSide
    let dstSide ← (argBytes dstSide).bind parseSide
    .ok { source, destination, srcSide, dstSide }
  | _ => .error (.protocol (wrongArity "lmove"))

def lmove (args : List Frame) : Command Response := do
  let move ← ofExcept (parseLmove args)
  moveOne env clock move.source move.destination move.srcSide move.dstSide

def parseRpoplpush : List Frame → Except SenkoError MoveArgs
  | [source, destination] => do
    let source ← argBytes source
    let destination ← argBytes destination
    .ok { source, destination, srcSide := .right, dstSide := .left }
  | _ => .error (.protocol (wrongArity "rpoplpush"))

def rpoplpush (args : List Frame) : Command Response := do
  let move ← ofExcept (parseRpoplpush args)
  moveOne env clock move.source move.destination move.srcSide move.dstSide

/-! ## Blocking moves (`commands/list/blocking.rs`) -/

/-- What a blocked client does once it is served; the pops are left out. -/
inductive BlockingOp where
  | move (dest : CompactString) (srcDir dstDir : Side)
  | moveDeprecated (dest : CompactString)

structure BlockSpec where
  keys : List CompactString
  /-- In milliseconds. -/
  timeout : Option Nat
  op : BlockingOp
  timeoutResponse : BlockingResponseKind

/-- Parse a number of seconds; `ceilMs` is `(value * 1000.0).ceil() as u64`. -/
def parseTimeout (ceilMs : F64 → Nat) (raw : Bytes) : Except SenkoError (Option Nat) :=
  let value := if validUtf8 raw then env.std.parse raw else none
  match value.filter fun value => F64.zero.le value with
  | none => .error (.protocol "timeout is not a float or out of range")
  | some value => .ok (if value.eq F64.zero then none else some (max (ceilMs value) 1))

/-- `get_list_mut(..).ok_or_else(..)` -/
def listMutOr (message : String) (i : Nat) (key : Bytes) : Command QuickList := do
  match ← store fun s => s.getListMut env (clock i) key with
  | none => fail (.storage message)
  | some list => pure list

/-- `move_now`, with the readings of the clock from the `i`-th on. -/
def moveNow (i : Nat) (source destination : Bytes) (srcDir dstDir : Side) : Command Response := do
  let list ← listMutOr env clock "missing list for blocked move" i source
  let (list, moved) ← unwrap (popFrom list srcDir)
  if source = destination then
    match moved with
    | none => do
      putList source list
      pure (.value none)
    | some value => do
      let list ← unwrap (pushTo list dstDir value)
      putList source list
      pure (rawResponse value)
  else do
    putList source list
    match moved with
    | none => do
      removeListIfEmpty env source
      pure (.value none)
    | some value => do
      pushMoved env clock (i + 1) source destination dstDir value
      pure (rawResponse value)

/-- A source that is a list with elements. -/
def readyToMove : Option SenkoValue → Except SenkoError Bool
  | none => .ok false
  | some (.list list) => .ok (!list.isEmpty)
  | some other => .error (wrongListType other)

/-- Nothing to move yet: the client waits for the source. -/
def waitForSource (source : Bytes) (destination : CompactString) (timeout : Option Nat)
    (op : BlockingOp) : Command (BlockingCommandResult BlockSpec) := do
  let _ ← checkList env clock 1 destination.bytes
  let key ← ofExcept (parseKey source)
  pure (.block { keys := [key], timeout, op, timeoutResponse := .nullBulk })

/-- `BLMOVE` and `BRPOPLPUSH` after their arguments have been parsed. -/
def blockingMove (move : MoveArgs) (destination : CompactString) (timeout : Option Nat)
    (op : BlockingOp) : Command (BlockingCommandResult BlockSpec) := do
  let source ← store fun s => s.get env (clock 0) move.source
  let ready ← ofExcept (readyToMove source)
  if ready then do
    let response ← moveNow env clock 1 move.source destination.bytes move.srcSide move.dstSide
    pure (.immediate response)
  else waitForSource env clock move.source destination timeout op

/-- The arguments of `BLMOVE` and the destination as a key. -/
def parseBlmove (ceilMs : F64 → Nat) :
    List Frame → Except SenkoError (MoveArgs × CompactString × Option Nat)
  | [source, destination, srcDir, dstDir, timeout] => do
    let source ← argBytes source
    let destination ← (argBytes destination).bind parseKey
    let srcSide ← (argBytes srcDir).bind parseSide
    let dstSide ← (argBytes dstDir).bind parseSide
    let timeout ← (argBytes timeout).bind (parseTimeout env ceilMs)
    .ok ({ source, destination := destination.bytes, srcSide, dstSide }, destination, timeout)
  | _ => .error (.protocol (wrongArity "blmove"))

def blmove (ceilMs : F64 → Nat) (args : List Frame) :
    Command (BlockingCommandResult BlockSpec) := do
  let (move, destination, timeout) ← ofExcept (parseBlmove env ceilMs args)
  blockingMove env clock move destination timeout (.move destination move.srcSide move.dstSide)

def parseBrpoplpush (ceilMs : F64 → Nat) :
    List Frame → Except SenkoError (MoveArgs × CompactString × Option Nat)
  | [source, destination, timeout] => do
    let source ← argBytes source
    let destination ← (argBytes destination).bind parseKey
    let timeout ← (argBytes timeout).bind (parseTimeout env ceilMs)
    .ok ({ source, destination := destination.bytes, srcSide := .right, dstSide := .left },
      destination, timeout)
  | _ => .error (.protocol (wrongArity "brpoplpush"))

def brpoplpush (ceilMs : F64 → Nat) (args : List Frame) :
    Command (BlockingCommandResult BlockSpec) := do
  let (move, destination, timeout) ← ofExcept (parseBrpoplpush env ceilMs args)
  blockingMove env clock move destination timeout (.moveDeprecated destination)

end Lists

end Senko
