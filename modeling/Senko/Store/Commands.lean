import Senko.Store.Command

/-!
# Senko — string, list and hash commands

The commands that write a single string, list element or hash field, and those that read it back.
-/

namespace Senko

open Command

section Commands

variable (env : Env) (clock : Nat → Nat)

def okResponse : Response := .simple (ascii "OK")

/-! ## Strings -/

def get : List Frame → Command Response
  | [key] => do
    let key ← ofExcept (argBytes key)
    match ← store fun s => s.getCloned env (clock 0) key with
    | none => pure (.value none)
    | some value => do
      ofExcept (ensureStringValue value)
      pure (.value (some value))
  | _ => fail (.protocol (wrongArity "get"))

inductive ParsedCondition where
  | always
  | nx
  | xx
  | ifEq (expected : Bytes)
  | ifNe (expected : Bytes)
  | ifDeq (digest : Bytes)
  | ifDne (digest : Bytes)

/-- The options of `SET` read so far. -/
structure SetArgs where
  condition : Option ParsedCondition := none
  expiry : Option SetExpiry := none
  getOld : Bool := false

def parseDigest (raw : Bytes) : Except SenkoError Bytes :=
  if raw.length ≠ 16 then .error (.protocol "must be exactly 16 hexadecimal characters")
  else .ok (raw.map toAsciiLowercase)

def isConditionOpt (token : Bytes) : Bool :=
  isOpt token "NX" || isOpt token "XX" || isOpt token "IFEQ" || isOpt token "IFNE" ||
    isOpt token "IFDEQ" || isOpt token "IFDNE"

def isExpiryOpt (token : Bytes) : Bool :=
  isOpt token "EX" || isOpt token "PX" || isOpt token "EXAT" || isOpt token "PXAT" ||
    isOpt token "KEEPTTL"

/-- The condition that takes a value. -/
def parseConditionValue (token value : Bytes) : Except SenkoError ParsedCondition :=
  if isOpt token "IFEQ" then .ok (.ifEq value)
  else if isOpt token "IFNE" then .ok (.ifNe value)
  else if isOpt token "IFDEQ" then (parseDigest value).map .ifDeq
  else (parseDigest value).map .ifDne

def parseExpiryValue (token : Bytes) (parsed : Nat) : SetExpiry :=
  if isOpt token "EX" then .ex parsed
  else if isOpt token "PX" then .px parsed
  else if isOpt token "EXAT" then .exAt parsed
  else .pxAt parsed

/-- The option loop of `SET`. -/
def parseSetArgs : List Frame → SetArgs → Except SenkoError SetArgs
  | [], opts => .ok opts
  | frame :: rest, opts =>
    match argBytes frame with
    | .error e => .error e
    | .ok token =>
      if isOpt token "GET" then
        if opts.getOld then .error syntaxError else parseSetArgs rest { opts with getOld := true }
      else if isConditionOpt token then
        if opts.condition.isSome then .error syntaxError
        else if isOpt token "NX" then parseSetArgs rest { opts with condition := some .nx }
        else if isOpt token "XX" then parseSetArgs rest { opts with condition := some .xx }
        else
          match rest with
          | [] => .error syntaxError
          | value :: rest =>
            match (argBytes value).bind (parseConditionValue token) with
            | .error e => .error e
            | .ok condition => parseSetArgs rest { opts with condition := some condition }
      else if isExpiryOpt token then
        if opts.expiry.isSome then .error syntaxError
        else if isOpt token "KEEPTTL" then parseSetArgs rest { opts with expiry := some .keepTtl }
        else
          match rest with
          | [] => .error syntaxError
          | raw :: rest =>
            match (argBytes raw).bind fun raw => parsePositiveU64 raw "set" with
            | .error e => .error e
            | .ok parsed =>
              parseSetArgs rest { opts with expiry := some (parseExpiryValue token parsed) }
      else .error syntaxError

/-- `digest_condition_matches`, with the first reading of the clock. -/
def digestConditionMatches (key : Bytes) : ParsedCondition → Command Bool
  | .ifDeq expected => do
    match ← store fun s => s.get env (clock 0) key with
    | none => pure false
    | some value => do
      ofExcept (ensureStringValue value)
      pure (env.digest16Hex (value.asBytes env.std) == expected)
  | .ifDne expected => do
    match ← store fun s => s.get env (clock 0) key with
    | none => pure true
    | some value => do
      ofExcept (ensureStringValue value)
      pure (env.digest16Hex (value.asBytes env.std) != expected)
  | _ => pure true

def ParsedCondition.toSetCondition : ParsedCondition → SetCondition
  | .always | .ifDeq _ | .ifDne _ => .always
  | .nx => .nx
  | .xx => .xx
  | .ifEq value => .ifEq value
  | .ifNe value => .ifNe value

def set : List Frame → Command Response
  | key :: value :: options => do
    let keyBytes ← ofExcept (argBytes key)
    let key ← ofExcept (parseKey keyBytes)
    let value ← ofExcept (argBytes value)
    let opts ← ofExcept (parseSetArgs options {})
    let condition := opts.condition.getD .always
    if ← digestConditionMatches env clock keyBytes condition then
      let result ← store fun s => s.set env (clock 1) key (.encodeAttempt env.std value)
        { condition := condition.toSetCondition, expiry := opts.expiry.getD .none,
          getOld := opts.getOld }
      if !result.applied then pure (.value (if opts.getOld then result.oldValue else none))
      else if opts.getOld then pure (.value result.oldValue)
      else pure okResponse
    else if opts.getOld then do
      let old ← store fun s => s.get env (clock 1) keyBytes
      pure (.value old)
    else pure (.value none)
  | _ => fail (.protocol (wrongArity "set"))

def setnx : List Frame → Command Response
  | [key, value] => do
    let key ← ofExcept ((argBytes key).bind parseKey)
    let value ← ofExcept (argBytes value)
    let result ← store fun s =>
      s.set env (clock 0) key (.encodeAttempt env.std value) { condition := .nx }
    pure (.integer (if result.applied then 1 else 0))
  | _ => fail (.protocol (wrongArity "setnx"))

/-- `setex` and `psetex`: a key, a positive lifetime and a value. -/
def setWithLifetime (command : String) (expiry : Nat → SetExpiry) : List Frame → Command Response
  | [key, lifetime, value] => do
    let key ← ofExcept ((argBytes key).bind parseKey)
    let lifetime ← ofExcept ((argBytes lifetime).bind fun raw => parsePositiveU64 raw command)
    let value ← ofExcept (argBytes value)
    let _ ← store fun s =>
      s.set env (clock 0) key (.encodeAttempt env.std value) { expiry := expiry lifetime }
    pure okResponse
  | _ => fail (.protocol (wrongArity command))

def setex : List Frame → Command Response := setWithLifetime env clock "setex" .ex

def psetex : List Frame → Command Response := setWithLifetime env clock "psetex" .px

def getset : List Frame → Command Response
  | [key, value] => do
    let keyBytes ← ofExcept (argBytes key)
    let old ← store fun s => s.get env (clock 0) keyBytes
    ofExcept (ensureStringOrMissing old)
    let key ← ofExcept (parseKey keyBytes)
    let value ← ofExcept (argBytes value)
    let _ ← store fun s => s.set env (clock 1) key (.encodeAttempt env.std value) {}
    pure (.value old)
  | _ => fail (.protocol (wrongArity "getset"))

/-- The loop of `MSET`: the `i`-th pair is written at the `i`-th reading. -/
def msetLoop : Nat → List Frame → Command Unit
  | i, key :: value :: rest => do
    let key ← ofExcept ((argBytes key).bind parseKey)
    let value ← ofExcept (argBytes value)
    let _ ← store fun s => s.set env (clock i) key (.encodeAttempt env.std value) {}
    msetLoop (i + 1) rest
  | _, _ => pure ()

def mset (args : List Frame) : Command Response :=
  if args = [] ∨ args.length % 2 ≠ 0 then fail (.protocol (wrongArity "mset"))
  else do
    msetLoop env clock 0 args
    pure okResponse

/-! ## Lists -/

inductive Side where
  | left
  | right
deriving DecidableEq, Repr

def wrongListType (value : SenkoValue) : SenkoError := .wrongType "list" value.typeName

def pushTo (list : QuickList) (side : Side) (payload : Bytes) : Option QuickList :=
  match side with
  | .left => list.pushFront payload
  | .right => list.pushBack payload

/-- The loop of `push`: every element is written to the stored list before the next one is read. -/
def pushLoop (key : Bytes) (side : Side) : QuickList → List Frame → Command QuickList
  | list, [] => pure list
  | list, frame :: rest => do
    let element ← ofExcept (argBytes frame)
    let list ← unwrap
      (pushTo list side ((SenkoValue.encodeAttempt env.std element).asBytes env.std))
    store fun s => (s.putValue key (.list list), ())
    pushLoop key side list rest

def push (side : Side) (existingOnly : Bool) (command : String) : List Frame → Command Response
  | key :: element :: rest => do
    let keyBytes ← ofExcept (argBytes key)
    let key ← ofExcept (parseKey keyBytes)
    let value ← store fun s => s.get env (clock 0) keyBytes
    match value with
    | none =>
      if existingOnly then pure (.integer 0)
      else do
        let list ← unwrap (← store fun s => s.getOrCreateList env (clock 1) key)
        let list ← pushLoop env keyBytes side list (element :: rest)
        pure (.integer list.len)
    | some (.list _) => do
      let list ← unwrap (← store fun s => s.getListMut env (clock 1) keyBytes)
      let list ← pushLoop env keyBytes side list (element :: rest)
      pure (.integer list.len)
    | some other => fail (wrongListType other)
  | _ => fail (.protocolMessage (wrongArity command))

def lpush : List Frame → Command Response := push env clock .left false "lpush"

def rpush : List Frame → Command Response := push env clock .right false "rpush"

def lpushx : List Frame → Command Response := push env clock .left true "lpushx"

def rpushx : List Frame → Command Response := push env clock .right true "rpushx"

def lrange : List Frame → Command Response
  | [key, start, stop] => do
    let key ← ofExcept (argBytes key)
    match ← store fun s => s.get env (clock 0) key with
    | none => pure (.array [])
    | some (.list _) => do
      let list ← unwrap (← store fun s => s.getList env (clock 1) key)
      let start ← ofExcept ((argBytes start).bind parseI64Arg)
      let stop ← ofExcept ((argBytes stop).bind parseI64Arg)
      let values ← unwrap (list.range start stop)
      pure (.array (values.map fun value => .value (some (.raw value))))
    | some other => fail (wrongListType other)
  | _ => fail (.protocol (wrongArity "lrange"))

/-! ## Hashes -/

/-- Any other type is reported as a string. -/
def ensureHashTypeOrMissing (i : Nat) (key : Bytes) : Command Unit := do
  match ← store fun s => s.getMut env (clock i) key with
  | none => pure ()
  | some e =>
    match e.value with
    | .hash _ => pure ()
    | _ => fail (.wrongType "hash" "string")

/-- The loop of `HSET`, with the number of new fields so far. -/
def hsetLoop (key : Bytes) : HashObject SenkoValue → Int → List Frame → Command Int
  | hash, added, field :: value :: rest => do
    let field ← ofExcept (argBytes field)
    let value ← ofExcept (argBytes value)
    let (hash, new) :=
      hash.set env.fieldPlace (parseCompact field) (.encodeAttempt env.std value) none
    store fun s => (s.putValue key (.hash hash), ())
    hsetLoop key hash (if new then added + 1 else added) rest
  | _, added, _ => pure added

def hset (frames : List Frame) : Command Response :=
  match frames with
  | key :: rest =>
    if frames.length < 3 ∨ frames.length % 2 = 0 then fail (.protocol (wrongArity "hset"))
    else do
      let key ← ofExcept (argBytes key)
      ensureHashTypeOrMissing env clock 0 key
      let hash ← unwrap (← store fun s => s.getOrCreateHash env (clock 1) (parseCompact key))
      let added ← hsetLoop env (parseCompact key).bytes hash 0 rest
      pure (.integer added)
  | [] => fail (.protocol (wrongArity "hset"))

def hget : List Frame → Command Response
  | [key, field] => do
    let key ← ofExcept (argBytes key)
    let field ← ofExcept (argBytes field)
    ensureHashTypeOrMissing env clock 0 key
    match ← store fun s => s.getHashMut env (clock 2) key with
    | none => pure (.value none)
    | some hash => do
      let (hash, found) := hash.getMut field (clock 1)
      store fun s => (s.putValue key (.hash hash), ())
      if hash.isEmpty (clock 1) then
        let _ ← store fun s => s.delete env (clock 3) key
      pure (.value (found.map fun f => .raw (f.value.asBytes env.std)))
  | _ => fail (.protocol (wrongArity "hget"))

end Commands

end Senko
