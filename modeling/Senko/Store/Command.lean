import Senko.Store.Store

/-!
# Senko — commands

A command takes the argument frames of a request and runs on a store. It may fail with an error, in
which case the store keeps what was written before the error, or panic. `Command` is the monad of
such runs. Where a command reads the system clock more than once, `clock i` is the `i`-th reading.
-/

namespace Senko

/-! ## Frames, errors and responses -/

/-- An aggregate frame is kept as its length and its raw payload. -/
structure Aggregate where
  len : Nat
  data : Bytes

inductive Frame where
  | simpleString (bytes : Bytes)
  | simpleError (bytes : Bytes)
  | integer (value : Int)
  | bulkString (bytes : Bytes)
  | array (items : Aggregate)
  | null
  | boolean (value : Bool)
  | double (value : F64)
  | bigNumber (bytes : Bytes)
  | blobError (bytes : Bytes)
  | verbatimString (encoding data : Bytes)
  | map (items : Aggregate)
  | set (items : Aggregate)
  | push (items : Aggregate)

def Frame.typeName : Frame → String
  | simpleString _ => "simple-string"
  | simpleError _ => "simple-error"
  | integer _ => "integer"
  | bulkString _ => "bulk-string"
  | array _ => "array"
  | null => "null"
  | boolean _ => "boolean"
  | double _ => "double"
  | bigNumber _ => "big-number"
  | blobError _ => "blob-error"
  | verbatimString _ _ => "verbatim-string"
  | map _ => "map"
  | set _ => "set"
  | push _ => "push"

/-- The words of a command line. -/
def words (line : List String) : List Frame := line.map fun word => .bulkString (ascii word)

/-- The errors that commands return. -/
inductive SenkoError where
  | protocol (message : String)
  | protocolMessage (message : String)
  | storage (message : String)
  | wrongType (expected actual : String)
deriving DecidableEq, Repr

inductive Response where
  | simple (bytes : Bytes)
  | value (value : Option SenkoValue)
  | nullArray
  | integer (value : Int)
  | array (items : List Response)
  | map (items : List Response)

def rawResponse (bytes : Bytes) : Response := .value (some (.raw bytes))

/-- What a blocked client gets when its time is over. -/
inductive BlockingResponseKind where
  | nullArray
  | nullBulk
deriving DecidableEq, Repr

/-- A command that may block either replies at once or says what it waits for. -/
inductive BlockingCommandResult (Spec : Type) where
  | immediate (response : Response)
  | block (spec : Spec)

/-! ## The monad -/

/-- A run on a store: `none` is a panic. -/
def Command (α : Type) : Type := Store → Option (Except SenkoError α × Store)

namespace Command

variable {α β : Type}

instance : Monad Command where
  pure a := fun s => some (.ok a, s)
  bind x f := fun s =>
    match x s with
    | none => none
    | some (.error e, s) => some (.error e, s)
    | some (.ok a, s) => f a s

def fail (e : SenkoError) : Command α := fun s => some (.error e, s)

def ofExcept : Except SenkoError α → Command α
  | .ok a => pure a
  | .error e => fail e

/-- A method of the store. -/
def store (f : Store → Store × α) : Command α := fun s => some (.ok (f s).2, (f s).1)

/-- `expect`, or any other panic on `None`. -/
def unwrap : Option α → Command α
  | some a => pure a
  | none => fun _ => none

variable (a : α) (f : α → Command β)

theorem bind_apply (x : Command α) (f : α → Command β) (s : Store) : (x >>= f) s = match x s with
      | none => none
      | some (.error e, s) => some (.error e, s)
      | some (.ok a, s) => f a s := rfl

@[simp] theorem store_bind (g : Store → Store × α) (f : α → Command β) (s : Store) :
    (store g >>= f) s = f (g s).2 (g s).1 := rfl

@[simp] theorem fail_apply (e : SenkoError) (s : Store) :
    (fail e : Command α) s = some (.error e, s) := rfl

@[simp] theorem ofExcept_ok_bind : (ofExcept (.ok a) >>= f) = f a := rfl

@[simp] theorem pure_bind_eq : (pure a >>= f) = f a := rfl

@[simp] theorem unwrap_some_bind : (unwrap (some a) >>= f) = f a := rfl

/-- A parsed argument of a command that succeeded. -/
theorem ofExcept_bind_eq_ok {x : Except SenkoError α} {f : α → Command β} {b : β} {s s' : Store}
    (h : (ofExcept x >>= f) s = some (.ok b, s')) :
    ∃ a, x = .ok a ∧ f a s = some (.ok b, s') := by
  cases x with
  | error e => cases h
  | ok a => exact ⟨a, rfl, h⟩

end Command

/-- A step that succeeded inside a computation that succeeded. -/
theorem except_bind_eq_ok {ε α β : Type} {x : Except ε α} {f : α → Except ε β} {b : β}
    (h : (x >>= f) = .ok b) : ∃ a, x = .ok a ∧ f a = .ok b := by
  cases x with
  | error e => cases h
  | ok a => exact ⟨a, rfl, h⟩

/-! ## Arguments -/

def argBytes : Frame → Except SenkoError Bytes
  | .bulkString bytes | .simpleString bytes => .ok bytes
  | .verbatimString _ data => .ok data
  | frame => .error (.wrongType "string" frame.typeName)

/-- The same error message for every command with the wrong number of arguments. -/
def wrongArity (command : String) : String :=
  "wrong number of arguments for '" ++ command ++ "' command"

def parseKey (raw : Bytes) : Except SenkoError CompactString :=
  match CompactString.fromUtf8 raw with
  | some key => .ok key
  | none => .error (.protocol "invalid UTF-8 key")

/-- `parse_compact`: bytes that are not UTF-8 are replaced. -/
def parseCompact (raw : Bytes) : CompactString := CompactString.ofUtf8Lossy raw

/-- `str::parse::<u64>`: digits with an optional `+`, within range. -/
def parseU64 : Bytes → Option Nat
  | [] => none
  | b :: ds =>
    (parseDigits (if b = 0x2b then ds else b :: ds)).bind fun n =>
      if n ≤ u64Max then some n else none

def parsePositiveU64 (raw : Bytes) (command : String) : Except SenkoError Nat :=
  match (parseU64 raw).filter fun value => 0 < value with
  | some value => .ok value
  | none => .error (.protocolMessage ("invalid expire time in '" ++ command ++ "' command"))

def parseI64Arg (raw : Bytes) : Except SenkoError Int :=
  match parseI64 raw with
  | some value => .ok value
  | none => .error (.protocol "value is not an integer or out of range")

def toAsciiLowercase (b : UInt8) : UInt8 := if 0x41 ≤ b.toNat ∧ b.toNat ≤ 0x5a then b + 0x20 else b

/-- `eq_ignore_ascii_case`. -/
def isOpt (input : Bytes) (expected : String) : Bool :=
  input.map toAsciiLowercase == (ascii expected).map toAsciiLowercase

def syntaxError : SenkoError := .protocol "syntax error"

def ensureStringValue : SenkoValue → Except SenkoError Unit
  | .raw _ | .int _ | .float _ => .ok ()
  | value => .error (.wrongType "string" value.typeName)

/-- `if let Some(ref value) = old { ensure_string_value(value)?; }` -/
def ensureStringOrMissing : Option SenkoValue → Except SenkoError Unit
  | none => .ok ()
  | some value => ensureStringValue value

@[simp] theorem argBytes_bulkString (bytes : Bytes) :
    argBytes (.bulkString bytes) = .ok bytes := rfl

@[simp] theorem parseKey_bytes (key : CompactString) : parseKey key.bytes = .ok key := by
  rw [parseKey, CompactString.fromUtf8_bytes]

theorem parseKey_eq_ok {raw : Bytes} {key : CompactString} (h : parseKey raw = .ok key) :
    raw = key.bytes := by
  unfold parseKey at h
  split at h
  · rename_i k hk
    cases h
    exact (CompactString.fromUtf8_eq_some hk).symm
  · cases h

/-! ## Objects under keys -/

section Objects

variable {α : Type} (env : Env) (clock : Nat → Nat) (project : SenkoValue → Option α)
  (expected : String)

def objectOrMissing : Option SenkoValue → Except SenkoError (Option α)
  | none => .ok none
  | some value =>
    match project value with
    | some object => .ok (some object)
    | none => .error (.wrongType expected value.typeName)

open Command in
/-- The objects of one type under the keys, from the `i`-th reading of the clock on. -/
def collectObjects : Nat → List Frame → Command (List (Option α))
  | _, [] => pure []
  | i, frame :: frames => do
    let key ← ofExcept (argBytes frame)
    let value ← store fun s => s.get env (clock i) key
    let object ← ofExcept (objectOrMissing project expected value)
    let objects ← collectObjects (i + 1) frames
    pure (object :: objects)

open Command in
/-- `ensure_*_type_or_missing`, with the `i`-th reading of the clock. -/
def ensureTypeOrMissing (i : Nat) (key : Bytes) : Command Unit := do
  let value ← store fun s => s.get env (clock i) key
  let _ ← ofExcept (objectOrMissing project expected value)
  pure ()

end Objects

end Senko
