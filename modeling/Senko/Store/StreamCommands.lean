import Senko.Store.Command

/-!
# Senko — stream commands (`senko-store/src/commands/stream/basic.rs`)

Every command reads its arguments, looks at the type of the key and then works on one stream that it
holds by reference, so a command is a number of readings of the store followed by a pure function on
the stream. What the function has written before it fails stays written.
-/

namespace Senko

open Command

def errSyntax : SenkoError := .protocol "ERR syntax error"

def xaddIdOrderError : SenkoError :=
  .protocol "ERR The ID specified in XADD is equal or smaller than the target stream top item"

def outOfRange : SenkoError := .protocol "value is out of range"

/-- `parse_u64` and `parse_usize`. -/
def parseNumber (raw : Bytes) : Except SenkoError Nat :=
  match parseU64 raw with
  | some n => .ok n
  | none => .error outOfRange

def invalidStreamId : SenkoError := .protocol "invalid stream id"

def parseStreamId (raw : Bytes) : Except SenkoError StreamId :=
  match StreamId.parse raw with
  | some id => .ok id
  | none => .error invalidStreamId

def parseRefMode (raw : Bytes) : Option StreamRefMode :=
  if isOpt raw "KEEPREF" then some .keepRef
  else if isOpt raw "DELREF" then some .delRef
  else if isOpt raw "ACKED" then some .acked
  else none

section Commands

variable (env : Env) (clock : Nat → Nat)

def ensureStreamTypeOrMissing (i : Nat) (key : Bytes) : Command Unit := do
  match ← store fun s => s.get env (clock i) key with
  | none => pure ()
  | some (.stream _) => pure ()
  | some value => fail (.wrongType "stream" value.typeName)

/-- Work on the stream of `get_stream_mut`, or answer that there is none. -/
def withStream {α : Type} (i : Nat) (key : Bytes) (missing : Except SenkoError α)
    (f : StreamObject → Except SenkoError α × StreamObject) : Command α := fun s =>
  match s.getStreamMut env (clock i) key with
  | (s, none) => some (missing, s)
  | (s, some stream) => some ((f stream).1, s.putValue key (.stream (f stream).2))

/-- Work on the stream of `get_or_create_stream`. -/
def withNewStream {α : Type} (i : Nat) (key : CompactString)
    (f : StreamObject → Except SenkoError α × StreamObject) : Command α := do
  let stream ← unwrap (← store fun s => s.getOrCreateStream env (clock i) key)
  fun s => some ((f stream).1, s.putValue key.bytes (.stream (f stream).2))

/-! ## Trimming -/

inductive TrimSpec where
  | maxLen (threshold : Nat) (approx : Bool) (limit : Nat)
  | minId (threshold : StreamId) (approx : Bool) (limit : Nat)

/-- The `LIMIT` of a trim and the arguments after it. -/
def parseTrimLimit (approx : Bool) : List Frame → Except SenkoError (Nat × List Frame)
  | token :: count :: rest => do
    if isOpt (← argBytes token) "LIMIT" then
      if !approx then .error errSyntax
      else .ok (← parseNumber (← argBytes count), rest)
    else .ok (0, token :: count :: rest)
  | rest => .ok (0, rest)

/-- A trim and the arguments after it. -/
def parseTrim : List Frame → Except SenkoError (TrimSpec × List Frame)
  | kind :: symbol :: rest => do
    let kind ← argBytes kind
    let raw ← argBytes symbol
    let symbolic := raw = ascii "=" ∨ raw = ascii "~"
    let approx := raw = ascii "~"
    match if symbolic then rest else symbol :: rest with
    | [] => .error errSyntax
    | threshold :: rest => do
      let threshold ← argBytes threshold
      let (limit, rest) ← parseTrimLimit approx rest
      if isOpt kind "MAXLEN" then .ok (.maxLen (← parseNumber threshold) approx limit, rest)
      else if isOpt kind "MINID" then .ok (.minId (← parseStreamId threshold) approx limit, rest)
      else .error errSyntax
  | [kind] => do
    let _ ← argBytes kind
    .error errSyntax
  | [] => .error errSyntax

def applyTrim (tree : StreamRadixTree) : TrimSpec → StreamRadixTree
  | .maxLen threshold approx limit => tree.trimByMaxlen threshold approx limit
  | .minId threshold approx limit => tree.trimByMinid threshold approx limit

/-! ## XADD -/

structure XaddOptions where
  noMkstream : Bool := false
  refMode : StreamRefMode := .keepRef
  trim : Option TrimSpec := none

/-- The option loop of `XADD` and the arguments after it. Every round takes an argument, so their
number is enough rounds. -/
def parseXaddOptions : Nat → List Frame → XaddOptions → Except SenkoError (XaddOptions × List Frame)
  | rounds + 1, frame :: rest, opts => do
    let token ← argBytes frame
    if isOpt token "NOMKSTREAM" then parseXaddOptions rounds rest { opts with noMkstream := true }
    else
      match parseRefMode token with
      | some refMode => parseXaddOptions rounds rest { opts with refMode }
      | none =>
        if isOpt token "MAXLEN" || isOpt token "MINID" then do
          let (trim, rest) ← parseTrim (frame :: rest)
          parseXaddOptions rounds rest { opts with trim := some trim }
        else .ok (opts, frame :: rest)
  | _, rest, opts => .ok (opts, rest)

/-- The id that the `*` of an automatic or partly automatic id stands for. -/
def completeId (lastId parsed : StreamId) (nowMs : Nat) : Except SenkoError StreamId :=
  if parsed = .auto then .ok (StreamId.autoGenerate lastId nowMs)
  else if parsed.seq = StreamId.partialAutoSeq then
    if lastId.ms < parsed.ms then .ok ⟨parsed.ms, 0⟩
    else if parsed.ms = lastId.ms then .ok ⟨parsed.ms, saturatingAdd lastId.seq 1⟩
    else .error xaddIdOrderError
  else .ok parsed

def resolveXaddId (tree : Option StreamRadixTree) (raw : Bytes) (nowMs : Nat) :
    Except SenkoError StreamId := do
  let lastId := (tree.map StreamRadixTree.lastId).getD .zero
  let parsed ← parseStreamId raw
  let resolved ← completeId lastId parsed nowMs
  if resolved ≤ lastId then .error xaddIdOrderError else .ok resolved

def parseFields : List Frame → Except SenkoError StreamFields
  | field :: value :: rest => do
    let field ← argBytes field
    let value ← argBytes value
    .ok ((field, value) :: (← parseFields rest))
  | _ => .ok []

/-- Insert an entry and trim. -/
def insertAndTrim (id : StreamId) (fields : StreamFields) (opts : XaddOptions)
    (stream : StreamObject) : Except SenkoError StreamId × StreamObject :=
  match stream.tree.insertWithMode id fields opts.refMode with
  | none => (.error (.protocol "ERR duplicate stream ID"), stream)
  | some tree =>
    let tree :=
      match opts.trim with
      | some trim => applyTrim tree trim
      | none => tree
    (.ok id, { stream with tree })

/-- `no_mkstream && store.get_stream(key).is_none()`. -/
def refusesToCreate (noMkstream : Bool) (key : Bytes) : Command Bool :=
  if noMkstream then do
    let stream ← store fun s => s.getStream env (clock 1) key
    pure stream.isNone
  else pure false

/-- The id that `XADD` returns, or `none` for the null reply of `NOMKSTREAM`. -/
def xaddId : List Frame → Command (Option StreamId)
  | key :: args =>
    if args.length < 3 then fail (.protocol (wrongArity "xadd"))
    else do
      let keyBytes ← ofExcept (argBytes key)
      ensureStreamTypeOrMissing env clock 0 keyBytes
      let (opts, rest) ← ofExcept (parseXaddOptions args.length args {})
      match rest with
      | id :: fields =>
        if rest.length < 3 ∨ rest.length % 2 = 0 then fail (.protocol (wrongArity "xadd"))
        else do
          if ← refusesToCreate env clock opts.noMkstream keyBytes then pure none
          else do
            let key ← ofExcept (parseKey keyBytes)
            let stream ← store fun s => s.getStream env (clock 2) keyBytes
            let id ← ofExcept ((argBytes id).bind fun raw =>
              resolveXaddId (stream.map StreamObject.tree) raw (clock 3))
            let fields ← ofExcept (parseFields fields)
            let id ← withNewStream env clock 4 key (insertAndTrim id fields opts)
            pure (some id)
      | [] => fail (.protocol (wrongArity "xadd"))
  | [] => fail (.protocol (wrongArity "xadd"))

def xadd (args : List Frame) : Command Response := do
  let id ← xaddId env clock args
  pure (.value (id.map fun id => .raw id.toString))

/-! ## Deleting -/

/-- The loop over the ids of `XDEL` and `XDELEX`, with the ids seen and the number of deletions. -/
def deleteIds (refMode : StreamRefMode) :
    List Frame → List StreamId → Int → StreamObject → Except SenkoError Int × StreamObject
  | [], _, deleted, stream => (.ok deleted, stream)
  | frame :: rest, seen, deleted, stream =>
    match (argBytes frame).bind parseStreamId with
    | .error e => (.error e, stream)
    | .ok id =>
      if id ∈ seen then deleteIds refMode rest seen deleted stream
      else
        let (tree, removed) := stream.tree.deleteWithMode id refMode
        deleteIds refMode rest (id :: seen) (if removed then deleted + 1 else deleted)
          { stream with tree }

def xdel : List Frame → Command Response
  | key :: frame :: frames => do
    let key ← ofExcept (argBytes key)
    ensureStreamTypeOrMissing env clock 0 key
    let deleted ← withStream env clock 1 key (.ok 0) (deleteIds .keepRef (frame :: frames) [] 0)
    pure (.integer deleted)
  | _ => fail (.protocol (wrongArity "xdel"))

/-- The ids after `IDS numids`. -/
def parseIdsClause : List Frame → Except SenkoError (List Frame)
  | [] => .error errSyntax
  | token :: rest => do
    if !isOpt (← argBytes token) "IDS" then .error errSyntax
    else
      match rest with
      | [] => .error errSyntax
      | count :: ids => do
        let numids ← parseNumber (← argBytes count)
        if ids.length ≠ numids then
          .error (.protocol "ERR numids does not match actual number of IDs")
        else .ok ids

/-- The optional reference mode and the ids of `XDELEX` and `XACKDEL`. -/
def parseModeAndIds : List Frame → Except SenkoError (StreamRefMode × List Frame)
  | [] => .error errSyntax
  | frame :: rest => do
    match parseRefMode (← argBytes frame) with
    | some refMode => .ok (refMode, ← parseIdsClause rest)
    | none => .ok (.keepRef, ← parseIdsClause (frame :: rest))

def xdelex : List Frame → Command Response
  | key :: args =>
    if args.length < 3 then fail (.protocol (wrongArity "xdelex"))
    else do
      let key ← ofExcept (argBytes key)
      ensureStreamTypeOrMissing env clock 0 key
      let (refMode, ids) ← ofExcept (parseModeAndIds args)
      let deleted ← withStream env clock 1 key (.ok 0) (deleteIds refMode ids [] 0)
      pure (.integer deleted)
  | [] => fail (.protocol (wrongArity "xdelex"))

/-! ## XSETID and XTRIM -/

/-- An option of `XSETID` with its value. -/
def setidOption (token : Bytes) (value : Frame) (tree : StreamRadixTree) :
    Except SenkoError StreamRadixTree := do
  if isOpt token "ENTRIESADDED" then
    let entriesAdded ← parseNumber (← argBytes value)
    if entriesAdded < tree.entriesAdded then
      .error (.protocol "ERR entries_added must not decrease")
    else .ok { tree with entriesAdded }
  else
    let maxDeletedEntryId ← parseStreamId (← argBytes value)
    if maxDeletedEntryId < tree.maxDeletedEntryId then
      .error (.protocol "ERR max_deleted_id must not decrease")
    else .ok { tree with maxDeletedEntryId }

/-- The option loop of `XSETID`: every option is written before the next one is read. -/
def setidOptions : List Frame → StreamRadixTree → Except SenkoError Unit × StreamRadixTree
  | [], tree => (.ok (), tree)
  | frame :: rest, tree =>
    match argBytes frame with
    | .error e => (.error e, tree)
    | .ok token =>
      if isOpt token "ENTRIESADDED" || isOpt token "MAXDELETEDID" then
        match rest with
        | [] => (.error errSyntax, tree)
        | value :: rest =>
          match setidOption token value tree with
          | .error e => (.error e, tree)
          | .ok tree => setidOptions rest tree
      else (.error errSyntax, tree)

def setLastId (lastId : StreamId) (options : List Frame) (stream : StreamObject) :
    Except SenkoError Unit × StreamObject :=
  if lastId < stream.tree.lastId then (.error xaddIdOrderError, stream)
  else
    match setidOptions options stream.tree with
    | (.error e, tree) => (.error e, { stream with tree })
    | (.ok (), tree) =>
      let firstEntryId :=
        if tree.firstEntryId = .zero ∧ tree.totalLen = 0 then lastId else tree.firstEntryId
      (.ok (), { stream with tree := { tree with lastId, firstEntryId } })

def xsetid : List Frame → Command Response
  | key :: id :: options => do
    let keyBytes ← ofExcept (argBytes key)
    ensureStreamTypeOrMissing env clock 0 keyBytes
    let key ← ofExcept (parseKey keyBytes)
    let lastId ← ofExcept ((argBytes id).bind parseStreamId)
    withNewStream env clock 1 key (setLastId lastId options)
    pure (.simple (ascii "OK"))
  | _ => fail (.protocol (wrongArity "xsetid"))

/-- Only a reference mode, which is not used, may follow the trim. -/
def parseXtrim (args : List Frame) : Except SenkoError TrimSpec := do
  let (trim, rest) ← parseTrim args
  match rest with
  | [] => .ok trim
  | frame :: rest => do
    match parseRefMode (← argBytes frame) with
    | none => .error errSyntax
    | some _ => if rest.isEmpty then .ok trim else .error errSyntax

/-- Trim a stream; the number of entries that went. -/
def trimStream (trim : TrimSpec) (stream : StreamObject) : Except SenkoError Int × StreamObject :=
  let tree := applyTrim stream.tree trim
  (.ok (stream.tree.totalLen - tree.totalLen), { stream with tree })

def xtrim : List Frame → Command Response
  | key :: args =>
    if args.length < 2 then fail (.protocol (wrongArity "xtrim"))
    else do
      let key ← ofExcept (argBytes key)
      ensureStreamTypeOrMissing env clock 0 key
      let trim ← ofExcept (parseXtrim args)
      let removed ← withStream env clock 1 key (.ok 0) (trimStream trim)
      pure (.integer removed)
  | [] => fail (.protocol (wrongArity "xtrim"))

/-! ## Reading -/

end Commands

end Senko
