import Senko.Core.Float
import Senko.Core.Utf8
import Senko.Lib.Decimal
import Senko.Lib.Framing

/-!
# Senko — the RESP parser (`senko-proto/src/parser.rs`, `frame.rs`)

A frame is parsed from the front of what has arrived. An aggregate is parsed to find out where it
ends, and then kept as its length and its raw bytes; iterating over it parses them again.

`usize` sums wrap, as they do in a release build; an index out of range panics (`none`). Only the
length lines of blobs can bring a sum beyond the word. Parsing of `f64` is the standard library's.
-/

namespace Senko.Resp

open Framing

/-! ## Frames -/

inductive AggregateKind where
  | array
  | map
  | set
  | push
deriving DecidableEq, Repr

inductive AggregateEncoding where
  | resp
  | inline
deriving DecidableEq, Repr

structure Aggregate where
  kind : AggregateKind
  len : Nat
  data : Bytes
  encoding : AggregateEncoding
deriving DecidableEq, Repr

inductive Frame where
  | simpleString (value : Bytes)
  | simpleError (value : Bytes)
  | integer (value : Int)
  | bulkString (value : Bytes)
  | array (aggregate : Aggregate)
  | null
  | boolean (value : Bool)
  | double (value : F64)
  | bigNumber (value : Bytes)
  | blobError (value : Bytes)
  | verbatimString (encoding data : Bytes)
  | map (aggregate : Aggregate)
  | set (aggregate : Aggregate)
  | push (aggregate : Aggregate)
deriving DecidableEq, Repr

def Frame.aggregate : Frame → Option Aggregate
  | .array aggregate | .map aggregate | .set aggregate | .push aggregate => some aggregate
  | _ => none

/-- The errors of the parser: its own, and those of the conversions of a line. -/
inductive ParseError where
  | protocol (message : String)
  | utf8
  | parseInt
  | parseFloat
deriving DecidableEq, Repr

abbrev Parsed := Outcome Frame ParseError

def Parsed.complete (frame : Frame) (used : Nat) : Parsed := some (.ok (.complete frame used))
def Parsed.incomplete (needed : Nat) : Parsed := some (.ok (.incomplete needed))
def Parsed.protocol (message : String) : Parsed := some (.error (.protocol message))

/-- Go on with a value, or fail. -/
def attempt {α : Type} (value : Except ParseError α) (k : α → Parsed) : Parsed :=
  match value with
  | .ok a => k a
  | .error e => some (.error e)

@[simp] theorem attempt_ok {α : Type} (a : α) (k : α → Parsed) : attempt (.ok a) k = k a := rfl

/-- A sum of `usize`. -/
def usize (n : Nat) : Nat := n % 2 ^ 64

/-! ## Lines -/

def cr : UInt8 := 0x0d
def lf : UInt8 := 0x0a
def crlf : Bytes := [cr, lf]

def findCrlf (input : Bytes) (start : Nat) : Option (Bytes × Nat) := do
  let tail ← getFrom input start
  let rel ← tail.idxOf? cr
  let pos := start + rel
  if input[pos + 1]? ≠ some lf then none
  else some ((input.take pos).drop start, pos + 2)

/-- Wait for a line from `start` on. -/
def onLine (input : Bytes) (start : Nat) (k : Bytes → Nat → Parsed) : Parsed :=
  match findCrlf input start with
  | none => .incomplete (input.length + 2)
  | some (line, consumed) => k line consumed

def isBlank (byte : UInt8) : Bool := byte = 0x20 || byte = 0x09

def trimAsciiWhitespace (input : Bytes) : Bytes :=
  ((input.dropWhile isBlank).reverse.dropWhile isBlank).reverse

def countInlineArgs (input : Bytes) : Nat :=
  (input.foldl (fun (count, inToken) byte =>
    if isBlank byte then (count, false)
    else if !inToken then (count + 1, true)
    else (count, inToken)) (0, false)).1

/-- `str::parse::<usize>`: digits after an optional plus sign, within range. -/
def parseUsizeText (text : Bytes) : Option Nat :=
  (parseDigits (if text.head? = some 0x2b then text.tail else text)).filter fun n => n ≤ u64Max

/-- `from_utf8(line)?.parse()?` -/
def parseText {α : Type} (parse : Bytes → Option α) (e : ParseError) (line : Bytes) :
    Except ParseError α :=
  if validUtf8 line then
    match parse line with
    | some value => .ok value
    | none => .error e
  else .error .utf8

def parseInt64 : Bytes → Except ParseError Int := parseText parseI64 .parseInt
def parseIsize : Bytes → Except ParseError Int := parseText parseI64 .parseInt
def parseUsize : Bytes → Except ParseError Nat := parseText parseUsizeText .parseInt

/-! ## The parser -/

section Parser

variable (std : FloatStd)

def parseLinePrefixed (input : Bytes) (build : Bytes → Frame) : Parsed :=
  onLine input 1 fun line consumed => .complete (build line) consumed

def parseInteger (input : Bytes) : Parsed :=
  onLine input 1 fun line consumed =>
    attempt (parseInt64 line) fun value => .complete (.integer value) consumed

def parseNull (input : Bytes) : Parsed :=
  if input.length < 3 then .incomplete 3
  else if input.take 3 ≠ 0x5f :: crlf then .protocol "invalid null frame"
  else .complete .null 3

def parseBoolean (input : Bytes) : Parsed :=
  if input.length < 4 then .incomplete 4
  else if input.take 4 = 0x23 :: 0x74 :: crlf then .complete (.boolean true) 4
  else if input.take 4 = 0x23 :: 0x66 :: crlf then .complete (.boolean false) 4
  else .protocol "invalid boolean frame"

def parseDouble (input : Bytes) : Parsed :=
  onLine input 1 fun line consumed =>
    attempt (parseText std.parse .parseFloat line) fun value => .complete (.double value) consumed

/-- The bytes after a header, behind which a line break must stand. -/
def delimited (input : Bytes) (headerConsumed len : Nat) (missing : String)
    (k : Bytes → Parsed) : Parsed :=
  match getRange input (usize (headerConsumed + len)) (usize (headerConsumed + len + 2)) with
  | none => none
  | some tail =>
    if tail ≠ crlf then .protocol missing
    else
      match getRange input headerConsumed (usize (headerConsumed + len)) with
      | none => none
      | some data => k data

def parseBulkString (input : Bytes) : Parsed :=
  onLine input 1 fun line headerConsumed =>
    attempt (parseIsize line) fun len =>
      if len < 0 then .complete .null headerConsumed
      else
        let total := usize (headerConsumed + len.toNat + 2)
        if input.length < total then .incomplete total
        else
          delimited input headerConsumed len.toNat "bulk string missing trailing CRLF" fun data =>
            .complete (.bulkString data) total

def parseBlobError (input : Bytes) : Parsed :=
  onLine input 1 fun line headerConsumed =>
    attempt (parseUsize line) fun len =>
      let total := usize (headerConsumed + len + 2)
      if input.length < total then .incomplete total
      else delimited input headerConsumed len "blob error missing trailing CRLF" fun data =>
        .complete (.blobError data) total

def parseVerbatimString (input : Bytes) : Parsed :=
  onLine input 1 fun line headerConsumed =>
    attempt (parseUsize line) fun len =>
      let total := usize (headerConsumed + len + 2)
      if input.length < total then .incomplete total
      else if len < 4 then .protocol "verbatim string too short"
      else delimited input headerConsumed len "verbatim string missing trailing CRLF" fun payload =>
        if payload[3]? ≠ some 0x3a then .protocol "verbatim string missing format separator"
        else .complete (.verbatimString (payload.take 3) (payload.drop 4)) total

/-- The loop over the elements of an aggregate: where the last of `left` elements ends. -/
def parseElements (parse : Bytes → Parsed) (input : Bytes) :
    Nat → Nat → Outcome Unit ParseError
  | 0, consumed => some (.ok (.complete () consumed))
  | left + 1, consumed =>
    match getFrom input consumed with
    | none => none
    | some rest =>
      match parse rest with
      | none => none
      | some (.error e) => some (.error e)
      | some (.ok (.complete _ used)) => parseElements parse input left (consumed + used)
      | some (.ok (.incomplete needed)) => some (.ok (.incomplete (usize (consumed + needed))))

def AggregateKind.frame : AggregateKind → Aggregate → Frame
  | .array => .array
  | .map => .map
  | .set => .set
  | .push => .push

/-- The number of frames in an aggregate of a length. -/
def AggregateKind.expected (kind : AggregateKind) (len : Nat) : Nat :=
  match kind with
  | .map => saturatingMul len 2
  | .array | .set | .push => len

def parseAggregate (parse : Bytes → Parsed) (input : Bytes) (kind : AggregateKind) : Parsed :=
  onLine input 1 fun line headerConsumed =>
    attempt (parseIsize line) fun len =>
      if len < 0 then .complete .null headerConsumed
      else
        match parseElements parse input (kind.expected len.toNat) headerConsumed with
        | none => none
        | some (.error e) => some (.error e)
        | some (.ok (.incomplete needed)) => .incomplete needed
        | some (.ok (.complete _ consumed)) =>
          match getRange input headerConsumed consumed with
          | none => none
          | some data => .complete (kind.frame ⟨kind, len.toNat, data, .resp⟩) consumed

def parseInline (input : Bytes) : Parsed :=
  onLine input 0 fun line consumed =>
    let trimmed := trimAsciiWhitespace line
    if trimmed.isEmpty then .protocol "empty inline command"
    else .complete (.array ⟨.array, countInlineArgs trimmed, trimmed, .inline⟩) consumed

/-- What a first byte announces. -/
inductive Lead where
  | line (build : Bytes → Frame)
  | integer
  | bulkString
  | aggregate (kind : AggregateKind)
  | null
  | boolean
  | double
  | blobError
  | verbatimString
  | lineBreak
  | other

def Lead.ofByte : UInt8 → Lead
  | 0x2b => .line .simpleString -- '+'
  | 0x2d => .line .simpleError -- '-'
  | 0x3a => .integer -- ':'
  | 0x24 => .bulkString -- '$'
  | 0x2a => .aggregate .array -- '*'
  | 0x5f => .null -- '_'
  | 0x23 => .boolean -- '#'
  | 0x2c => .double -- ','
  | 0x28 => .line .bigNumber -- '('
  | 0x21 => .blobError -- '!'
  | 0x3d => .verbatimString -- '='
  | 0x25 => .aggregate .map -- '%'
  | 0x7e => .aggregate .set -- '~'
  | 0x3e => .aggregate .push -- '>'
  | 0x0d | 0x0a => .lineBreak
  | _ => .other

/-- Parse what the first byte announces; `nested` parses the elements of an aggregate. -/
def parseLead (nested : Bytes → Parsed) (input : Bytes) (inline : Bool) : Lead → Parsed
  | .line build => parseLinePrefixed input build
  | .integer => parseInteger input
  | .bulkString => parseBulkString input
  | .aggregate kind => parseAggregate nested input kind
  | .null => parseNull input
  | .boolean => parseBoolean input
  | .double => parseDouble std input
  | .blobError => parseBlobError input
  | .verbatimString => parseVerbatimString input
  | .lineBreak => .protocol "unexpected line break"
  | .other =>
    if inline then parseInline input else .protocol "unsupported RESP type prefix"

/-- The first argument bounds the depth of nesting; more than the length of the input is enough
(`parseFrame_judged`). -/
def parseFrame : Nat → Bytes → Bool → Parsed
  | 0, _, _ => none
  | fuel + 1, input, inline =>
    match input with
    | [] => .incomplete 1
    | first :: _ =>
      parseLead std (fun rest => parseFrame fuel rest false) input inline (.ofByte first)

/-- `RespParser::parse`. -/
def parse (input : Bytes) : Parsed := parseFrame std (input.length + 1) input true

end Parser

/-! ## Iterating over an aggregate -/

structure FrameIter where
  aggregate : Aggregate
  consumed : Nat := 0
  emitted : Nat := 0

def Aggregate.iter (aggregate : Aggregate) : FrameIter := { aggregate }

/-- The next item, if there is one, and the iterator after it. An error does not move it. -/
def FrameIter.next (std : FloatStd) (it : FrameIter) :
    Option (Option (Except ParseError Frame) × FrameIter) :=
  if it.emitted = it.aggregate.len then some (none, it)
  else
    match getFrom it.aggregate.data it.consumed with
    | none => none
    | some remaining =>
      match it.aggregate.encoding with
      | .resp =>
        match parse std remaining with
        | none => none
        | some (.ok (.complete frame used)) =>
          some (some (.ok frame),
            { it with consumed := it.consumed + used, emitted := it.emitted + 1 })
        | some (.ok (.incomplete _)) =>
          some (some (.error (.protocol "aggregate data ended mid-frame")), it)
        | some (.error e) => some (some (.error e), it)
      | .inline =>
        let next := remaining.findIdx isBlank
        let blanks := ((remaining.drop next).takeWhile isBlank).length
        some (some (.ok (.bulkString (remaining.take next))),
          { it with consumed := it.consumed + next + blanks, emitted := it.emitted + 1 })

/-- The items up to the end or the first error, at most so many. -/
def FrameIter.collect (std : FloatStd) :
    Nat → FrameIter → Option (List (Except ParseError Frame))
  | 0, _ => some []
  | calls + 1, it =>
    match it.next std with
    | none => none
    | some (none, _) => some []
    | some (some (.error e), _) => some [.error e]
    | some (some (.ok frame), it) => (it.collect std calls).map (.ok frame :: ·)

/-- What a loop over `iter()` sees; every call but the last counts an element. -/
def Aggregate.frames (std : FloatStd) (aggregate : Aggregate) :
    Option (List (Except ParseError Frame)) :=
  aggregate.iter.collect std (aggregate.len + 1)

end Senko.Resp
