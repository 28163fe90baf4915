import Senko.Lib.Plan
import Senko.Proto.RoundTrip
import Senko.Store.Command

/-!
# Senko — replies of shards (`senko-net/src/connection.rs`)

A shard answers a sub-command with a reply that is already serialized. The connection that put the
sub-command parses the reply again, with a reader for each kind of reply it expects. What a reader
returns on a reply that is an error is sent to the client as it is.
-/

namespace Senko.Net

open Resp Plan List

/-! ## Writing -/

section Write

variable (std : FloatStd) (resp3 : Bool)

mutual

def writeResponse : Response → Bytes
  | .simple value => writeSimpleString value
  | .value (some value) => writeBulkString (value.asBytes std)
  | .value none => if resp3 then writeNull else writeNilBulk
  | .nullArray => if resp3 then writeNull else 0x2a :: 0x2d :: 0x31 :: crlf
  | .integer value => writeInteger value
  | .array items => writeArrayHeader items.length ++ writeResponses items
  | .map items =>
    (if resp3 then writeRawMapHeader (items.length / 2) else writeArrayHeader items.length) ++
      writeResponses items

def writeResponses : List Response → Bytes
  | [] => []
  | item :: items => writeResponse item ++ writeResponses items

end

def serializeResponse (response : Response) : Bytes := writeResponse std resp3 response

end Write

def errorMessage (message : Bytes) : Bytes := writeError message

/-- The text of an error, with `ERR ` in front unless it brings a code of its own. -/
def errorMessageText (text : Bytes) : Bytes :=
  if (["ERR ", "WRONGTYPE", "INVALIDOBJ", "NOPROTO", "NOAUTH", "WRONGPASS"].any fun code =>
      (ascii code).isPrefixOf text) then text
  else ascii "ERR " ++ text

def errorBytes (text : Bytes) : Bytes := errorMessage (errorMessageText text)

/-! ## Reading -/

/-- What a connection brings to the coordination of shards. Floats are the standard library's, as
are the texts of errors of its conversions and the order in which a hash set is iterated. -/
structure Coordinator where
  std : FloatStd
  conversionError : ParseError → Bytes
  setOrder : List Bytes → List Bytes
  numShards : Nat
  resp3 : Bool
  noTouch : Bool

/-- Two shards. -/
def Coordinator.pair : Coordinator where
  std := ⟨fun x _ => x, fun _ => none, fun _ => []⟩
  conversionError := fun _ => []
  setOrder := id
  numShards := 2
  resp3 := false
  noTouch := false

namespace Coordinator

variable (c : Coordinator) {ι : Type} {ρ : ι → Type} {α : Type}

def parseErrorText : ParseError → Bytes
  | .protocol message => ascii message
  | e => c.conversionError e

def protocolError : Bytes := errorMessage (ascii "ERR shard coordination protocol error")

def frameBytes : Resp.Frame → Plan ι ρ Bytes Bytes
  | .bulkString bytes | .simpleString bytes | .blobError bytes => done bytes
  | .verbatimString _ data => done data
  | _ => fail (errorBytes (ascii "command arguments must be strings"))

def parseSingleResponseFrame (bytes : Bytes) : Plan ι ρ Bytes Resp.Frame :=
  match parse c.std bytes with
  | none => crash
  | some (.error e) => fail (errorBytes (c.parseErrorText e))
  | some (.ok (.complete frame used)) =>
    if used = bytes.length then done frame else fail protocolError
  | some (.ok (.incomplete _)) => fail protocolError

/-- `values.iter().map(..).collect()`, up to the first error. -/
def collectItems (item : Resp.Frame → Plan ι ρ Bytes α) :
    List (Except ParseError Resp.Frame) → Plan ι ρ Bytes (List α)
  | [] => done []
  | .error e :: _ => fail (errorBytes (c.parseErrorText e))
  | .ok frame :: frames => do
    let value ← item frame
    let values ← collectItems item frames
    done (value :: values)

/-- A reader for an array. -/
def parseArrayResponse (item : Resp.Frame → Plan ι ρ Bytes α) (bytes : Bytes) :
    Plan ι ρ Bytes (List α) := do
  match ← c.parseSingleResponseFrame bytes with
  | .simpleError error | .blobError error => fail error
  | .array values => do
    let frames ← unwrap (values.frames c.std)
    c.collectItems item frames
  | _ => fail protocolError

def parseBulkArrayResponse : Bytes → Plan ι ρ Bytes (List Bytes) :=
  c.parseArrayResponse fun
    | .bulkString bytes | .simpleString bytes => done bytes
    | .null => done []
    | .simpleError error | .blobError error => fail error
    | _ => fail protocolError

def parseMgetResponse : Bytes → Plan ι ρ Bytes (List Response) :=
  c.parseArrayResponse fun
    | .bulkString bytes | .simpleString bytes => done (.value (some (.raw bytes)))
    | .null => done (.value none)
    | .simpleError error | .blobError error => fail error
    | _ => fail protocolError

def parseOptionalBytesResponse (bytes : Bytes) : Plan ι ρ Bytes (Option Bytes) := do
  match ← c.parseSingleResponseFrame bytes with
  | .bulkString value | .simpleString value => done (some value)
  | .null => done none
  | .simpleError error | .blobError error => fail error
  | _ => fail protocolError

def isNullResponse (bytes : Bytes) : Plan ι ρ Bytes Bool := do
  match ← c.parseSingleResponseFrame bytes with
  | .null => done true
  | .simpleError error | .blobError error => fail error
  | _ => done false

def parseIntegerResponse (bytes : Bytes) : Plan ι ρ Bytes Int := do
  match ← c.parseSingleResponseFrame bytes with
  | .integer value => done value
  | .simpleError error | .blobError error => fail error
  | _ => fail protocolError

def parseOkResponse (bytes : Bytes) : Plan ι ρ Bytes Bool := do
  match ← c.parseSingleResponseFrame bytes with
  | .simpleString value => done (isOpt value "OK")
  | .simpleError error | .blobError error => fail error
  | _ => fail protocolError

def parseTypeNameResponse (bytes : Bytes) : Plan ι ρ Bytes Bytes := do
  match ← c.parseSingleResponseFrame bytes with
  | .bulkString value | .simpleString value => done value
  | .simpleError error | .blobError error => fail error
  | _ => fail protocolError

end Coordinator

/-! ## Replies are frames -/

mutual

/-- Simple strings are texts of the program without a carriage return, integers are `i64`, and a
map has a value for every key. -/
def ResponseSound : Response → Prop
  | .simple value => cr ∉ value
  | .value _ | .nullArray => True
  | .integer value => InI64 value
  | .array items => AllResponsesSound items
  | .map items => items.length % 2 = 0 ∧ AllResponsesSound items

def AllResponsesSound : List Response → Prop
  | [] => True
  | item :: items => ResponseSound item ∧ AllResponsesSound items

end

theorem allResponsesSound_iff {items : List Response} :
    AllResponsesSound items ↔ ∀ item ∈ items, ResponseSound item := by
  induction items with
  | nil => simp [AllResponsesSound]
  | cons item items ih => rw [AllResponsesSound, ih, forall_mem_cons]

section Frames

variable (std : FloatStd) (resp3 : Bool)

/-- The frame that a response is parsed to. -/
def responseFrame : Response → Resp.Frame
  | .simple value => .simpleString value
  | .value (some value) => .bulkString (value.asBytes std)
  | .value none | .nullArray => .null
  | .integer value => .integer value
  | .array items => .array ⟨.array, items.length, writeResponses std resp3 items, .resp⟩
  | .map items =>
    if resp3 then .map ⟨.map, items.length / 2, writeResponses std resp3 items, .resp⟩
    else .array ⟨.array, items.length, writeResponses std resp3 items, .resp⟩

/-- The bytes and the frame of an item. -/
def responseElement (response : Response) : Bytes × Resp.Frame :=
  (writeResponse std resp3 response, responseFrame std resp3 response)

variable {std resp3}

theorem writeResponses_eq (items : List Response) : writeResponses std resp3 items =
      (items.map (responseElement std resp3)).flatMap Prod.fst := by
  induction items with
  | nil => rfl
  | cons item items ih => rw [writeResponses, ih, map_cons, flatMap_cons, responseElement]

theorem parses_nilBulk : Parses std writeNilBulk .null := by
  apply parses_of_lead
  intro fuel inline _
  rfl

theorem parses_nilArray : Parses std (0x2a :: 0x2d :: 0x31 :: crlf) .null := by
  apply parses_of_lead
  intro fuel inline _
  rfl

/-- An aggregate of items, under a header that counts them. -/
theorem parses_items (kind : AggregateKind) {items : List Response} {len : Nat}
    (helements : ∀ e ∈ items.map (responseElement std resp3), Parses std e.1 e.2)
    (hlen : kind.expected len = items.length)
    (hfits : (writeHeader kind.lead len ++ writeResponses std resp3 items).length < 2 ^ 63) :
    Parses std (writeHeader kind.lead len ++ writeResponses std resp3 items)
      (kind.frame ⟨kind, len, writeResponses std resp3 items, .resp⟩) := by
  rw [writeResponses_eq] at hfits ⊢
  exact parses_aggregate helements kind (by rw [hlen, length_map]) hfits

theorem length_lt_of_append {header items : Bytes} (h : (header ++ items).length < 2 ^ 63) :
    items.length < 2 ^ 63 := by
  rw [length_append] at h
  omega

mutual

/-- **What is written for a response is one frame.** -/
theorem parses_response : ∀ response, ResponseSound response →
    (writeResponse std resp3 response).length < 2 ^ 63 →
      Parses std (writeResponse std resp3 response) (responseFrame std resp3 response)
  | .simple _, hsound, _ => parses_simpleString hsound
  | .value (some _), _, hfits => parses_bulkString hfits
  | .value none, _, _ => by
    cases resp3
    · exact parses_nilBulk
    · exact parses_null
  | .nullArray, _, _ => by
    cases resp3
    · exact parses_nilArray
    · exact parses_null
  | .integer _, hsound, _ => parses_integer hsound
  | .array items, hsound, hfits =>
    parses_items .array (parses_responses items hsound (length_lt_of_append hfits)) rfl hfits
  | .map items, ⟨heven, hsound⟩, hfits => by
    have hitems : (writeResponses std resp3 items).length < 2 ^ 63 := length_lt_of_append hfits
    have helements := parses_responses items hsound hitems
    rcases resp3 with _ | _
    · exact parses_items .array helements rfl hfits
    have hcount := length_le_length_wires helements
    rw [← writeResponses_eq, length_map] at hcount
    have hlen : AggregateKind.map.expected (items.length / 2) = items.length := by
      simp only [AggregateKind.expected, saturatingMul, u64Max]
      omega
    exact parses_items .map helements hlen hfits

theorem parses_responses : ∀ items, AllResponsesSound items →
    (writeResponses std resp3 items).length < 2 ^ 63 →
      ∀ e ∈ items.map (responseElement std resp3), Parses std e.1 e.2
  | [], _, _ => by simp
  | item :: items, ⟨hitem, hitems⟩, hfits => by
    rw [writeResponses, length_append] at hfits
    exact forall_mem_cons.2 ⟨parses_response item hitem (by omega),
      parses_responses items hitems (by omega)⟩

end

end Frames

end Senko.Net
