import Senko.Lib.Bytes

/-!
# Senko — listpack nodes (`senko-core/src/list.rs`)

A listpack node packs a list of byte strings into one buffer. An entry is the varint of the
previous entry's encoded length, a string header (one, three or five bytes, by payload length),
the payload, and one trailing *back-length* byte: the encoded length of the entry, clamped to 255.
The forward walk advances by that byte, so it finds the next entry only where the clamp was idle.

This module embeds the codec and every `lp_*` operation. Pointers into the buffer are offsets, a
slice is its start and its bytes, and `?` is the `Option` bind. The round trip is proved in
`Senko.Core.ListpackRoundTrip`.
-/

namespace Senko

/-! ## Varints -/

/-- `write_varint`: the loop shifts a `u64` right by seven until nothing is left, which takes at
most ten rounds. -/
def writeVarintLoop : Nat → Nat → Bytes
  | 0, _ => []
  | fuel + 1, value =>
    let byte := UInt8.ofNat (value &&& 0x7f)
    let value := value >>> 7
    if value ≠ 0 then (byte ||| 0x80) :: writeVarintLoop fuel value else [byte]

def writeVarint (value : Nat) : Bytes := writeVarintLoop 10 (value % 2 ^ 64)

/-- `read_varint`: the accumulated value and the offset after the last byte. The loop gives up
once the shift passes 63, so it too runs at most ten rounds. -/
def readVarintLoop (data : Bytes) : Nat → Nat → Nat → Nat → Option (Nat × Nat)
  | 0, _, _, _ => none
  | fuel + 1, offset, value, shift => do
    let byte ← data[offset]?
    let value := value ||| ((byte &&& 0x7f).toNat <<< shift) % 2 ^ 64
    let offset := offset + 1
    if byte &&& 0x80 = 0 then some (value, offset)
    else
      let shift := shift + 7
      if shift > 63 then none else readVarintLoop data fuel offset value shift

def readVarint (data : Bytes) (offset : Nat) : Option (Nat × Nat) :=
  readVarintLoop data 10 offset 0 0

/-! ## String headers -/

/-- `write_string_header`. -/
def writeStringHeader (len : Nat) : Bytes :=
  if len ≤ 0x3f then [0x80 ||| UInt8.ofNat len]
  else if len < 2 ^ 16 then 0xe0 :: toLeBytes 2 len
  else 0xf0 :: toLeBytes 4 len

/-- `read_string_header`: the payload length and the length of the header itself. -/
def readStringHeader (data : Bytes) : Option (Nat × Nat) := do
  let first ← data[0]?
  if first &&& 0xc0 = 0x80 then some ((first &&& 0x3f).toNat, 1)
  else if first = 0xe0 then do
    let bytes ← getRange data 1 3
    some (fromLeBytes bytes, 3)
  else if first = 0xf0 then do
    let bytes ← getRange data 1 5
    some (fromLeBytes bytes, 5)
  else none

/-! ## Entries -/

/-- A borrowed sub-slice of a buffer: where it starts and what it holds. -/
structure Slice where
  start : Nat
  bytes : Bytes
deriving DecidableEq, Repr

/-- Everything of an encoded entry but its back-length byte. -/
def entryBody (element : Bytes) (prevLen : Nat) : Bytes :=
  writeVarint prevLen ++ writeStringHeader element.length ++ element

/-- `encode_entry`. -/
def encodeEntry (element : Bytes) (prevLen : Nat) : Bytes :=
  let out := entryBody element prevLen
  let backlen := out.length + 1
  out ++ [UInt8.ofNat (min backlen 255)]

/-- `decode_entry_at`: the payload and the offset of what the back-length byte says is next. -/
def decodeEntryAt (data : Bytes) (offset : Nat) : Option (Slice × Nat) :=
  if offset ≥ data.length then none
  else do
    let (_, cursor) ← readVarint data offset
    let (payloadLen, headerLen) ← readStringHeader (← getFrom data cursor)
    let cursor := cursor + headerLen
    let payloadEnd := cursor + payloadLen
    let payload ← getRange data cursor payloadEnd
    let backlen ← data[payloadEnd]?
    some (⟨cursor, payload⟩, offset + backlen.toNat)

/-! ## Nodes -/

/-- The node of a quicklist. `prev` and `next` are ids of other nodes, null pointers are `none`. -/
structure ListpackNode where
  data : Bytes := []
  count : Nat := 0
  prev : Option Nat := none
  next : Option Nat := none
deriving DecidableEq, Repr

/-- The loop of `encode_node_entries`: each entry records the encoded length of the one before. -/
def encodeEntries : Nat → List Bytes → Bytes
  | _, [] => []
  | prevLen, entry :: entries =>
    let encoded := encodeEntry entry prevLen
    encoded ++ encodeEntries encoded.length entries

/-- `encode_node_entries`. The count field is a `u16`. -/
def encodeNodeEntries (node : ListpackNode) (entries : List Bytes) : ListpackNode :=
  { node with data := encodeEntries 0 entries, count := entries.length % 2 ^ 16 }

/-- What `ListpackIter` yields from `offset` on, with `left` items to go at most. -/
def listpackIterFrom (data : Bytes) : Nat → Nat → List Slice
  | 0, _ => []
  | left + 1, offset =>
    match decodeEntryAt data offset with
    | none => []
    | some (payload, nextOffset) => payload :: listpackIterFrom data left nextOffset

def lpIter (node : ListpackNode) : List Bytes :=
  (listpackIterFrom node.data node.count 0).map Slice.bytes

/-- `decode_all_entries`. -/
def decodeAllEntries (node : ListpackNode) : List Bytes := lpIter node

/-! ## Operations -/

def lpPushFront (node : ListpackNode) (element : Bytes) : ListpackNode :=
  encodeNodeEntries node (element :: decodeAllEntries node)

def lpPushBack (node : ListpackNode) (element : Bytes) : ListpackNode :=
  encodeNodeEntries node (decodeAllEntries node ++ [element])

/-- `lp_pop_front`: the popped value, with the node it leaves. -/
def lpPopFront (node : ListpackNode) : Option Bytes × ListpackNode :=
  match decodeAllEntries node with
  | [] => (none, node)
  | value :: entries => (some value, encodeNodeEntries node entries)

def lpPopBack (node : ListpackNode) : Option Bytes × ListpackNode :=
  match (decodeAllEntries node).getLast? with
  | none => (none, node)
  | some value => (some value, encodeNodeEntries node (decodeAllEntries node).dropLast)

/-- The loop of `lp_get`, `left` rounds before `current` reaches the count. -/
def lpGetLoop (data : Bytes) (index : Nat) : Nat → Nat → Nat → Option Bytes
  | 0, _, _ => none
  | left + 1, offset, current => do
    let (payload, nextOffset) ← decodeEntryAt data offset
    if current = index then some payload.bytes
    else lpGetLoop data index left nextOffset (current + 1)

def lpGet (node : ListpackNode) (index : Nat) : Option Bytes :=
  lpGetLoop node.data index node.count 0 0

def lpLen (node : ListpackNode) : Nat := node.count

def lpDeleteAt (node : ListpackNode) (index : Nat) : ListpackNode :=
  let entries := decodeAllEntries node
  if index ≥ entries.length then node else encodeNodeEntries node (entries.eraseIdx index)

def lpInsertBefore (node : ListpackNode) (index : Nat) (element : Bytes) : ListpackNode :=
  let entries := decodeAllEntries node
  let index := min index entries.length
  encodeNodeEntries node (entries.insertIdx index element)

def lpInsertAfter (node : ListpackNode) (index : Nat) (element : Bytes) : ListpackNode :=
  let entries := decodeAllEntries node
  let index := min (index + 1) entries.length
  encodeNodeEntries node (entries.insertIdx index element)

def lpSet (node : ListpackNode) (index : Nat) (element : Bytes) : ListpackNode :=
  let entries := decodeAllEntries node
  if index ≥ entries.length then node else encodeNodeEntries node (entries.set index element)

/-- How the `clone` of a set or of a sorted set copies its node: the entries that the iterator
yields are pushed into a fresh one. -/
def lpClone (node : ListpackNode) : ListpackNode := (lpIter node).foldl lpPushBack {}

/-! ## Searching

`lp_find` with `skip = 0` and a non-empty element first searches the raw buffer with
`memmem::find_iter`, whose documented contract is the list of starts of the leftmost
non-overlapping occurrences of the needle. -/

/-- The starts of the leftmost non-overlapping occurrences of `needle` in `haystack`, where
`haystack` begins at `offset` and its first `skip` positions are covered by the last match. -/
def findIterFrom (needle : Bytes) : Nat → Nat → Bytes → List Nat
  | _, _, [] => []
  | offset, 0, b :: haystack =>
    if needle.isPrefixOf (b :: haystack) then
      offset :: findIterFrom needle (offset + 1) (needle.length - 1) haystack
    else findIterFrom needle (offset + 1) 0 haystack
  | offset, skip + 1, _ :: haystack => findIterFrom needle (offset + 1) skip haystack

/-- `memmem::find_iter`, used with a non-empty needle only. -/
def memmemFindIter (haystack needle : Bytes) : List Nat := findIterFrom needle 0 0 haystack

/-- The inner loop of `lp_find`: walk the entries until one starts at the candidate `offset` and
has the needle's length. Where every entry fits its back-length the walk moves forward by at least
one byte a round, so the buffer length bounds it. -/
def lpFindWalk (data : Bytes) (offset len : Nat) : Nat → Nat → Nat → Option Nat
  | 0, _, _ => none
  | fuel + 1, cursor, index =>
    if cursor < data.length then
      match decodeEntryAt data cursor with
      | none => none
      | some (payload, nextCursor) =>
        if payload.start = offset ∧ payload.bytes.length = len then some index
        else lpFindWalk data offset len fuel nextCursor (index + 1)
    else none

/-- `lp_find`. -/
def lpFind (node : ListpackNode) (element : Bytes) (skip : Nat) : Option Nat :=
  if skip = 0 ∧ element ≠ [] then
    (memmemFindIter node.data element).findSome? fun offset =>
      lpFindWalk node.data offset element.length node.data.length 0 0
  else
    ((lpIter node).zipIdx.find? fun (value, index) =>
      index % (skip + 1) = 0 ∧ value = element).map Prod.snd

end Senko
