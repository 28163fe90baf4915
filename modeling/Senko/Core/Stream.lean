import Mathlib.Data.List.AList
import Mathlib.Data.Prod.Lex
import Senko.Core.Utf8
import Senko.Lib.Assoc
import Senko.Lib.Decimal

/-!
# Senko — streams (`senko-core/src/stream.rs`)

A stream is an append-only log of entries in macro nodes, ordered by the id a node was opened with,
and the consumer groups that read it. Deleting an entry only marks it; trimming drops whole nodes
from the front, or entries from the front of the first node.

Counters are natural numbers: the saturating `u32`/`u64` arithmetic of the source differs from it
only beyond the memory of any machine. The two that a client can set, the sequence number of an id
and the delivery count of a pending entry, saturate as in the source. The bytes a macro node keeps
besides its entries are what `rebuildData` makes of them, and the copies of their own names that
groups and consumers carry are left out.
-/

namespace Senko

open Std (TreeMap)

/-! ## Ids -/

structure StreamId where
  ms : Nat
  seq : Nat
deriving DecidableEq, Repr

namespace StreamId

def lex (id : StreamId) : Nat ×ₗ Nat := toLex (id.ms, id.seq)

theorem lex_injective : Function.Injective lex := by
  rintro ⟨ms, seq⟩ ⟨ms', seq'⟩ h
  simpa [lex] using h

/-- Ids are ordered by time and then by sequence number. -/
instance : LinearOrder StreamId := LinearOrder.lift' lex lex_injective

instance : Std.LawfulEqOrd StreamId := ⟨fun h => compare_eq_iff_eq.1 h⟩

theorem lt_iff {a b : StreamId} : a < b ↔ a.ms < b.ms ∨ a.ms = b.ms ∧ a.seq < b.seq :=
  Prod.Lex.lt_iff

def zero : StreamId := ⟨0, 0⟩
def max : StreamId := ⟨u64Max, u64Max⟩
def auto : StreamId := ⟨u64Max, u64Max⟩
def partialAutoSeq : Nat := u64Max

theorem zero_le (id : StreamId) : zero ≤ id := by
  rw [← not_lt, lt_iff]
  simp [zero]

def autoGenerate (lastId : StreamId) (nowMs : Nat) : StreamId :=
  if lastId.ms < nowMs then ⟨nowMs, 0⟩
  else ⟨Max.max lastId.ms nowMs, saturatingAdd lastId.seq 1⟩

/-- `parse_u64`: digits only, within range. -/
def parseU64 (text : Bytes) : Option Nat :=
  (parseDigits text).filter fun n => n ≤ u64Max

/-- Split at the first occurrence of a byte. -/
def splitOnce (text : Bytes) (sep : UInt8) : Option (Bytes × Bytes) :=
  if sep ∈ text then
    some (text.takeWhile (· ≠ sep), (text.dropWhile (· ≠ sep)).tail)
  else none

/-- The only error of the parsers is `invalid stream id`. -/
def parseWithDefaultSeq (s : Bytes) (defaultSeq : Nat) : Option StreamId :=
  if s = [0x2a] then some auto
  else if s.isEmpty || !validUtf8 s then none
  else
    match splitOnce s 0x2d with
    | some (msText, seqText) =>
      (parseU64 msText).bind fun ms =>
        if seqText = [0x2a] then some ⟨ms, partialAutoSeq⟩
        else (parseU64 seqText).map fun seq => ⟨ms, seq⟩
    | none => (parseU64 s).map fun ms => ⟨ms, defaultSeq⟩

def parse (s : Bytes) : Option StreamId := parseWithDefaultSeq s 0

def toString (id : StreamId) : Bytes := toDecimal id.ms ++ 0x2d :: toDecimal id.seq

end StreamId

/-! ## Macro nodes -/

inductive StreamRefMode where
  | keepRef
  | delRef
  | acked
deriving DecidableEq, Repr

abbrev StreamFields := List (Bytes × Bytes)

structure MacroEntry where
  id : StreamId
  fields : StreamFields
  sameFields : Bool
  deleted : Bool := false
  refMode : StreamRefMode
deriving DecidableEq, Repr

/-- The flag word of an entry. -/
def MacroEntry.flags (entry : MacroEntry) : Nat :=
  (if entry.sameFields then 1 else 0) + (if entry.deleted then 2 else 0) +
    match entry.refMode with
    | .keepRef => 0
    | .delRef => 4
    | .acked => 8

structure ListpackMacroNode where
  count : Nat
  deleted : Nat := 0
  firstId : StreamId
  lastId : StreamId
  masterFields : List Bytes
  entries : List MacroEntry
deriving DecidableEq, Repr

namespace ListpackMacroNode

def newWithMode (firstEntryId : StreamId) (fields : StreamFields) (refMode : StreamRefMode) :
    ListpackMacroNode where
  count := 1
  firstId := firstEntryId
  lastId := firstEntryId
  masterFields := fields.map Prod.fst
  entries := [{ id := firstEntryId, fields, sameFields := true, refMode }]

def appendWithMode (node : ListpackMacroNode) (id : StreamId) (fields : StreamFields)
    (refMode : StreamRefMode) : ListpackMacroNode :=
  { node with
    count := node.count + 1
    firstId := min id node.firstId
    lastId := Max.max node.lastId id
    entries := node.entries ++
      [{ id, fields, sameFields := fields.map Prod.fst == node.masterFields, refMode }] }

/-- Mark the first entry with an id, if it is not marked yet. -/
def softDeleteWithMode (node : ListpackMacroNode) (id : StreamId) (refMode : StreamRefMode) :
    Option ListpackMacroNode :=
  match node.entries.findIdx? fun entry => entry.id = id with
  | none => none
  | some i =>
    if (node.entries[i]?).any MacroEntry.deleted then none
    else some
      { node with
        count := node.count - 1
        deleted := node.deleted + 1
        entries := node.entries.modify i fun entry => { entry with deleted := true, refMode } }

def get (node : ListpackMacroNode) (id : StreamId) : Option StreamFields :=
  (node.entries.find? fun entry => entry.id = id && !entry.deleted).map MacroEntry.fields

/-- The entries that are not deleted. -/
def live (node : ListpackMacroNode) : List MacroEntry :=
  node.entries.filter fun entry => !entry.deleted

def encodeBytes (bytes : Bytes) : Bytes := toLeBytes 8 bytes.length ++ bytes

/-- `data` of the source, as it is rebuilt after every change. -/
def rebuildData (node : ListpackMacroNode) : Bytes :=
  let master := (node.entries.head?.map MacroEntry.id).getD .zero
  let encodeEntry (entry : MacroEntry) : Bytes :=
    toLeBytes 2 entry.flags ++ toLeBytes 8 (entry.id.ms - master.ms) ++
      toLeBytes 8 (entry.id.seq - master.seq) ++
      (if entry.sameFields then entry.fields.flatMap fun field => encodeBytes field.2
       else toLeBytes 8 entry.fields.length ++
         entry.fields.flatMap fun field => encodeBytes field.1 ++ encodeBytes field.2) ++ [1]
  toLeBytes 2 0 ++ toLeBytes 8 node.masterFields.length ++ node.masterFields.flatMap encodeBytes ++
    [0] ++ node.entries.tail.flatMap encodeEntry

def byteSize (node : ListpackMacroNode) : Nat := node.rebuildData.length

def isFull (node : ListpackMacroNode) (maxEntries maxBytes : Nat) : Bool :=
  let maxEntries := if maxEntries = 0 then 100 else maxEntries
  let maxBytes := if maxBytes = 0 then 4096 else maxBytes
  maxEntries ≤ node.count + node.deleted || maxBytes ≤ node.byteSize

def totalEntries (node : ListpackMacroNode) : Nat := node.entries.length

/-- Drop entries from the front and recompute the bounds. -/
def dropOldest (node : ListpackMacroNode) (n : Nat) : ListpackMacroNode :=
  let dropped := node.entries.take n
  let entries := node.entries.drop n
  { node with
    count := node.count - dropped.countP fun entry => !entry.deleted
    deleted := node.deleted - dropped.countP MacroEntry.deleted
    entries
    firstId := (entries.head?.map MacroEntry.id).getD .zero
    lastId := (entries.getLast?.map MacroEntry.id).getD .zero }

def hardTrimOldestEntries (node : ListpackMacroNode) (toRemove : Nat) : ListpackMacroNode × Nat :=
  if toRemove = 0 ∨ node.entries = [] then (node, 0)
  else (node.dropOldest toRemove, min toRemove node.entries.length)

/-- `limit` is 0 for no limit. -/
def hardTrimWhileIdLt (node : ListpackMacroNode) (threshold : StreamId) (limit : Nat) :
    ListpackMacroNode × Nat :=
  let below := (node.entries.takeWhile fun entry => entry.id < threshold).length
  let removed := if limit = 0 then below else min below limit
  if removed = 0 then (node, 0) else (node.dropOldest removed, removed)

end ListpackMacroNode

/-! ## The tree -/

structure StreamRadixTree where
  len : Nat := 0
  totalLen : Nat := 0
  lastId : StreamId := .zero
  firstEntryId : StreamId := .zero
  maxDeletedEntryId : StreamId := .zero
  entriesAdded : Nat := 0
  nodes : TreeMap StreamId ListpackMacroNode := ∅

namespace StreamRadixTree

/-- The nodes whose bounds admit an id. -/
def candidates (t : StreamRadixTree) (id : StreamId) : List (StreamId × ListpackMacroNode) :=
  t.nodes.toList.filter fun node => node.2.firstId ≤ id && id ≤ node.2.lastId

def get (t : StreamRadixTree) (id : StreamId) : Option StreamFields :=
  (t.candidates id).findSome? fun node => node.2.get id

/-- `none` is the error `ERR duplicate stream ID`. -/
def insertWithMode (t : StreamRadixTree) (id : StreamId) (fields : StreamFields)
    (refMode : StreamRefMode) : Option StreamRadixTree :=
  if (t.get id).isSome then none
  else
    let nodes :=
      match t.nodes.toList.getLast? with
      | some (key, tail) =>
        if tail.isFull 100 4096 then t.nodes.insert id (.newWithMode id fields refMode)
        else t.nodes.insert key (tail.appendWithMode id fields refMode)
      | none => t.nodes.insert id (.newWithMode id fields refMode)
    some
      { t with
        nodes
        len := t.len + 1
        totalLen := t.totalLen + 1
        entriesAdded := t.entriesAdded + 1
        lastId := Max.max t.lastId id
        firstEntryId :=
          if t.firstEntryId = .zero ∨ id < t.firstEntryId then id else t.firstEntryId }

def deleteWithMode (t : StreamRadixTree) (id : StreamId) (refMode : StreamRefMode) :
    StreamRadixTree × Bool :=
  match (t.candidates id).head? with
  | none => (t, false)
  | some (key, node) =>
    match node.softDeleteWithMode id refMode with
    | none => (t, false)
    | some node =>
      ({ t with
          nodes := t.nodes.insert key node
          len := t.len - 1
          maxDeletedEntryId := Max.max t.maxDeletedEntryId id }, true)

def delete (t : StreamRadixTree) (id : StreamId) : StreamRadixTree × Bool :=
  t.deleteWithMode id .keepRef

/-- The loop of `range` over the nodes. It ends with the entry that reaches the count, or behind the
node where the count is reached, which a count of 0 is in the first node that meets the range. -/
def rangeLoop (start stop : StreamId) (count : Option Nat) :
    List ListpackMacroNode → List MacroEntry → List MacroEntry
  | [], items => items
  | node :: nodes, items =>
    if node.lastId < start || stop < node.firstId then rangeLoop start stop count nodes items
    else
      let found := node.live.filter fun entry => !(entry.id < start || stop < entry.id)
      match count with
      | none => rangeLoop start stop count nodes (items ++ found)
      | some max =>
        let items := items ++ found.take (Max.max (max - items.length) 1)
        if items.length ≥ max then items else rangeLoop start stop count nodes items

def range (t : StreamRadixTree) (start stop : StreamId) (count : Option Nat) :
    List (StreamId × StreamFields) :=
  (rangeLoop start stop count (t.nodes.toList.map Prod.snd) []).map fun entry =>
    (entry.id, entry.fields)

def firstEntry (t : StreamRadixTree) : Option MacroEntry :=
  t.nodes.toList.findSome? fun node => node.2.live.head?

def lastEntry (t : StreamRadixTree) : Option MacroEntry :=
  t.nodes.toList.reverse.findSome? fun node => node.2.live.getLast?

/-! ### Trimming -/

def refreshEdgeIds (t : StreamRadixTree) : StreamRadixTree :=
  { t with
    firstEntryId := (t.firstEntry.map MacroEntry.id).getD .zero
    lastId := (t.lastEntry.map MacroEntry.id).getD .zero }

def removeWholeNode (t : StreamRadixTree) (key : StreamId) (node : ListpackMacroNode) :
    StreamRadixTree :=
  { t with
    nodes := t.nodes.erase key
    totalLen := t.totalLen - node.totalEntries
    len := t.len - node.count }

/-- A node after entries were trimmed from its front; an empty one is removed. -/
def replaceTrimmed (t : StreamRadixTree) (key : StreamId)
    (trimmed : ListpackMacroNode × Nat) : StreamRadixTree :=
  let nodes :=
    if trimmed.1.totalEntries = 0 then t.nodes.erase key else t.nodes.insert key trimmed.1
  { t with
    nodes
    totalLen := t.totalLen - trimmed.2
    len := (nodes.toList.map fun node => node.2.count).sum }

/-- The loop of `trim_by_maxlen`, with the rounds it may still take. Every round but the last
removes the first node. -/
def trimByMaxlenLoop (maxlen : Nat) (approx : Bool) (limit : Nat) :
    Nat → StreamRadixTree → Nat → StreamRadixTree
  | 0, t, _ => t
  | rounds + 1, t, evicted =>
    if t.totalLen ≤ maxlen then t
    else if 0 < limit ∧ limit ≤ evicted then t
    else
      match t.nodes.toList.head? with
      | none => t
      | some (key, node) =>
        let nodeTotal := node.totalEntries
        if nodeTotal = 0 then
          trimByMaxlenLoop maxlen approx limit rounds { t with nodes := t.nodes.erase key } evicted
        else
          let excess := t.totalLen - maxlen
          -- without a limit there is room for everything
          let fits (n : Nat) : Bool := limit = 0 || n ≤ limit - evicted
          if approx then
            if t.totalLen - nodeTotal < maxlen then t
            else if !fits nodeTotal then t
            else trimByMaxlenLoop maxlen approx limit rounds (t.removeWholeNode key node)
              (evicted + nodeTotal)
          else if nodeTotal ≤ excess then
            if !fits nodeTotal then t
            else trimByMaxlenLoop maxlen approx limit rounds (t.removeWholeNode key node)
              (evicted + nodeTotal)
          else
            let toTrim := if limit = 0 then excess else min excess (limit - evicted)
            if toTrim = 0 then t
            else
              let trimmed := node.hardTrimOldestEntries toTrim
              let t := t.replaceTrimmed key trimmed
              if trimmed.2 = 0 then t
              else trimByMaxlenLoop maxlen approx limit rounds t (evicted + trimmed.2)

def trimByMaxlen (t : StreamRadixTree) (maxlen : Nat) (approx : Bool) (limit : Nat) :
    StreamRadixTree :=
  (trimByMaxlenLoop maxlen approx limit (t.nodes.size + 1) t 0).refreshEdgeIds

/-- The loop of `trim_by_minid`, with the rounds it may still take, and what it evicted. -/
def trimByMinidLoop (minId : StreamId) (limit : Nat) :
    Nat → StreamRadixTree → Nat → StreamRadixTree × Nat
  | 0, t, evicted => (t, evicted)
  | rounds + 1, t, evicted =>
    if 0 < limit ∧ limit ≤ evicted then (t, evicted)
    else
      match t.nodes.toList.head? with
      | none => (t, evicted)
      | some (key, node) =>
        if minId ≤ node.lastId then (t, evicted)
        else if 0 < limit ∧ limit - evicted < node.totalEntries then (t, evicted)
        else trimByMinidLoop minId limit rounds (t.removeWholeNode key node)
          (evicted + node.totalEntries)

def trimByMinid (t : StreamRadixTree) (minId : StreamId) (approx : Bool) (limit : Nat) :
    StreamRadixTree :=
  let (t, evicted) := trimByMinidLoop minId limit t.nodes.size t 0
  let t :=
    match t.nodes.toList.head? with
    | none => t
    | some (key, node) =>
      if !approx && (limit = 0 || evicted < limit) then
        t.replaceTrimmed key (node.hardTrimWhileIdLt minId (limit - evicted))
      else t
  t.refreshEdgeIds

end StreamRadixTree

/-! ## Consumer groups -/

structure PelEntry where
  id : StreamId
  consumer : CompactString
  deliveryTime : Nat
  deliveryCount : Nat

structure ConsumerState where
  seenTime : Nat
  activeTime : Nat
  pel : TreeMap StreamId PelEntry := ∅

structure ConsumerGroup where
  lastDeliveredId : StreamId
  entriesRead : Nat
  pelCount : Nat := 0
  consumers : AList fun _ : CompactString => ConsumerState := ∅
  globalPel : TreeMap StreamId CompactString := ∅
  /-- An entry was put into `global_pel`. A `BTreeMap` gets its root node then, and keeps it when
  the last entry is removed. -/
  globalPelRoot : Bool := false

structure StreamObject where
  tree : StreamRadixTree := {}
  groups : AList fun _ : CompactString => ConsumerGroup := ∅

/-- `global_pel` has a root node. -/
def ConsumerGroup.hasRoot (group : ConsumerGroup) : Bool :=
  group.globalPelRoot || !group.globalPel.isEmpty

/-- The clone of an empty `BTreeMap` has no root. -/
def ConsumerGroup.clone (group : ConsumerGroup) : ConsumerGroup :=
  { group with globalPelRoot := !group.globalPel.isEmpty }

def StreamObject.clone (stream : StreamObject) : StreamObject :=
  { stream with groups := mapValues ConsumerGroup.clone stream.groups }

end Senko
