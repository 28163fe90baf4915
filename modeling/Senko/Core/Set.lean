import Senko.Core.Listpack
import Senko.Core.Utf8
import Senko.Lib.Decimal
import Senko.Lib.HashTable
import Senko.Lib.Sorted

/-!
# Senko — sets (`senko-core/src/set.rs`)

A set is kept as a sorted vector of integers, as a listpack of its members, or as a hash table of
strings, and moves from one encoding to the next as members are added. The three encodings tell
members apart in three ways: by the integer they parse as, by their bytes, and by the text that is
left when invalid UTF-8 is replaced.
-/

namespace Senko

open List

def intsetMaxEntries : Nat := 512
def setListpackMaxEntries : Nat := 128
def setListpackMaxValueSize : Nat := 64
def simdLinearSearchMax : Nat := 128

/-! ## Integer sets -/

inductive IntSetEncoding where
  | int16
  | int32
  | int64
deriving DecidableEq, Repr

def IntSetEncoding.bits : IntSetEncoding → Nat
  | int16 => 16
  | int32 => 32
  | int64 => 64

/-- The wider of two encodings. -/
def IntSetEncoding.max (a b : IntSetEncoding) : IntSetEncoding := if a.bits < b.bits then b else a

def encodingFor (value : Int) : IntSetEncoding :=
  if -2 ^ 15 ≤ value ∧ value < 2 ^ 15 then .int16
  else if -2 ^ 31 ≤ value ∧ value < 2 ^ 31 then .int32
  else .int64

/-- The integers of a set, in increasing order. -/
structure IntSet where
  data : List Int := []
  encoding : IntSetEncoding := .int16
  sorted : data.Pairwise (· < ·) := by exact .nil

namespace IntSet

variable {data : List Int} {val : Int} {index : Nat}

theorem sorted_insertIdx (hsorted : data.Pairwise (· < ·))
    (h : binarySearch data val = .error index) : (data.insertIdx index val).Pairwise (· < ·) := by
  obtain ⟨a, b, rfl, rfl, ha, hb⟩ := binarySearch_error hsorted h
  obtain ⟨hpa, hpb, hab⟩ := pairwise_append.1 hsorted
  rw [insertIdx_append_length]
  exact pairwise_append.2 ⟨hpa, pairwise_cons.2 ⟨hb, hpb⟩, fun x hx =>
    forall_mem_cons.2 ⟨ha x hx, hab x hx⟩⟩

def insert (s : IntSet) (val : Int) : IntSet × Bool :=
  match h : binarySearch s.data val with
  | .ok _ => (s, false)
  | .error index =>
    ({ data := s.data.insertIdx index val
       encoding := s.encoding.max (encodingFor val)
       sorted := sorted_insertIdx s.sorted h }, true)

def remove (s : IntSet) (val : Int) : IntSet × Bool :=
  match binarySearch s.data val with
  | .ok index =>
    ({ s with
        data := s.data.eraseIdx index
        sorted := s.sorted.sublist (List.eraseIdx_sublist ..) }, true)
  | .error _ => (s, false)

/-- `simd_or_scalar_search`: four values are compared at once, then the rest one by one. -/
def simdOrScalarSearch (needle : Int) (data : List Int) : Bool := data.contains needle

def contains (s : IntSet) (val : Int) : Bool :=
  if s.data.length ≤ simdLinearSearchMax then simdOrScalarSearch val s.data
  else (binarySearch s.data val).toBool

def len (s : IntSet) : Nat := s.data.length

end IntSet

/-! ## Listpacks as sets -/

/-- `memmem::find`: the start of the first occurrence. -/
def memmemFind (haystack needle : Bytes) : Option Nat := (memmemFindIter haystack needle).head?

/-- The loop of `lp_set_contains`. As in `lp_find`, the buffer length bounds the rounds. -/
def lpSetContainsLoop (data member : Bytes) : Nat → Nat → Bool
  | 0, _ => false
  | fuel + 1, cursor =>
    if cursor < data.length then
      match decodeEntryAt data cursor with
      | none => false
      | some (payload, nextCursor) =>
        if memmemFind payload.bytes member = some 0 ∧ payload.bytes.length = member.length then true
        else lpSetContainsLoop data member fuel nextCursor
    else false

def lpSetContains (node : ListpackNode) (member : Bytes) : Bool :=
  if member = [] then (lpIter node).any fun value => value.isEmpty
  else lpSetContainsLoop node.data member node.data.length 0

def lpSetInsert (node : ListpackNode) (member : Bytes) : ListpackNode × Bool :=
  if lpSetContains node member then (node, false) else (lpPushBack node member, true)

def lpSetRemove (node : ListpackNode) (member : Bytes) : ListpackNode × Bool :=
  match (lpIter node).findIdx? fun value => value = member with
  | none => (node, false)
  | some index => (lpDeleteAt node index, true)

/-! ## Hash sets -/

/-- `HashSet::insert`. -/
def tableInsert (place : Placement CompactString) (table : HashTable CompactString)
    (member : CompactString) : HashTable CompactString × Bool :=
  if (table.find id member).isSome then (table, false) else (place.insertUnique table member, true)

/-- `HashSet::remove`. -/
def tableRemove (table : HashTable CompactString) (member : CompactString) :
    HashTable CompactString × Bool :=
  if (table.find id member).isSome then (table.remove id member, true) else (table, false)

/-! ## Set objects -/

inductive SetEncoding where
  | intset (intset : IntSet)
  | listpack (node : ListpackNode)
  | hashtable (table : HashTable CompactString)

structure SetObject where
  inner : SetEncoding := .intset {}
  len : Nat := 0

/-- `compact_from_bytes`. -/
def setCompactFromBytes (member : Bytes) : CompactString := CompactString.ofUtf8Lossy member

def parseInteger (member : Bytes) : Option Int := if validUtf8 member then parseI64 member else none

/-- `i64::to_string`, as a string. -/
def compactFromInt (value : Int) : CompactString :=
  ⟨printI64 value, validUtf8_of_ascii fun _ hb => lt_of_mem_printI64 hb⟩

namespace SetEncoding

/-- The members, in the order `SetIter` yields them. -/
def iter : SetEncoding → List Bytes
  | intset s => s.data.map printI64
  | listpack node => lpIter node
  | hashtable table => table.items.map CompactString.bytes

def clone : SetEncoding → SetEncoding
  | listpack node => listpack (lpClone node)
  | inner => inner

variable (place : Placement CompactString)

def upgradeIntsetToListpack : SetEncoding → SetEncoding
  | intset s => listpack (s.data.foldl (fun node value => lpPushBack node (printI64 value)) {})
  | inner => inner

def upgradeIntsetToHashtable : SetEncoding → SetEncoding
  | intset s =>
    hashtable (s.data.foldl (fun table value => (tableInsert place table (compactFromInt value)).1)
      (place.withCapacity s.len))
  | inner => inner

def upgradeListpackToHashtable : SetEncoding → SetEncoding
  | listpack node =>
    hashtable ((lpIter node).foldl
      (fun table member => (tableInsert place table (setCompactFromBytes member)).1)
      (place.withCapacity (lpLen node)))
  | inner => inner

def ensureEncodingForInsert (inner : SetEncoding) (member : Bytes) (intValue : Option Int) :
    SetEncoding :=
  match inner with
  | intset s =>
    let wouldInsert := intValue.all fun value => !s.contains value
    if wouldInsert then
      let newLen := s.len + 1
      let memberTooLarge := setListpackMaxValueSize < member.length
      if (intValue.isNone ∧ (setListpackMaxEntries < newLen ∨ memberTooLarge)) ∨
          intsetMaxEntries < newLen then
        inner.upgradeIntsetToHashtable place
      else if intValue.isNone then inner.upgradeIntsetToListpack
      else inner
    else inner
  | listpack node =>
    if lpSetContains node member then inner
    else if setListpackMaxEntries < lpLen node + 1 ∨ setListpackMaxValueSize < member.length then
      inner.upgradeListpackToHashtable place
    else inner
  | hashtable _ => inner

/-- Insert a member into the encoding chosen for it; `true` if it is new. -/
def insert (inner : SetEncoding) (member : Bytes) (intValue : Option Int) : SetEncoding × Bool :=
  match inner with
  | intset s =>
    match intValue with
    | some value => let (s, inserted) := s.insert value; (intset s, inserted)
    | none => (inner, false)
  | listpack node => let (node, inserted) := lpSetInsert node member; (listpack node, inserted)
  | hashtable table =>
    let (table, inserted) := tableInsert place table (setCompactFromBytes member)
    (hashtable table, inserted)

def remove (inner : SetEncoding) (member : Bytes) : SetEncoding × Bool :=
  match inner with
  | intset s =>
    match parseInteger member with
    | some value => let (s, removed) := s.remove value; (intset s, removed)
    | none => (inner, false)
  | listpack node => let (node, removed) := lpSetRemove node member; (listpack node, removed)
  | hashtable table =>
    let (table, removed) := tableRemove table (setCompactFromBytes member)
    (hashtable table, removed)

def contains (inner : SetEncoding) (member : Bytes) : Bool :=
  match inner with
  | intset s => (parseInteger member).any s.contains
  | listpack node => lpSetContains node member
  | hashtable table => (table.find id (setCompactFromBytes member)).isSome

end SetEncoding

namespace SetObject

variable (place : Placement CompactString)

def new : SetObject := {}

def add (z : SetObject) (member : Bytes) : SetObject × Bool :=
  let intValue := parseInteger member
  let inner := z.inner.ensureEncodingForInsert place member intValue
  let (inner, inserted) := inner.insert place member intValue
  -- the length is a `u32` that saturates
  ({ inner, len := if inserted then min (z.len + 1) (2 ^ 32 - 1) else z.len }, inserted)

def remove (z : SetObject) (member : Bytes) : SetObject × Bool :=
  let (inner, removed) := z.inner.remove member
  ({ inner, len := if removed then z.len - 1 else z.len }, removed)

def contains (z : SetObject) (member : Bytes) : Bool := z.inner.contains member

def isEmpty (z : SetObject) : Bool := z.len == 0

def iter (z : SetObject) : List Bytes := z.inner.iter

def clone (z : SetObject) : SetObject := { z with inner := z.inner.clone }

end SetObject

end Senko
