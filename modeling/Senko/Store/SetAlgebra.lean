import Senko.Store.Command

/-!
# Senko — set algebra (`commands/set/algebra.rs`)

Difference, intersection and union of sets, each computed in one of three ways: by merging sorted
integers, through a hash set of byte strings, or through a bitmap of the small integers beside a
hash set of the other members as text. A hash set yields its members in the order of its buckets,
and a bitmap in increasing order. `none` is the panic of `intset_data` on a set of another encoding.
The loops of the source end early once nothing is left, which changes nothing.
-/

namespace Senko

/-! ## Hash sets of the standard library -/

section HashSet

variable {α : Type} [DecidableEq α] (place : Placement α)

def hashSetInsert (t : HashTable α) (a : α) : HashTable α :=
  if (t.find id a).isSome then t else place.insertUnique t a

def hashSetCollect (as : List α) : HashTable α :=
  as.foldl (hashSetInsert place) (place.withCapacity 0)

def hashSetRetain (t : HashTable α) (p : α → Bool) : HashTable α :=
  ⟨t.buckets.map (Option.filter p)⟩

end HashSet

/-! ## The choice of an algorithm -/

def smallHashThreshold : Nat := 64
def roaringThreshold : Nat := 4096

inductive AlgebraStrategy where
  | intsetSorted
  | smallHash
  | largeHash
  | roaring
deriving DecidableEq, Repr

namespace SetObject

def isIntset (z : SetObject) : Bool :=
  match z.inner with
  | .intset _ => true
  | _ => false

def isHashtable (z : SetObject) : Bool :=
  match z.inner with
  | .hashtable _ => true
  | _ => false

def intsetData (z : SetObject) : Option (List Int) :=
  match z.inner with
  | .intset s => some s.data
  | _ => none

end SetObject

def algebraStrategy (sets : List SetObject) : AlgebraStrategy :=
  if sets = [] then .smallHash
  else if sets.any fun set => roaringThreshold < set.len then .roaring
  else if sets.all SetObject.isIntset then .intsetSorted
  else if sets.any fun set => set.len ≤ smallHashThreshold then .smallHash
  else if sets.all SetObject.isHashtable then .largeHash
  else .smallHash

/-! ## Sorted integers -/

def intsetIntersection : List Int → List Int → List Int
  | a :: as, b :: bs =>
    if a < b then intsetIntersection as (b :: bs)
    else if b < a then intsetIntersection (a :: as) bs
    else a :: intsetIntersection as bs
  | _, _ => []
termination_by as bs => as.length + bs.length

def intsetUnion : List Int → List Int → List Int
  | a :: as, b :: bs =>
    if a < b then a :: intsetUnion as (b :: bs)
    else if b < a then b :: intsetUnion (a :: as) bs
    else a :: intsetUnion as bs
  | as, [] => as
  | [], bs => bs
termination_by as bs => as.length + bs.length

def intsetDifference : List Int → List Int → List Int
  | a :: as, b :: bs =>
    if a < b then a :: intsetDifference as (b :: bs)
    else if b < a then intsetDifference (a :: as) bs
    else intsetDifference as bs
  | as, _ => as
termination_by as bs => as.length + bs.length

/-! ## Bitmaps -/

/-- `str::parse::<u32>`. -/
def parseU32 (raw : Bytes) : Option Nat := (parseU64 raw).filter fun n => decide (n < 2 ^ 32)

/-- A `RoaringBitmap`: its numbers, in increasing order. -/
def bitmapInsert (ints : List Nat) (n : Nat) : List Nat :=
  if n ∈ ints then ints else ints.orderedInsert (· ≤ ·) n

/-- The numbers of a set beside its other members. -/
structure RoaringSplit where
  ints : List Nat
  bytes : HashTable CompactString

section Place

variable (place : Placement CompactString)

namespace RoaringSplit

def new : RoaringSplit := ⟨[], place.withCapacity 0⟩

def insert (split : RoaringSplit) (member : Bytes) : RoaringSplit :=
  match parseU32 member with
  | some value => { split with ints := bitmapInsert split.ints value }
  | none => { split with bytes := hashSetInsert place split.bytes (setCompactFromBytes member) }

def retain (split other : RoaringSplit) : RoaringSplit where
  ints := split.ints.filter other.ints.contains
  bytes := hashSetRetain split.bytes fun member => (other.bytes.find id member).isSome

def remove (split other : RoaringSplit) : RoaringSplit where
  ints := split.ints.filter fun n => !other.ints.contains n
  bytes := other.bytes.items.foldl (fun bytes member => bytes.remove id member) split.bytes

def extend (split other : RoaringSplit) : RoaringSplit where
  ints := other.ints.foldl bitmapInsert split.ints
  bytes := other.bytes.items.foldl (hashSetInsert place) split.bytes

end RoaringSplit

def splitToRoaring (set : SetObject) : RoaringSplit :=
  set.iter.foldl (RoaringSplit.insert place) (.new place)

def roaringAndHashToVec (split : RoaringSplit) : List Bytes :=
  split.ints.map (fun n : Nat => printI64 n) ++ split.bytes.items.map CompactString.bytes

def roaringDifference : List (Option SetObject) → List Bytes
  | some first :: rest =>
    roaringAndHashToVec ((rest.reduceOption.map (splitToRoaring place)).foldl RoaringSplit.remove
      (splitToRoaring place first))
  | _ => []

def roaringIntersection (sets : List (Option SetObject)) : List Bytes :=
  match sets.reduceOption with
  | [] => []
  | first :: rest =>
    roaringAndHashToVec ((rest.map (splitToRoaring place)).foldl RoaringSplit.retain
      (splitToRoaring place first))

def roaringUnion (sets : List (Option SetObject)) : List Bytes :=
  roaringAndHashToVec ((sets.reduceOption.map (splitToRoaring place)).foldl
    (RoaringSplit.extend place) (.new place))

end Place

/-! ## The three operations -/

section Compute

variable (bytesPlace : Placement Bytes) (textPlace : Placement CompactString)

def computeSdiff (sets : List (Option SetObject)) : Option (List Bytes) :=
  match sets with
  | some first :: rest =>
    match algebraStrategy sets.reduceOption with
    | .intsetSorted => do
      let current ← first.intsetData
      let others ← rest.reduceOption.mapM SetObject.intsetData
      some ((others.foldl intsetDifference current).map printI64)
    | .roaring => some (roaringDifference textPlace sets)
    | .smallHash | .largeHash =>
      let current := rest.reduceOption.foldl
        (fun current set => hashSetRetain current fun member => !set.contains member)
        (hashSetCollect bytesPlace first.iter)
      some current.items
  | _ => some []

/-- The loop of an intersection: with a limit it ends as soon as that many are left. -/
def intersectLoop {α : Type} (retain : List α → SetObject → Option (List α)) (limit : Option Nat) :
    List α → List SetObject → Option (List α)
  | current, [] => some current
  | current, set :: sets => do
    let current ← retain current set
    match limit.filter fun limit => decide (limit ≤ current.length) with
    | some limit => some (current.take limit)
    | none => intersectLoop retain limit current sets

/-- The intersection of sets that are all there, starting from the smallest one. -/
def intersectFrom (sets : List (Option SetObject)) (limit : Option Nat) (first : SetObject)
    (rest : List SetObject) : Option (List Bytes) :=
  match algebraStrategy (first :: rest) with
  | .intsetSorted => do
    let current ← first.intsetData
    let current ← intersectLoop
      (fun current set => set.intsetData.map (intsetIntersection current)) limit current rest
    some (current.map printI64)
  | .roaring =>
    let result := roaringIntersection textPlace sets
    some (match limit with
      | some limit => result.take limit
      | none => result)
  | .smallHash | .largeHash =>
    intersectLoop (fun current set => some (current.filter set.contains)) limit first.iter rest

def computeSinter (sets : List (Option SetObject)) (limit : Option Nat) : Option (List Bytes) :=
  if sets = [] ∨ sets.any Option.isNone then some []
  else
    match sets.reduceOption.insertionSort fun a b => a.len ≤ b.len with
    | [] => some []
    | first :: rest =>
      if first.isEmpty then some [] else intersectFrom textPlace sets limit first rest

def computeSunion (sets : List (Option SetObject)) : Option (List Bytes) :=
  match algebraStrategy sets.reduceOption with
  | .intsetSorted => do
    match ← sets.reduceOption.mapM SetObject.intsetData with
    | [] => some []
    | first :: rest => some ((rest.foldl intsetUnion first).map printI64)
  | .roaring => some (roaringUnion textPlace sets)
  | .smallHash | .largeHash =>
    some (hashSetCollect bytesPlace (sets.reduceOption.flatMap SetObject.iter)).items

end Compute

end Senko
