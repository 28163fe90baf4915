import Senko.Core.Listpack
import Senko.Lib.Arena

/-!
# Senko — quicklists (`senko-core/src/list.rs`)

A quicklist is a doubly linked list of listpack nodes. The raw pointers of the source are ids into
an arena; dereferencing an id whose node was released by `unlink_node` or `clear` has no defined
result, so every operation that follows a pointer returns an `Option` and is `none` there. A loop
over the chain runs on the number of arena cells as fuel, which no walk over live nodes exceeds.

Counters are natural numbers: the saturating `u32`/`u64` arithmetic of the source differs from it
only beyond the memory of any machine. `fill` is the `i32` of the source.
-/

namespace Senko

inductive InsertResult where
  | found
  | notFound
  | keyMissing
deriving DecidableEq, Repr

structure QuickList where
  arena : Arena ListpackNode := {}
  head : Option Nat := none
  tail : Option Nat := none
  nodeCount : Nat := 0
  len : Nat := 0
  fill : Int
deriving DecidableEq, Repr

namespace QuickList

def new (fill : Int) : QuickList := { fill := max fill 1 }

/-- `DEFAULT_FILL`. -/
def default : QuickList := new 128

def isEmpty (q : QuickList) : Bool := q.len == 0

/-! ## Chain surgery -/

/-- Rewrite the node behind a pointer. -/
def updateNode (q : QuickList) (p : Nat) (f : ListpackNode → ListpackNode) : Option QuickList :=
  (q.arena.update p f).map fun arena => { q with arena := arena }

/-- `Box::into_raw(Box::new(node))`. -/
def allocNode (q : QuickList) (node : ListpackNode) : QuickList × Nat :=
  ({ q with arena := (q.arena.alloc node).1 }, (q.arena.alloc node).2)

/-- The two link writes of the source that fall back to a list end when the neighbour is null. -/
def setNextOrHead (q : QuickList) (p link : Option Nat) : Option QuickList :=
  match p with
  | some p => q.updateNode p fun node => { node with next := link }
  | none => some { q with head := link }

def setPrevOrTail (q : QuickList) (p link : Option Nat) : Option QuickList :=
  match p with
  | some p => q.updateNode p fun node => { node with prev := link }
  | none => some { q with tail := link }

/-- The linking half of `split_if_needed`: `newNode` already points at its two neighbours. -/
def linkAfter (q : QuickList) (node : Nat) (newNode : ListpackNode) : Option QuickList := do
  let (q, new) := q.allocNode newNode
  let q ← q.setPrevOrTail newNode.next (some new)
  let q ← q.updateNode node fun n => { n with next := some new }
  some { q with nodeCount := q.nodeCount + 1 }

/-- `split_if_needed`: the upper half of an overfull node moves to a new node after it. -/
def splitIfNeeded (q : QuickList) (node : Nat) : Option QuickList := do
  let n ← q.arena.get node
  if (n.count : Int) ≤ q.fill then some q
  else
    let entries := decodeAllEntries n
    let midpoint := entries.length / 2
    let q ← q.updateNode node (encodeNodeEntries · (entries.take midpoint))
    q.linkAfter node { encodeNodeEntries {} (entries.drop midpoint) with
      prev := some node, next := n.next }

/-- `unlink_node`: bypass the node and release it. -/
def unlinkNode (q : QuickList) (node : Nat) : Option QuickList := do
  let n ← q.arena.get node
  let q ← q.setNextOrHead n.prev n.next
  let q ← q.setPrevOrTail n.next n.prev
  let arena ← q.arena.free node
  let q := { q with arena := arena, nodeCount := q.nodeCount - 1 }
  if q.nodeCount = 0 then some { q with head := none, tail := none } else some q

/-- `try_merge_with_next`. -/
def tryMergeWithNext (q : QuickList) (node : Nat) : Option QuickList := do
  let n ← q.arena.get node
  match n.next with
  | none => some q
  | some next =>
    let m ← q.arena.get next
    let combined : Int := n.count + m.count
    if combined > q.fill / 2 then some q
    else
      let merged := decodeAllEntries n ++ decodeAllEntries m
      let q ← q.updateNode node (encodeNodeEntries · merged)
      q.unlinkNode next

/-- `cleanup_after_mutation`. -/
def cleanupAfterMutation (q : QuickList) (node : Nat) : Option QuickList := do
  let n ← q.arena.get node
  if n.count = 0 then q.unlinkNode node
  else
    let q ← q.tryMergeWithNext node
    let n ← q.arena.get node
    match n.prev with
    | none => some q
    | some prev => q.tryMergeWithNext prev

/-- The loop of `compress_empty_and_merge`. The successor is read before the node is cleaned up
and followed after it. -/
def compressFrom : Nat → QuickList → Option Nat → Option QuickList
  | _, q, none => some q
  | 0, _, some _ => none
  | fuel + 1, q, some node => do
    let n ← q.arena.get node
    let next := n.next
    let q ← q.cleanupAfterMutation node
    compressFrom fuel q next

def compressEmptyAndMerge (q : QuickList) : Option QuickList :=
  compressFrom q.arena.size q q.head

/-! ## Ends -/

/-- The first lines of `push_front` and `push_back`: an empty list gets its first node. -/
def ensureNode (q : QuickList) (p : Option Nat) : QuickList × Nat :=
  match p with
  | some p => (q, p)
  | none =>
    let (q, node) := q.allocNode {}
    ({ q with head := some node, tail := some node, nodeCount := 1 }, node)

def pushFront (q : QuickList) (element : Bytes) : Option QuickList := do
  let (q, head) := q.ensureNode q.head
  let q ← q.updateNode head (lpPushFront · element)
  splitIfNeeded { q with len := q.len + 1 } head

def pushBack (q : QuickList) (element : Bytes) : Option QuickList := do
  let (q, tail) := q.ensureNode q.tail
  let q ← q.updateNode tail (lpPushBack · element)
  splitIfNeeded { q with len := q.len + 1 } tail

/-- The common body of `pop_front` and `pop_back`, at the end `p` with the node operation `pop`. -/
def popAt (q : QuickList) (p : Option Nat) (pop : ListpackNode → Option Bytes × ListpackNode) :
    Option (QuickList × Option Bytes) :=
  match p with
  | none => some (q, none)
  | some p => do
    let node ← q.arena.get p
    match pop node with
    | (none, _) => some (q, none)
    | (some value, node') =>
      let q ← q.updateNode p fun _ => node'
      let q ← cleanupAfterMutation { q with len := q.len - 1 } p
      some (q, some value)

def popFront (q : QuickList) : Option (QuickList × Option Bytes) := q.popAt q.head lpPopFront

def popBack (q : QuickList) : Option (QuickList × Option Bytes) := q.popAt q.tail lpPopBack

/-! ## Indexing -/

/-- `normalize_index`, for a list of `len` elements. -/
def normalizeIndex (len : Nat) (index : Int) : Option Nat :=
  if len = 0 then none
  else
    let index := if index < 0 then len + index else index
    if 0 ≤ index ∧ index < len then some index.toNat else none

/-- `normalize_range`. -/
def normalizeRange (len : Nat) (start stop : Int) : Option (Nat × Nat) :=
  if len = 0 then none
  else
    let start : Int := if start < 0 then len + start else start
    let stop : Int := if stop < 0 then len + stop else stop
    let start : Int := if start < 0 then 0 else start
    let stop : Int := if stop ≥ len then len - 1 else stop
    if start > stop ∨ start ≥ len then none else some (start.toNat, stop.toNat)

/-- The walk of `index` from the head. -/
def indexForward (q : QuickList) (normalized : Nat) : Nat → Option Nat → Nat →
    Option (Option Bytes)
  | _, none, _ => some none
  | 0, some _, _ => none
  | fuel + 1, some p, traversed => do
    let node ← q.arena.get p
    if normalized < traversed + node.count then some (lpGet node (normalized - traversed))
    else indexForward q normalized fuel node.next (traversed + node.count)

/-- The walk of `index` from the tail. -/
def indexBackward (q : QuickList) (normalized : Nat) : Nat → Option Nat → Nat →
    Option (Option Bytes)
  | _, none, _ => some none
  | 0, some _, _ => none
  | fuel + 1, some p, traversed => do
    let node ← q.arena.get p
    let traversed := traversed - node.count
    if normalized ≥ traversed then some (lpGet node (normalized - traversed))
    else indexBackward q normalized fuel node.prev traversed

/-- `index`. The outer option is memory safety, the inner one the result. -/
def index (q : QuickList) (index : Int) : Option (Option Bytes) :=
  match normalizeIndex q.len index with
  | none => some none
  | some normalized =>
    if normalized < q.len / 2 then q.indexForward normalized q.arena.size q.head 0
    else q.indexBackward normalized q.arena.size q.tail q.len

/-- The walk of `set_index`. -/
def setIndexFrom (normalized : Nat) (element : Bytes) : Nat → QuickList → Option Nat → Nat →
    Option (QuickList × Bool)
  | _, q, none, _ => some (q, false)
  | 0, _, some _, _ => none
  | fuel + 1, q, some p, traversed => do
    let node ← q.arena.get p
    if normalized < traversed + node.count then
      let q ← q.updateNode p (lpSet · (normalized - traversed) element)
      let q ← q.splitIfNeeded p
      let q ← q.cleanupAfterMutation p
      some (q, true)
    else setIndexFrom normalized element fuel q node.next (traversed + node.count)

def setIndex (q : QuickList) (index : Int) (element : Bytes) : Option (QuickList × Bool) :=
  match normalizeIndex q.len index with
  | none => some (q, false)
  | some normalized => setIndexFrom normalized element q.arena.size q q.head 0

/-! ## Pivots -/

/-- The common walk of `insert_before` and `insert_after`, with the node operation `insert`. -/
def insertFrom (insert : ListpackNode → Nat → Bytes → ListpackNode) (pivot element : Bytes) :
    Nat → QuickList → Option Nat → Option (QuickList × InsertResult)
  | _, q, none => some (q, .notFound)
  | 0, _, some _ => none
  | fuel + 1, q, some p => do
    let node ← q.arena.get p
    match lpFind node pivot 0 with
    | some index =>
      let q ← q.updateNode p (insert · index element)
      let q ← splitIfNeeded { q with len := q.len + 1 } p
      some (q, .found)
    | none => insertFrom insert pivot element fuel q node.next

def insertAt (insert : ListpackNode → Nat → Bytes → ListpackNode) (q : QuickList)
    (pivot element : Bytes) : Option (QuickList × InsertResult) :=
  match q.head with
  | none => some (q, .keyMissing)
  | some head => insertFrom insert pivot element q.arena.size q (some head)

def insertBefore : QuickList → Bytes → Bytes → Option (QuickList × InsertResult) :=
  insertAt lpInsertBefore

def insertAfter : QuickList → Bytes → Bytes → Option (QuickList × InsertResult) :=
  insertAt lpInsertAfter

/-! ## Removal by value -/

/-- The inner loop of `remove`, scanning from the left: the entries kept, and how many of at most
`remaining` were dropped. -/
def removeEntries (element : Bytes) : Nat → List Bytes → List Bytes × Nat
  | _, [] => ([], 0)
  | remaining, entry :: entries =>
    if 0 < remaining ∧ entry = element then
      let (kept, removed) := removeEntries element (remaining - 1) entries
      (kept, removed + 1)
    else
      let (kept, removed) := removeEntries element remaining entries
      (entry :: kept, removed)

/-- The scan from the right visits the same entries in the opposite order. -/
def removeEntriesDir (forward : Bool) (element : Bytes) (remaining : Nat) (entries : List Bytes) :
    List Bytes × Nat :=
  if forward then removeEntries element remaining entries
  else
    let (kept, removed) := removeEntries element remaining entries.reverse
    (kept.reverse, removed)

/-- The node is rewritten only if something was removed from it. -/
def storeKept (q : QuickList) (p : Nat) (entries : List Bytes) (removedHere : Nat) :
    Option QuickList :=
  if removedHere > 0 then
    (q.updateNode p (encodeNodeEntries · entries)).map fun q =>
      { q with len := q.len - removedHere }
  else some q

/-- The outer loop of `remove`. -/
def removeFrom (forward : Bool) (element : Bytes) : Nat → QuickList → Option Nat → Nat → Nat →
    Option (QuickList × Nat)
  | _, q, none, _, removed => some (q, removed)
  | 0, q, some _, remaining, removed => if remaining = 0 then some (q, removed) else none
  | fuel + 1, q, some p, remaining, removed =>
    if remaining = 0 then some (q, removed)
    else do
      let node ← q.arena.get p
      let next := if forward then node.next else node.prev
      let (entries, removedHere) :=
        removeEntriesDir forward element remaining (decodeAllEntries node)
      let q ← q.storeKept p entries removedHere
      removeFrom forward element fuel q next (remaining - removedHere) (removed + removedHere)

/-- `i64::abs` without overflow checks: the least value is its own absolute value. -/
def i64Abs (x : Int) : Int := if x = -2 ^ 63 then x else |x|

def remove (q : QuickList) (count : Int) (element : Bytes) : Option (QuickList × Nat) :=
  match q.head with
  | none => some (q, 0)
  | some _ => do
    let forward : Bool := count ≥ 0
    let remaining : Int := if count = 0 then 2 ^ 63 - 1 else i64Abs count
    let (q, removed) ← removeFrom forward element q.arena.size q
      (if forward then q.head else q.tail) remaining.toNat 0
    if removed > 0 then (q.compressEmptyAndMerge).map fun q => (q, removed)
    else some (q, removed)

/-! ## Whole-list operations -/

/-- The loop of `clear`. -/
def clearFrom : Nat → Arena ListpackNode → Option Nat → Option (Arena ListpackNode)
  | _, arena, none => some arena
  | 0, _, some _ => none
  | fuel + 1, arena, some p => do
    let node ← arena.get p
    let arena ← arena.free p
    clearFrom fuel arena node.next

def clear (q : QuickList) : Option QuickList := do
  let arena ← clearFrom q.arena.size q.arena q.head
  some { q with arena := arena, head := none, tail := none, nodeCount := 0, len := 0 }

/-- The elements `QuickListRangeIter` yields from `next_index`, `left` indexes before it passes
`stop_index`. Iteration ends at the first index without a value. -/
def rangeFrom (q : QuickList) : Nat → Nat → Option (List Bytes)
  | 0, _ => some []
  | left + 1, current => do
    match ← q.index current with
    | none => some []
    | some value =>
      let values ← rangeFrom q left (current + 1)
      some (value :: values)

/-- `range`, collected. -/
def range (q : QuickList) (start stop : Int) : Option (List Bytes) :=
  match normalizeRange q.len start stop with
  | some (start, stop) => q.rangeFrom (stop + 1 - start) start
  | none => some []

/-- The values `trim` keeps: every index of the range that has one. -/
def keptFrom (q : QuickList) : Nat → Nat → Option (List Bytes)
  | 0, _ => some []
  | left + 1, current => do
    let value ← q.index current
    let kept ← keptFrom q left (current + 1)
    some (value.toList ++ kept)

def pushBackAll (q : QuickList) (values : List Bytes) : Option QuickList :=
  values.foldlM pushBack q

def trim (q : QuickList) (start stop : Int) : Option QuickList :=
  match normalizeRange q.len start stop with
  | none => q.clear
  | some (start, stop) => do
    let kept ← q.keptFrom (stop + 1 - start) start
    let q ← q.clear
    q.pushBackAll kept

/-- `QuickListIter`, collected: the entries of every node along the forward links. -/
def iterFrom (q : QuickList) : Nat → Option Nat → Option (List Bytes)
  | _, none => some []
  | 0, some _ => none
  | fuel + 1, some p => do
    let node ← q.arena.get p
    let rest ← iterFrom q fuel node.next
    some (lpIter node ++ rest)

def iter (q : QuickList) : Option (List Bytes) := q.iterFrom q.arena.size q.head

/-- `clone`: what the iterator yields is pushed into a new list. -/
def clone (q : QuickList) : Option QuickList := do (new q.fill).pushBackAll (← q.iter)

/-! ## Positions -/

/-- The state of a `pos` scan: matches seen, and the positions reported so far. -/
structure PosScan where
  matchesSeen : Nat := 0
  out : List Nat := []
  done : Bool := false

/-- One element of a `pos` scan. -/
def PosScan.visit (s : PosScan) (element : Bytes) (targetRank count : Nat) (index : Nat)
    (value : Bytes) : PosScan :=
  if s.done ∨ value ≠ element then s
  else
    let matchesSeen := s.matchesSeen + 1
    if matchesSeen ≥ targetRank then
      let out := s.out ++ [index]
      { matchesSeen := matchesSeen, out := out, done := count ≠ 0 ∧ out.length ≥ count }
    else { s with matchesSeen := matchesSeen }

/-- The backward scan of `pos`: from the last index down, by `index`, for `scan_limit` rounds. -/
def posBackward (q : QuickList) (element : Bytes) (targetRank count : Nat) : Nat → Nat →
    PosScan → Option PosScan
  | 0, _, s => some s
  | left + 1, scanned, s => do
    let index := q.len - 1 - scanned
    match ← q.index index with
    | none => some s
    | some value =>
      let s := s.visit element targetRank count index value
      if s.done then some s
      else posBackward q element targetRank count left (scanned + 1) s

/-- `pos`. -/
def pos (q : QuickList) (element : Bytes) (rank : Int) (count maxlen : Nat) :
    Option (List Nat) := do
  if q.len = 0 ∨ rank = 0 then some []
  else
    let targetRank := rank.natAbs
    let scanLimit := if maxlen = 0 then q.len else min maxlen q.len
    if rank > 0 then
      let values ← q.iter
      let scan := (values.take scanLimit).zipIdx.foldl
        (fun (s : PosScan) entry => s.visit element targetRank count entry.2 entry.1) {}
      some scan.out
    else
      let scan ← q.posBackward element targetRank count scanLimit 0 {}
      some scan.out

end QuickList

end Senko
