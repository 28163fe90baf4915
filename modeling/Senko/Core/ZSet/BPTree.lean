import Senko.Core.Float
import Senko.Core.Utf8
import Senko.Lib.Arena
import Senko.Lib.Sorted

/-!
# Senko — the sorted-set B+tree

The tree behind large sorted sets. Nodes live in an arena and refer to each other by id: an inner
node holds its separators, its children and the size of each child's subtree; the leaves hold the
`(score, member)` pairs and form a doubly linked list. `memberScores` is the tree's own index from
member to score. A removal takes the entry out of its leaf and rebuilds the tree from the leaf
list.

The outer `Option` of every operation is `none` where the program would panic: a dead arena slot,
a leaf where an inner node was expected, an index out of bounds. Loops and the recursion down the
tree take fuel; the specifications show that the size of the arena is always enough. Subtree sizes
and ranks are unbounded naturals, as a tree of `2 ^ 64` entries does not fit in memory.
-/

namespace Senko

/-! ## Entries and their order -/

inductive BPTree.InsertResult where
  | inserted
  | updated (oldScore : F64)
deriving DecidableEq, Repr

inductive ScoreBound where
  | inclusive (score : F64)
  | exclusive (score : F64)
  | negInf
  | posInf
deriving DecidableEq, Repr

inductive LexBound where
  | inclusive (member : Bytes)
  | exclusive (member : Bytes)
  | min
  | max
deriving DecidableEq, Repr

/-- A pair of a score and a member: `ZSetEntry` and `EntryKey` of the source, and the
`(f64, CompactString)` pairs its iterators yield. -/
structure ZSetEntry where
  score : F64
  member : CompactString
deriving DecidableEq

abbrev EntryKey := ZSetEntry

def scoresEqual (lhs rhs : F64) : Bool := lhs.eq rhs

/-- `a.cmp(b)` on byte strings. -/
def compareBytes : Bytes → Bytes → Ordering
  | [], [] => .eq
  | [], _ :: _ => .lt
  | _ :: _, [] => .gt
  | x :: xs, y :: ys =>
    if x.toNat < y.toNat then .lt else if y.toNat < x.toNat then .gt else compareBytes xs ys

def compareKey (a b : EntryKey) : Ordering :=
  if a.score.lt b.score then .lt
  -- `score_a > score_b`
  else if b.score.lt a.score then .gt
  else compareBytes a.member.bytes b.member.bytes

def entryMatches (entry key : ZSetEntry) : Bool :=
  scoresEqual entry.score key.score && entry.member = key.member

def lowerBoundEntry (entries : List ZSetEntry) (key : EntryKey) : Nat :=
  partitionPoint (fun entry => compareKey entry key == .lt) entries

def childIndexForKey (keys : List EntryKey) (key : EntryKey) : Nat :=
  partitionPoint (fun k => compareKey k key != .gt) keys

def childIndexForScoreBound (keys : List EntryKey) : ScoreBound → Nat
  | .inclusive score => partitionPoint (fun k => k.score.lt score) keys
  | .exclusive score => partitionPoint (fun k => k.score.le score) keys
  | .negInf => 0
  | .posInf => keys.length

def scoreLowerPredicate (score : F64) : ScoreBound → Bool
  | .inclusive min => score.lt min
  | .exclusive min => score.le min
  | .negInf => false
  | .posInf => true

def scoreWithinUpperBound (score : F64) : ScoreBound → Bool
  | .inclusive max => score.le max || scoresEqual score max
  | .exclusive max => score.lt max && !scoresEqual score max
  | .negInf => false
  | .posInf => true

def lexMatchesUpperBound (member : Bytes) : LexBound → Bool
  | .inclusive max => compareBytes member max != .gt
  | .exclusive max => compareBytes member max == .lt
  | .min => false
  | .max => true

/-! ## Nodes and their arena -/

def leafCapacity : Nat := 14
def innerCapacity : Nat := 21
def minLeafItems : Nat := leafCapacity / 2

abbrev NodeId := Nat

structure LeafNode where
  entries : List ZSetEntry
  next : Option NodeId
  prev : Option NodeId
deriving DecidableEq

structure InnerNode where
  keys : List EntryKey
  children : List NodeId
  childSizes : List Nat
deriving DecidableEq

inductive Node where
  | leaf (leaf : LeafNode)
  | inner (inner : InnerNode)
deriving DecidableEq

/-- The slabs are one growing list of slots; `next_id` is its length. -/
structure NodeArena where
  slots : Arena Node := {}
  freeList : List NodeId := []
  liveNodes : Nat := 0

namespace NodeArena

def alloc (a : NodeArena) (node : Node) : NodeArena × NodeId :=
  match a.freeList.getLast? with
  | some id =>
    ({ slots := ⟨a.slots.cells.set id (some node)⟩, freeList := a.freeList.dropLast,
       liveNodes := a.liveNodes + 1 }, id)
  | none =>
    ({ a with slots := (a.slots.alloc node).1, liveNodes := a.liveNodes + 1 },
      (a.slots.alloc node).2)

def get (a : NodeArena) (id : NodeId) : Option Node := a.slots.get id

def set (a : NodeArena) (id : NodeId) (node : Node) : Option NodeArena :=
  (a.slots.update id fun _ => node).map fun slots => { a with slots }

def clear (_ : NodeArena) : NodeArena := {}

end NodeArena

/-- `member_scores` is a finite map. -/
structure BPTree where
  root : Option NodeId := none
  leftmost : Option NodeId := none
  rightmost : Option NodeId := none
  len : Nat := 0
  arena : NodeArena := {}
  memberScores : CompactString → Option F64 := fun _ => none

namespace BPTree

def new : BPTree := {}

def isEmpty (t : BPTree) : Bool := t.len == 0

/-- Enough rounds for any walk along distinct live nodes. -/
def fuel (t : BPTree) : Nat := t.arena.slots.size + 1

def leaf (t : BPTree) (id : NodeId) : Option LeafNode :=
  match t.arena.get id with
  | some (.leaf leaf) => some leaf
  | _ => none

def inner (t : BPTree) (id : NodeId) : Option InnerNode :=
  match t.arena.get id with
  | some (.inner inner) => some inner
  | _ => none

def setNode (t : BPTree) (id : NodeId) (node : Node) : Option BPTree :=
  (t.arena.set id node).map fun arena => { t with arena }

/-- Writing through `leaf_mut`. -/
def leafMut (t : BPTree) (id : NodeId) (f : LeafNode → Option LeafNode) : Option BPTree := do
  let leaf ← t.leaf id
  let leaf' ← f leaf
  t.setNode id (.leaf leaf')

/-- Writing through `inner_mut`. -/
def innerMut (t : BPTree) (id : NodeId) (f : InnerNode → Option InnerNode) : Option BPTree := do
  let inner ← t.inner id
  let inner' ← f inner
  t.setNode id (.inner inner')

def alloc (t : BPTree) (node : Node) : BPTree × NodeId :=
  ({ t with arena := (t.arena.alloc node).1 }, (t.arena.alloc node).2)

def subtreeSize (t : BPTree) (id : NodeId) : Option Nat :=
  match t.arena.get id with
  | some (.leaf leaf) => some leaf.entries.length
  | some (.inner inner) => some inner.childSizes.sum
  | none => none

def clear (t : BPTree) : BPTree :=
  { t with root := none, leftmost := none, rightmost := none, len := 0,
           memberScores := fun _ => none, arena := t.arena.clear }

/-! ## Insertion -/

/-- Link the new right half into the leaf list behind `nodeId`. -/
def linkRight (t : BPTree) (rightId : NodeId) : Option NodeId → Option BPTree
  | some nextId => t.leafMut nextId fun leaf => some { leaf with prev := some rightId }
  | none => some { t with rightmost := some rightId }

def splitLeaf (t : BPTree) (nodeId : NodeId) : Option (BPTree × Option (EntryKey × NodeId)) := do
  let leaf ← t.leaf nodeId
  let next := leaf.next
  let (kept, rightEntries) ← vecSplitOff leaf.entries minLeafItems
  let t ← t.leafMut nodeId fun leaf => some { leaf with entries := kept, next := none }
  let (t, rightId) := t.alloc (.leaf { entries := rightEntries, next, prev := some nodeId })
  let t ← t.leafMut nodeId fun leaf => some { leaf with next := some rightId }
  let t ← t.linkRight rightId next
  let right ← t.leaf rightId
  let separator ← right.entries[0]?
  some (t, some (separator, rightId))

def insertIntoLeaf (t : BPTree) (nodeId : NodeId) (entry : ZSetEntry) :
    Option (BPTree × Option (EntryKey × NodeId)) := do
  let leaf ← t.leaf nodeId
  let insertIndex := lowerBoundEntry leaf.entries entry
  let entries ← vecInsert leaf.entries insertIndex entry
  let t ← t.leafMut nodeId fun leaf => some { leaf with entries }
  if entries.length ≤ leafCapacity then some (t, none) else t.splitLeaf nodeId

def splitInner (t : BPTree) (nodeId : NodeId) : Option (BPTree × Option (EntryKey × NodeId)) := do
  let inner ← t.inner nodeId
  let splitAt := inner.keys.length / 2
  let separator ← inner.keys[splitAt]?
  let (keys, rightKeys) ← vecSplitOff inner.keys (splitAt + 1)
  let (children, rightChildren) ← vecSplitOff inner.children (splitAt + 1)
  let (childSizes, rightSizes) ← vecSplitOff inner.childSizes (splitAt + 1)
  -- `drain` leaves the separator at the end of the left half, `truncate` drops it
  let t ← t.innerMut nodeId fun _ => some { keys := keys.take splitAt, children, childSizes }
  let (t, rightId) := t.alloc
    (.inner { keys := rightKeys, children := rightChildren, childSizes := rightSizes })
  some (t, some (separator, rightId))

/-- What an inner node does once its child `childIndex` came back from the insertion. -/
def insertIntoInner (t : BPTree) (nodeId : NodeId) (childIndex : Nat) (childId : NodeId) :
    Option (EntryKey × NodeId) → Option (BPTree × Option (EntryKey × NodeId))
  | some (separator, rightId) => do
    let leftSize ← t.subtreeSize childId
    let rightSize ← t.subtreeSize rightId
    let inner ← t.inner nodeId
    let keys ← vecInsert inner.keys childIndex separator
    let children ← vecInsert inner.children (childIndex + 1) rightId
    let childSizes ← vecSet inner.childSizes childIndex leftSize
    let childSizes ← vecInsert childSizes (childIndex + 1) rightSize
    let t ← t.innerMut nodeId fun _ => some { keys, children, childSizes }
    if innerCapacity < keys.length then t.splitInner nodeId else some (t, none)
  | none => do
    let inner ← t.inner nodeId
    let size ← inner.childSizes[childIndex]?
    let childSizes ← vecSet inner.childSizes childIndex (size + 1)
    let t ← t.innerMut nodeId fun inner => some { inner with childSizes }
    some (t, none)

def insertRecursive : Nat → BPTree → NodeId → ZSetEntry →
    Option (BPTree × Option (EntryKey × NodeId))
  | 0, _, _, _ => none
  | fuel + 1, t, nodeId, entry =>
    match t.arena.get nodeId with
    | some (.leaf _) => t.insertIntoLeaf nodeId entry
    | some (.inner inner) => do
      let childIndex := childIndexForKey inner.keys entry
      let childId ← inner.children[childIndex]?
      let (t, split) ← insertRecursive fuel t childId entry
      t.insertIntoInner nodeId childIndex childId split
    | none => none

/-- The root of a tree whose old root `leftId` was split. -/
def growRoot (t : BPTree) (leftId : NodeId) : Option (EntryKey × NodeId) → Option BPTree
  | some (separator, rightId) => do
    let leftSize ← t.subtreeSize leftId
    let rightSize ← t.subtreeSize rightId
    let (t, rootId) := t.alloc (.inner
      { keys := [separator], children := [leftId, rightId], childSizes := [leftSize, rightSize] })
    some { t with root := some rootId }
  | none => some t

def insertNewEntry (t : BPTree) (entry : ZSetEntry) : Option BPTree :=
  match t.root with
  | none =>
    let (t, nodeId) := t.alloc (.leaf { entries := [entry], next := none, prev := none })
    some { t with root := some nodeId, leftmost := some nodeId, rightmost := some nodeId, len := 1 }
  | some root => do
    let (t, split) ← insertRecursive t.fuel t root entry
    let t ← t.growRoot root split
    some { t with len := t.len + 1 }

/-! ## Search -/

structure SearchPath where
  leafId : NodeId
  index : Nat
  found : Bool
  rank : Nat
deriving DecidableEq

def searchKeyLoop (t : BPTree) (key : EntryKey) : Nat → NodeId → Nat → Option SearchPath
  | 0, _, _ => none
  | fuel + 1, nodeId, rank =>
    match t.arena.get nodeId with
    | some (.leaf leaf) =>
      let index := lowerBoundEntry leaf.entries key
      let found := leaf.entries[index]?.any fun entry => entryMatches entry key
      some { leafId := nodeId, index, found, rank := rank + index }
    | some (.inner inner) => do
      let childIndex := childIndexForKey inner.keys key
      let child ← inner.children[childIndex]?
      t.searchKeyLoop key fuel child (rank + (inner.childSizes.take childIndex).sum)
    | none => none

def searchKey (t : BPTree) (key : EntryKey) : Option (Option SearchPath) :=
  match t.root with
  | none => some none
  | some root => (t.searchKeyLoop key t.fuel root 0).map some

/-- Walk past the children that lie before `rank`: the child's index and the rank within it. -/
def skipChildren : List Nat → Nat → Nat × Nat
  | [], rank => (0, rank)
  | size :: sizes, rank =>
    if size ≤ rank then
      ((skipChildren sizes (rank - size)).1 + 1, (skipChildren sizes (rank - size)).2)
    else (0, rank)

def locateByRankLoop (t : BPTree) : Nat → NodeId → Nat → Option (Option (NodeId × Nat))
  | 0, _, _ => none
  | fuel + 1, nodeId, rank =>
    match t.arena.get nodeId with
    | some (.leaf leaf) => some (if rank < leaf.entries.length then some (nodeId, rank) else none)
    | some (.inner inner) => do
      let (childIndex, rank) := skipChildren inner.childSizes rank
      let child ← inner.children[childIndex]?
      t.locateByRankLoop fuel child rank
    | none => none

def locateByRank (t : BPTree) (rank : Nat) : Option (Option (NodeId × Nat)) :=
  match t.root with
  | none => some none
  | some root => t.locateByRankLoop t.fuel root rank

structure ScoreSearchHit where
  leafId : NodeId
  index : Nat
  rank : Nat
deriving DecidableEq

/-- From position `index` of a leaf to the first entry at or after it along the leaf list. -/
def skipExhausted (t : BPTree) : Nat → NodeId → Nat → Nat → Option (Option ScoreSearchHit)
  | 0, _, _, _ => none
  | fuel + 1, leafId, index, rank => do
    let leaf ← t.leaf leafId
    if index < leaf.entries.length then some (some { leafId, index, rank })
    else match leaf.next with
      | none => some none
      | some next => t.skipExhausted fuel next 0 (rank + (leaf.entries.length - index))

def lowerBoundScoreLoop (t : BPTree) (bound : ScoreBound) :
    Nat → NodeId → Nat → Option (Option ScoreSearchHit)
  | 0, _, _ => none
  | fuel + 1, nodeId, rank =>
    match t.arena.get nodeId with
    | some (.leaf leaf) =>
      let index := partitionPoint (fun entry => scoreLowerPredicate entry.score bound) leaf.entries
      t.skipExhausted t.fuel nodeId index (rank + index)
    | some (.inner inner) => do
      let childIndex := min (childIndexForScoreBound inner.keys bound) (inner.children.length - 1)
      let child ← inner.children[childIndex]?
      t.lowerBoundScoreLoop bound fuel child (rank + (inner.childSizes.take childIndex).sum)
    | none => none

def lowerBoundScore (t : BPTree) (bound : ScoreBound) : Option (Option ScoreSearchHit) :=
  match t.root with
  | none => some none
  | some root => t.lowerBoundScoreLoop bound t.fuel root 0

/-! ## Range iterators -/

inductive IterStop where
  | none
  | score (max : ScoreBound)
  | lex (upper : LexBound) (score : F64)
deriving DecidableEq

/-- `remaining` is `none` for `usize::MAX`, which the iterator never counts down. No constructor
of the source sets `reversed`. -/
structure BPTreeRangeIter where
  currentLeaf : Option NodeId
  index : Nat
  remaining : Option Nat
  reversed : Bool := false
  stop : IterStop
deriving DecidableEq

def emptyIter : BPTreeRangeIter :=
  { currentLeaf := none, index := 0, remaining := some 0, stop := .none }

/-- Whether the iterator may yield the entry. -/
def IterStop.allows : IterStop → ZSetEntry → Bool
  | .none, _ => true
  | .score max, entry => scoreWithinUpperBound entry.score max
  | .lex upper target, entry =>
    scoresEqual entry.score target && lexMatchesUpperBound entry.member.bytes upper

/-- Move to a neighbouring leaf: to its first entry, or to its last when reversed. -/
def enterLeaf (t : BPTree) (it : BPTreeRangeIter) (leafId : Option NodeId) :
    Option BPTreeRangeIter :=
  if it.reversed then
    match leafId with
    | none => some { it with currentLeaf := none, index := 0 }
    | some id => do
      let leaf ← t.leaf id
      some { it with currentLeaf := some id, index := leaf.entries.length - 1 }
  else some { it with currentLeaf := leafId, index := 0 }

/-- Step past the entry just yielded. -/
def stepEntry (t : BPTree) (it : BPTreeRangeIter) (leaf : LeafNode) : Option BPTreeRangeIter :=
  if it.reversed then
    if it.index = 0 then t.enterLeaf it leaf.prev else some { it with index := it.index - 1 }
  else some { it with index := it.index + 1 }

def iterNextLoop (t : BPTree) : Nat → BPTreeRangeIter →
    Option (Option ZSetEntry × BPTreeRangeIter)
  | 0, _ => none
  | fuel + 1, it =>
    match it.currentLeaf with
    | none => some (none, it)
    | some leafId => do
      let leaf ← t.leaf leafId
      match leaf.entries[it.index]? with
      | none => do
        let it ← t.enterLeaf it (if it.reversed then leaf.prev else leaf.next)
        t.iterNextLoop fuel it
      | some entry =>
        if it.stop.allows entry then do
          let it ← t.stepEntry { it with remaining := it.remaining.map (· - 1) } leaf
          some (some entry, it)
        else some (none, { it with currentLeaf := none })

/-- `BPTreeRangeIter::next`. -/
def iterNext (t : BPTree) (it : BPTreeRangeIter) : Option (Option ZSetEntry × BPTreeRangeIter) :=
  if it.remaining = some 0 then some (none, it) else t.iterNextLoop t.fuel it

/-- Drain an iterator, for at most `fuel - 1` items. -/
def iterCollect (t : BPTree) : Nat → BPTreeRangeIter → Option (List ZSetEntry)
  | 0, _ => none
  | fuel + 1, it => do
    let (item, it) ← t.iterNext it
    match item with
    | none => some []
    | some entry => (t.iterCollect fuel it).map (entry :: ·)

/-- `iter.collect()`. -/
def collect (t : BPTree) (it : BPTreeRangeIter) : Option (List ZSetEntry) :=
  t.iterCollect (t.len + 1) it

def rangeByRank (t : BPTree) (start stop : Nat) : Option BPTreeRangeIter :=
  if stop < start ∨ t.len ≤ start then some emptyIter
  else do
    let stop := min stop (t.len - 1)
    match ← t.locateByRank start with
    | none => some emptyIter
    | some (leafId, index) =>
      some { currentLeaf := some leafId, index, remaining := some (stop - start + 1),
             stop := .none }

def rangeByScore (t : BPTree) (min max : ScoreBound) : Option BPTreeRangeIter := do
  match ← t.lowerBoundScore min with
  | none => some emptyIter
  | some hit =>
    let leaf ← t.leaf hit.leafId
    let entry ← leaf.entries[hit.index]?
    if scoreWithinUpperBound entry.score max then
      some { currentLeaf := some hit.leafId, index := hit.index, remaining := none,
             stop := .score max }
    else some emptyIter

/-! ## Removal -/

def collectEntriesLoop (t : BPTree) : Nat → Option NodeId → Option (List ZSetEntry)
  | _, none => some []
  | 0, some _ => none
  | fuel + 1, some nodeId => do
    let leaf ← t.leaf nodeId
    (t.collectEntriesLoop fuel leaf.next).map (leaf.entries ++ ·)

def collectEntries (t : BPTree) : Option (List ZSetEntry) :=
  t.collectEntriesLoop t.fuel t.leftmost

def insertAll (t : BPTree) : List ZSetEntry → Option BPTree
  | [] => some t
  | entry :: entries => do
    let t ← t.insertNewEntry entry
    t.insertAll entries

def rebuildTree (t : BPTree) : Option BPTree := do
  let entries ← t.collectEntries
  insertAll { t with root := none, leftmost := none, rightmost := none, len := 0,
                     arena := t.arena.clear } entries

def removeExact (t : BPTree) (key : EntryKey) (removeFromIndex : Bool) :
    Option (BPTree × Bool) := do
  match ← t.searchKey key with
  | none => some (t, false)
  | some path =>
    if !path.found then some (t, false)
    else
      let leaf ← t.leaf path.leafId
      let (removed, entries) ← vecRemove leaf.entries path.index
      let t ← t.leafMut path.leafId fun leaf => some { leaf with entries }
      let t := if removeFromIndex then
        { t with memberScores := Function.update t.memberScores removed.member none } else t
      let t := { t with len := t.len - 1 }
      if t.len = 0 then
        some ({ t with root := none, leftmost := none, rightmost := none,
                       arena := t.arena.clear }, true)
      else (t.rebuildTree).map fun t => (t, true)

/-! ## The public operations -/

def insert (t : BPTree) (score : F64) (member : CompactString) : Option (BPTree × InsertResult) :=
  match t.memberScores member with
  | some oldScore =>
    if scoresEqual oldScore score then some (t, .updated oldScore)
    else do
      let (t, _) ← t.removeExact { score := oldScore, member } false
      let t := { t with memberScores := Function.update t.memberScores member (some score) }
      let t ← t.insertNewEntry { score, member }
      some (t, .updated oldScore)
  | none => do
    let t := { t with memberScores := Function.update t.memberScores member (some score) }
    let t ← t.insertNewEntry { score, member }
    some (t, .inserted)

def remove (t : BPTree) (member : Bytes) : Option (BPTree × Option F64) :=
  match CompactString.fromUtf8 member with
  | none => some (t, none)
  | some member =>
    match t.memberScores member with
    | none => some (t, none)
    | some score => do
      let (t, removed) ← t.removeExact { score, member } true
      some (t, if removed then some score else none)

def rankOf (t : BPTree) (score : F64) (member : Bytes) : Option (Option Nat) :=
  match CompactString.fromUtf8 member with
  | none => some none
  | some member => do
    match ← t.searchKey { score, member } with
    | none => some none
    | some path => some (if path.found then some path.rank else none)

def rankOfRev (t : BPTree) (score : F64) (member : Bytes) : Option (Option Nat) := do
  match ← t.rankOf score member with
  | none => some none
  | some rank => some (some (t.len - 1 - rank))

/-- Remove an entry read off one end of the leaf list. -/
def popEntry (t : BPTree) (entry : Option ZSetEntry) : Option (BPTree × Option ZSetEntry) :=
  match entry with
  | none => some (t, none)
  | some entry => do
    let (t, removed) ← t.removeExact entry true
    some (t, if removed then some entry else none)

def popMin (t : BPTree) : Option (BPTree × Option ZSetEntry) :=
  match t.leftmost with
  | none => some (t, none)
  | some leafId => do
    let leaf ← t.leaf leafId
    t.popEntry leaf.entries.head?

def popMax (t : BPTree) : Option (BPTree × Option ZSetEntry) :=
  match t.rightmost with
  | none => some (t, none)
  | some leafId => do
    let leaf ← t.leaf leafId
    t.popEntry leaf.entries.getLast?

end BPTree

end Senko
