import Senko.Core.Listpack
import Senko.Core.ZSet.BPTree

/-!
# Senko — sorted-set objects

A sorted set starts as a listpack of alternating members and eight-byte scores, kept in order by
re-encoding it on every change. The first insertion that would make it longer than 128 entries, or
store a member longer than 64 bytes, moves it to a B+tree beside a hash index of its members.

The outer `Option` is `none` where the program would panic or, in `rewriteLpFromEntries`, loop
forever. `len` is a `u32` that saturates. Ranks and limits are `i64`s, here integers.
-/

namespace Senko

def listpackMaxEntries : Nat := 128
def listpackMaxMemberSize : Nat := 64

inductive ZSetEncoding where
  | listpack (node : ListpackNode)
  | bpTree (tree : BPTree) (memberIndex : CompactString → Option F64)

structure ZSetObject where
  inner : ZSetEncoding := .listpack {}
  len : Nat := 0
  generation : UInt64 := 0

def ZSetEncoding.clone : ZSetEncoding → ZSetEncoding
  | .listpack node => .listpack (lpClone node)
  | inner => inner

def ZSetObject.clone (z : ZSetObject) : ZSetObject := { z with inner := z.inner.clone }

inductive ZAddCond where
  | always
  | nx
  | xx
deriving DecidableEq, Repr

structure ZAddOptions where
  condition : ZAddCond := .always
  gt : Bool := false
  lt : Bool := false
  ch : Bool := false
  incr : Bool := false
deriving DecidableEq, Repr

structure ZAddResult where
  added : Nat
  changed : Nat
  newScore : Option F64
deriving DecidableEq, Repr

/-! ## Sorted sets in a listpack -/

def compactFromBytes (bytes : Bytes) : CompactString := CompactString.ofUtf8Lossy bytes

section Std

variable (std : FloatStd)

def decodeLpScore (bytes : Bytes) : Option F64 :=
  if bytes.length = 8 then some (F64.fromLeBytes bytes)
  else if validUtf8 bytes then std.parse bytes else none

/-- The raw entries of the node, two by two; an odd one at the end is dropped. -/
def pairEntries : List Bytes → List ZSetEntry
  | member :: score :: raw =>
    { score := (decodeLpScore std score).getD F64.zero, member := compactFromBytes member } ::
      pairEntries raw
  | _ => []

def lpZsetEntries (node : ListpackNode) : List ZSetEntry := pairEntries std (lpIter node)

/-- `while lp_len(node) > 0 { lp_delete_at(node, 0); }` -/
def lpClear : Nat → ListpackNode → Option ListpackNode
  | 0, node => if lpLen node = 0 then some node else none
  | fuel + 1, node => if lpLen node = 0 then some node else lpClear fuel (lpDeleteAt node 0)

def rewriteLpFromEntries (node : ListpackNode) (entries : List ZSetEntry) :
    Option ListpackNode :=
  (lpClear (lpLen node) node).map fun node =>
    entries.foldl (fun node e => lpPushBack (lpPushBack node e.member.bytes) e.score.toLeBytes) node

def compareScoreMember (left : ZSetEntry) (rightScore : F64) (rightMember : Bytes) : Ordering :=
  if left.score.lt rightScore then .lt
  else if rightScore.lt left.score then .gt
  else compareBytes left.member.bytes rightMember

def lpZsetScore (node : ListpackNode) (member : Bytes) : Option F64 :=
  ((lpZsetEntries std node).find? fun e => e.member.bytes = member).map ZSetEntry.score

def lpZsetInsert (node : ListpackNode) (score : F64) (member : Bytes) :
    Option (ListpackNode × Bool) :=
  if (lpZsetScore std node member).isSome then some (node, false)
  else do
    let entries := lpZsetEntries std node
    let insertAt := partitionPoint (fun e => compareScoreMember e score member == .lt) entries
    let entries ← vecInsert entries insertAt { score, member := compactFromBytes member }
    let node ← rewriteLpFromEntries node entries
    some (node, true)

def lpZsetRemove (node : ListpackNode) (member : Bytes) : Option (ListpackNode × Option F64) :=
  let entries := lpZsetEntries std node
  match entries.findIdx? fun e => e.member.bytes = member with
  | none => some (node, none)
  | some position => do
    let (removed, entries) ← vecRemove entries position
    let node ← rewriteLpFromEntries node entries
    some (node, some removed.score)

def lpZsetRank (node : ListpackNode) (member : Bytes) : Option Nat :=
  (lpZsetEntries std node).findIdx? fun e => e.member.bytes = member

def lpZsetRangeByRank (node : ListpackNode) (start stop : Nat) : List ZSetEntry :=
  let entries := lpZsetEntries std node
  if entries.isEmpty then []
  else
    let start := min start (entries.length - 1)
    let stop := min stop (entries.length - 1)
    if stop < start then [] else (entries.take (stop + 1)).drop start

def scoreInRange (score : F64) (min max : ScoreBound) : Bool :=
  (match min with
    | .inclusive v => v.le score
    | .exclusive v => v.lt score
    | .negInf => true
    | .posInf => false) &&
  (match max with
    | .inclusive v => score.le v
    | .exclusive v => score.lt v
    | .negInf => false
    | .posInf => true)

def lpZsetRangeByScore (node : ListpackNode) (min max : ScoreBound) : List ZSetEntry :=
  (lpZsetEntries std node).filter fun e => scoreInRange e.score min max

end Std

def lexContains (member : Bytes) (lower upper : LexBound) : Bool :=
  (match lower with
    | .inclusive v => compareBytes member v != .lt
    | .exclusive v => compareBytes member v == .gt
    | .min => true
    | .max => false) &&
  (match upper with
    | .inclusive v => compareBytes member v != .gt
    | .exclusive v => compareBytes member v == .lt
    | .min => false
    | .max => true)

/-! ## Bounds and limits -/

def normalizeRankBounds (len : Nat) (start stop : Int) (reverse : Bool) : Option (Nat × Nat) :=
  if len = 0 then none
  else
    let normalize (index : Int) : Int := if index < 0 then len + index else index
    let start := if normalize start < 0 then 0 else normalize start
    let stop := normalize stop
    if stop < 0 then none
    else if (len : Int) ≤ start then none
    else
      let stop := min stop (len - 1)
      if stop < start then none
      else if reverse then some ((len - 1 - stop).toNat, (len - 1 - start).toNat)
      else some (start.toNat, stop.toNat)

def applyLimit (entries : List ZSetEntry) : Option (Int × Int) → List ZSetEntry
  | none => entries
  | some (offset, count) =>
    if count ≤ 0 then [] else (entries.drop (max offset 0).toNat).take count.toNat

/-! ## The object -/

namespace ZSetObject

def new : ZSetObject := {}

def bumpGeneration (z : ZSetObject) : ZSetObject := { z with generation := z.generation + 1 }

/-- `len.saturating_add(1)` on `u32`. -/
def incLen (z : ZSetObject) : ZSetObject := { z with len := min (z.len + 1) (2 ^ 32 - 1) }

/-- `len.saturating_sub(1)`. -/
def decLen (z : ZSetObject) : ZSetObject := { z with len := z.len - 1 }

def isEmpty (z : ZSetObject) : Bool := z.len == 0

section Std

variable (std : FloatStd)

def score (z : ZSetObject) (member : Bytes) : Option F64 :=
  match z.inner with
  | .listpack node => lpZsetScore std node member
  | .bpTree _ memberIndex => (CompactString.fromUtf8 member).bind memberIndex

def insertAllIndexed (tree : BPTree) (memberIndex : CompactString → Option F64) :
    List ZSetEntry → Option (BPTree × (CompactString → Option F64))
  | [] => some (tree, memberIndex)
  | e :: entries => do
    let (tree, _) ← tree.insert e.score e.member
    insertAllIndexed tree (Function.update memberIndex e.member (some e.score)) entries

def upgradeListpackToBptree (z : ZSetObject) : Option ZSetObject :=
  match z.inner with
  | .bpTree _ _ => some z
  | .listpack node => do
    let (tree, memberIndex) ← insertAllIndexed BPTree.new (fun _ => none) (lpZsetEntries std node)
    some (bumpGeneration { z with inner := .bpTree tree memberIndex })

def ensureEncodingForInsert (z : ZSetObject) (member : Bytes) : Option ZSetObject :=
  match z.inner with
  | .bpTree _ _ => some z
  | .listpack node =>
    if (lpZsetScore std node member).isSome then some z
    else if listpackMaxEntries < z.len + 1 ∨ listpackMaxMemberSize < member.length then
      z.upgradeListpackToBptree std
    else some z

/-- Write the score of a member that is already there. -/
def replaceScore (z : ZSetObject) (score : F64) (member : CompactString) : Option ZSetObject :=
  match z.inner with
  | .listpack node => do
    let (node, _) ← lpZsetRemove std node member.bytes
    let (node, _) ← lpZsetInsert std node score member.bytes
    some { z with inner := .listpack node }
  | .bpTree tree memberIndex => do
    let (tree, _) ← tree.insert score member
    some { z with inner := .bpTree tree (Function.update memberIndex member (some score)) }

/-- Write the score of a new member. -/
def insertScore (z : ZSetObject) (score : F64) (member : CompactString) : Option ZSetObject :=
  match z.inner with
  | .listpack node => do
    let (node, _) ← lpZsetInsert std node score member.bytes
    some { z with inner := .listpack node }
  | .bpTree tree memberIndex => do
    let (tree, _) ← tree.insert score member
    some { z with inner := .bpTree tree (Function.update memberIndex member (some score)) }

def add (z : ZSetObject) (score : F64) (member : CompactString) (opts : ZAddOptions) :
    Option (ZSetObject × ZAddResult) :=
  if score.isNan then some (z, { added := 0, changed := 0, newScore := none })
  else
    let current := z.score std member.bytes
    if opts.condition = .nx ∧ current.isSome then
      some (z, { added := 0, changed := 0, newScore := current })
    else if opts.condition = .xx ∧ current.isNone then
      some (z, { added := 0, changed := 0, newScore := none })
    else
      let target := if opts.incr then std.add (current.getD F64.zero) score else score
      match current with
      | some existing =>
        -- GT, LT and an equal score all leave the member as it is
        if (opts.gt && target.le existing) || (opts.lt && existing.le target) ||
            existing.eq target then
          some (z, { added := 0, changed := 0,
                     newScore := if opts.incr then some existing else none })
        else do
          let z ← z.replaceScore std target member
          some (z.bumpGeneration,
            { added := 0, changed := if opts.ch then 1 else 0,
              newScore := if opts.incr then some target else none })
      | none => do
        let z ← z.ensureEncodingForInsert std member.bytes
        let z ← z.insertScore std target member
        some (z.incLen.bumpGeneration,
          { added := 1, changed := 1, newScore := if opts.incr then some target else none })

def remove (z : ZSetObject) (member : Bytes) : Option (ZSetObject × Option F64) :=
  match z.inner with
  | .listpack node => do
    match ← lpZsetRemove std node member with
    | (_, none) => some (z, none)
    | (node, some score) =>
      some ((decLen { z with inner := .listpack node }).bumpGeneration, some score)
  | .bpTree tree memberIndex =>
    match CompactString.fromUtf8 member with
    | none => some (z, none)
    | some m => do
      match ← tree.remove member with
      | (_, none) => some (z, none)
      | (tree, some score) =>
        some ((decLen { z with inner := .bpTree tree (Function.update memberIndex m none) }
          ).bumpGeneration, some score)

def rank (z : ZSetObject) (member : Bytes) (reverse : Bool) : Option (Option Nat) :=
  match z.inner with
  | .listpack node =>
    some ((lpZsetRank std node member).map fun rank =>
      if reverse then z.len - 1 - rank else rank)
  | .bpTree tree memberIndex =>
    match (CompactString.fromUtf8 member).bind memberIndex with
    | none => some none
    | some score =>
      if reverse then tree.rankOfRev score member else tree.rankOf score member

def rangeByRank (z : ZSetObject) (start stop : Int) (reverse : Bool) (limit : Option (Int × Int)) :
    Option (List ZSetEntry) :=
  match normalizeRankBounds z.len start stop reverse with
  | none => some []
  | some (start, stop) => do
    let entries ← match z.inner with
      | .listpack node => some (lpZsetRangeByRank std node start stop)
      | .bpTree tree _ => (tree.rangeByRank start stop).bind tree.collect
    some (applyLimit (if reverse then entries.reverse else entries) limit)

def rangeByScore (z : ZSetObject) (min max : ScoreBound) (reverse : Bool)
    (limit : Option (Int × Int)) : Option (List ZSetEntry) := do
  let entries ← match z.inner with
    | .listpack node => some (lpZsetRangeByScore std node min max)
    | .bpTree tree _ => (tree.rangeByScore min max).bind tree.collect
  some (applyLimit (if reverse then entries.reverse else entries) limit)

def allEntries (z : ZSetObject) : Option (List ZSetEntry) :=
  match z.inner with
  | .listpack node => some (lpZsetEntries std node)
  | .bpTree tree _ =>
    if tree.isEmpty then some [] else (tree.rangeByRank 0 (tree.len - 1)).bind tree.collect

/-- `all_scores_equal`, of the entries it reads. -/
def allScoresEqual : List ZSetEntry → Bool
  | [] => true
  | first :: entries => entries.all fun e => e.score.eq first.score

def rangeByLex (z : ZSetObject) (lower upper : LexBound) (reverse : Bool)
    (limit : Option (Int × Int)) : Option (List ZSetEntry) := do
  let entries ← z.allEntries std
  if !allScoresEqual entries then some []
  else
    let entries := entries.filter fun e => lexContains e.member.bytes lower upper
    some (applyLimit (if reverse then entries.reverse else entries) limit)

def countByScore (z : ZSetObject) (min max : ScoreBound) : Option Nat :=
  (z.rangeByScore std min max false none).map List.length

def countByLex (z : ZSetObject) (lower upper : LexBound) : Option Nat :=
  (z.rangeByLex std lower upper false none).map List.length

/-- One round of `pop_edge`: the entry at one end, if there is one. -/
def popOne (z : ZSetObject) (max : Bool) : Option (ZSetObject × Option ZSetEntry) :=
  match z.inner with
  | .listpack node =>
    let entries := lpZsetEntries std node
    let item := if max then entries.getLast? else entries.head?
    match item with
    | none => some (z, none)
    | some item => do
      let node ← rewriteLpFromEntries node (if max then entries.dropLast else entries.tail)
      some (decLen { z with inner := .listpack node }, some item)
  | .bpTree tree memberIndex => do
    let (tree, item) ← (if max then tree.popMax else tree.popMin)
    match item with
    | none => some ({ z with inner := .bpTree tree memberIndex }, none)
    | some item =>
      some (decLen { z with
        inner := .bpTree tree (Function.update memberIndex item.member none) }, some item)

def popEdgeLoop : Nat → ZSetObject → Bool → Option (ZSetObject × List ZSetEntry)
  | 0, z, _ => some (z, [])
  | count + 1, z, max => do
    match ← z.popOne std max with
    | (z, none) => some (z, [])
    | (z, some item) => do
      let (z, out) ← popEdgeLoop count z max
      some (z, item :: out)

def popEdge (z : ZSetObject) (count : Nat) (max : Bool) :
    Option (ZSetObject × List ZSetEntry) := do
  let (z, out) ← popEdgeLoop std count z max
  some (if out.isEmpty then z else z.bumpGeneration, out)

def popMin (z : ZSetObject) (count : Nat) : Option (ZSetObject × List ZSetEntry) :=
  z.popEdge std count false

def popMax (z : ZSetObject) (count : Nat) : Option (ZSetObject × List ZSetEntry) :=
  z.popEdge std count true

end Std

end ZSetObject

end Senko
