import Senko.Core.ZSet.BPTreeRun
import Senko.Core.ZSet.ObjectListpack

/-!
# Senko — both encodings refine the abstract sorted set

`Refines z S` says that the object `z` stores the sorted set `S`, in either encoding. Every
operation of the object has the abstract operation on `S` as its specification, whichever encoding
the object is in, and `upgrade_listpack_to_bptree` changes the encoding without changing `S`.
-/

namespace Senko

open ZSetEntry List Option CompactString SortedSet ZSetObject BPTree

variable {memberIndex : CompactString → Option F64} {e item : ZSetEntry} {es : List ZSetEntry}
  {tree : BPTree}

/-! ## The abstract operations -/

namespace SortedSet

/-- Part of a sorted set, in the same order. -/
def restrict (S : SortedSet) (es : List ZSetEntry) (h : List.Sublist es S.entries) : SortedSet :=
  ⟨es, S.sorted.sublist h, S.distinct.sublist (h.map _)⟩

def scoreOf (S : SortedSet) (member : Bytes) : Option F64 :=
  (CompactString.fromUtf8 member).bind S.score?

/-- The score `ZADD` would set: with `INCR` the old score, or zero, plus the argument. -/
def zaddTarget (std : FloatStd) (S : SortedSet) (score : F64) (member : CompactString)
    (opts : ZAddOptions) : F64 :=
  if opts.incr then std.add ((S.score? member).getD F64.zero) score else score

/-- `ZADD` with all its options. -/
def zadd (std : FloatStd) (S : SortedSet) (score : F64) (member : CompactString)
    (opts : ZAddOptions) : SortedSet × ZAddResult :=
  let target := S.zaddTarget std score member opts
  let reported (s : F64) := if opts.incr then some s else none
  if score.isNan then (S, ⟨0, 0, none⟩)
  else match S.score? member with
    | none =>
      if opts.condition = .xx then (S, ⟨0, 0, none⟩)
      else (S.upsert ⟨target, member⟩, ⟨1, 1, reported target⟩)
    | some existing =>
      if opts.condition = .nx then (S, ⟨0, 0, some existing⟩)
      else if (opts.gt && target.le existing) || (opts.lt && existing.le target) ||
          existing.eq target then (S, ⟨0, 0, reported existing⟩)
      else (S.upsert ⟨target, member⟩, ⟨0, if opts.ch then 1 else 0, reported target⟩)

def remove (S : SortedSet) (member : Bytes) : SortedSet × Option F64 :=
  (((CompactString.fromUtf8 member).map S.erase).getD S, S.scoreOf member)

def rank (S : SortedSet) (member : Bytes) (reverse : Bool) : Option Nat :=
  (S.entries.findIdx? fun e => e.member.bytes = member).map fun i =>
    if reverse then S.entries.length - 1 - i else i

/-- The entries in the order asked for. -/
def inOrder (entries : List ZSetEntry) (reverse : Bool) : List ZSetEntry :=
  if reverse then entries.reverse else entries

/-- The slice between two signed positions, both included. -/
def slice (entries : List ZSetEntry) (start stop : Int) : List ZSetEntry :=
  let position (i : Int) : Int := if i < 0 then entries.length + i else i
  (entries.take (position stop + 1).toNat).drop (position start).toNat

def rangeByRank (S : SortedSet) (start stop : Int) (reverse : Bool) (limit : Option (Int × Int)) :
    List ZSetEntry :=
  applyLimit (slice (inOrder S.entries reverse) start stop) limit

def rangeByScore (S : SortedSet) (min max : ScoreBound) (reverse : Bool)
    (limit : Option (Int × Int)) : List ZSetEntry :=
  applyLimit (inOrder (S.entries.filter fun e => scoreInRange e.score min max) reverse) limit

/-- By member, if all scores are equal. -/
def rangeByLex (S : SortedSet) (lower upper : LexBound) (reverse : Bool)
    (limit : Option (Int × Int)) : List ZSetEntry :=
  if ∀ e ∈ S.entries, ∀ e' ∈ S.entries, e.score.key = e'.score.key then
    applyLimit (inOrder (S.entries.filter fun e => lexContains e.member.bytes lower upper) reverse)
      limit
  else []

/-- The entry at one end. -/
def edge (S : SortedSet) (max : Bool) : Option ZSetEntry :=
  if max then S.entries.getLast? else S.entries.head?

def withoutEdge (S : SortedSet) (max : Bool) : SortedSet :=
  if max then S.dropLast else S.tail

variable {S : SortedSet} {max : Bool}

theorem edge_eq_none : S.edge max = none ↔ S.entries = [] := by
  cases max <;> simp [edge]

theorem edge_eq_some (h : S.edge max = some item) :
    S.score? item.member = some item.score ∧ S.withoutEdge max = S.erase item.member := by
  cases max with
  | false =>
    obtain ⟨es, hes⟩ := head?_eq_some_iff.1 h
    exact ⟨score?_eq_some.2 (by simp [hes]), tail_eq_erase hes⟩
  | true =>
    obtain ⟨es, hes⟩ := getLast?_eq_some_iff.1 h
    exact ⟨score?_eq_some.2 (by simp [hes]), dropLast_eq_erase hes⟩

theorem withoutEdge_of_none (h : S.edge max = none) : S.withoutEdge max = S := by
  apply ext
  cases max <;> simp [withoutEdge, tail, dropLast, edge_eq_none.1 h]

/-- Take `count` entries from the front, or from the back in descending order. -/
def pop (S : SortedSet) (count : Nat) : Bool → SortedSet × List ZSetEntry
  | false => (S.restrict _ (List.drop_sublist count S.entries), S.entries.take count)
  | true => (S.restrict _ (List.take_sublist (S.entries.length - count) S.entries),
      S.entries.reverse.take count)

theorem pop_zero (S : SortedSet) (max : Bool) : S.pop 0 max = (S, []) := by
  cases max <;> simp [pop, restrict]

theorem pop_of_none (count : Nat) (h : S.edge max = none) : S.pop count max = (S, []) := by
  have hnil := edge_eq_none.1 h
  cases max <;> simp [pop, SortedSet.ext_iff, restrict, hnil]

/-- Popping one by one. -/
theorem pop_succ (count : Nat) (h : S.edge max = some item) : S.pop (count + 1) max =
      (((S.withoutEdge max).pop count max).1, item :: ((S.withoutEdge max).pop count max).2) := by
  cases max with
  | false =>
    obtain ⟨es, hes⟩ := head?_eq_some_iff.1 h
    simp [pop, restrict, withoutEdge, tail, hes]
  | true =>
    obtain ⟨es, hes⟩ := getLast?_eq_some_iff.1 h
    simp [pop, restrict, withoutEdge, dropLast, hes]

end SortedSet

/-! ## Rank bounds -/

@[simp] theorem applyLimit_nil (limit : Option (Int × Int)) : applyLimit [] limit = [] := by
  cases limit <;> simp [applyLimit]

/-- A slice of the reversed sequence is the reverse of a slice. -/
theorem slice_reverse (es : List ZSetEntry) {i j : Nat} (hij : i ≤ j) (hj : j < es.length) :
    (es.reverse.take (j + 1)).drop i =
      ((es.take (es.length - 1 - i + 1)).drop (es.length - 1 - j)).reverse := by
  have hstart : es.length - (j + 1) = es.length - 1 - j := by omega
  have hcount : es.length - (es.length - (j + 1)) - i =
      es.length - 1 - i + 1 - (es.length - 1 - j) := by omega
  rw [take_reverse, drop_reverse, length_drop, drop_take, hcount, hstart]

/-- Where `normalize_rank_bounds` puts the two ends: `p` and `q` are the signed positions. -/
theorem normalizeRankBounds_eq {len : Nat} {start stop p q : Int} (reverse : Bool)
    (hp : (if start < 0 then (len : Int) + start else start) = p)
    (hq : (if stop < 0 then (len : Int) + stop else stop) = q) :
    normalizeRankBounds len start stop reverse = if 0 ≤ q ∧ p.toNat < len ∧ p ≤ q then
        some (if reverse then (len - 1 - min q.toNat (len - 1), len - 1 - p.toNat)
          else (p.toNat, min q.toNat (len - 1)))
      else none := by
  simp only [normalizeRankBounds, hp, hq]
  by_cases hin : 0 ≤ q ∧ p.toNat < len ∧ p ≤ q
  · rw [if_pos hin, if_neg (by omega), if_neg (by omega)]
    have hstart : (if p < 0 then 0 else p) = (p.toNat : Int) := by split <;> omega
    rw [hstart, if_neg (by omega), if_neg (by omega)]
    cases reverse <;> simp <;> omega
  · rw [if_neg hin]
    split_ifs <;> first | rfl | omega

/-- **Rank bounds** select the slice of the sequence in the order asked for. -/
theorem normalizeRankBounds_spec (es : List ZSetEntry) (start stop : Int) (reverse : Bool) :
    match normalizeRankBounds es.length start stop reverse with
    | none => slice (inOrder es reverse) start stop = []
    | some (a, b) => a ≤ b ∧ b < es.length ∧
        slice (inOrder es reverse) start stop =
          inOrder ((es.take (b + 1)).drop a) reverse := by
  have hlen : (inOrder es reverse).length = es.length := by
    cases reverse <;> simp [inOrder]
  simp only [slice, hlen]
  generalize hp : (if start < 0 then (es.length : Int) + start else start) = p
  generalize hq : (if stop < 0 then (es.length : Int) + stop else stop) = q
  rw [normalizeRankBounds_eq reverse hp hq]
  by_cases hin : 0 ≤ q ∧ p.toNat < es.length ∧ p ≤ q
  · -- the upper end is cut to the last position, which takes the same entries
    have htake : (inOrder es reverse).take (q + 1).toNat =
        (inOrder es reverse).take (min q.toNat (es.length - 1) + 1) := by
      rw [take_eq_take_iff]
      omega
    rw [if_pos hin, htake]
    cases reverse with
    | false => exact ⟨by omega, by omega, rfl⟩
    | true =>
      refine ⟨by omega, by omega, ?_⟩
      exact slice_reverse es (by omega) (by omega)
  · rw [if_neg hin]
    refine drop_eq_nil_of_le ?_
    rw [length_take]
    omega

/-! ## Score bounds -/

/-- The bound is an infinity or a number. -/
def ScoreBound.NotNan : ScoreBound → Prop
  | .inclusive v | .exclusive v => v.isNan = false
  | .negInf | .posInf => True

instance (bound : ScoreBound) : Decidable bound.NotNan :=
  match bound with
  | .inclusive _ | .exclusive _ => inferInstanceAs (Decidable (_ = _))
  | .negInf | .posInf => inferInstanceAs (Decidable True)

/-- What is within an upper bound is below the bound with its end flipped. -/
def ScoreBound.flip : ScoreBound → ScoreBound
  | .inclusive v => .exclusive v
  | .exclusive v => .inclusive v
  | .negInf => .negInf
  | .posInf => .posInf

theorem scoreWithinUpperBound_eq (he : e.NotNan) (bound : ScoreBound) :
    scoreWithinUpperBound e.score bound = belowBound bound.flip e.ord := by
  have hnan : e.score.isNan = false := he
  have hkey : (ofLex e.ord).1 = e.score.key := rfl
  cases bound with
  | inclusive v =>
    simp only [scoreWithinUpperBound, ScoreBound.flip, belowBound, scoresEqual, F64.le,
      F64.eq, hnan, hkey]
    cases v.isNan <;> simp
    omega
  | exclusive v =>
    simp only [scoreWithinUpperBound, ScoreBound.flip, belowBound, scoresEqual, F64.lt,
      F64.eq, hnan, hkey]
    cases v.isNan <;> simp
    omega
  | negInf | posInf => rfl

/-- The two encodings test the same range, unless its lower bound is NaN. -/
theorem scoreInRange_eq (he : e.NotNan) {min : ScoreBound} (hmin : min.NotNan) (max : ScoreBound) :
    scoreInRange e.score min max =
      (!scoreLowerPredicate e.score min && scoreWithinUpperBound e.score max) := by
  have hnan : e.score.isNan = false := he
  unfold scoreInRange
  congr 1
  · cases min with
    | inclusive v | exclusive v =>
      have hv : v.isNan = false := hmin
      rw [Bool.eq_iff_iff]
      simp [scoreLowerPredicate, F64.le, F64.lt, hnan, hv]
    | negInf | posInf => rfl
  · cases max with
    | inclusive v =>
      cases hv : v.isNan <;> simp [scoreWithinUpperBound, scoresEqual, F64.le, F64.eq, hnan, hv]
      omega
    | exclusive v =>
      cases hv : v.isNan <;> simp [scoreWithinUpperBound, scoresEqual, F64.lt, F64.eq, hv]
      omega
    | negInf | posInf => rfl

/-- A test that is downward closed in the order cuts sorted entries like a filter. -/
theorem SortedEntries.while_eq_filter (hes : SortedEntries es) {p : ZSetEntry → Bool}
    {q : ℤ ×ₗ List ℕ → Bool} (hp : ∀ e ∈ es, p e = q e.ord)
    (hq : ∀ a b, a < b → q b = true → q a = true) :
    es.takeWhile p = es.filter p ∧ es.dropWhile p = es.filter fun e => !p e := by
  obtain ⟨l, r, rfl, -, hl, hr⟩ := hes.cut hq
  have hl' : ∀ e ∈ l, p e = true := fun e he => (hp e (by simp [he])).trans (hl e he)
  have hr' : ∀ e ∈ r, p e = false := fun e he => (hp e (by simp [he])).trans (hr e he)
  rw [takeWhile_append_of_pos hl', dropWhile_append_of_pos hl', filter_append, filter_append,
    filter_eq_self.2 hl',
    filter_eq_nil_iff.2 fun e he => by simp [hr' e he],
    filter_eq_nil_iff.2 fun e he => by simp [hl' e he],
    filter_eq_self.2 fun e he => by simp [hr' e he]]
  cases r with
  | nil => simp
  | cons x r =>
    have hx : p x = false := hr' x (by simp)
    simp [hx]

/-- **A score range of sorted entries** is the filter by the range. -/
theorem SortedEntries.scoreRange (hes : SortedEntries es) {min : ScoreBound} (hmin : min.NotNan)
    (max : ScoreBound) : (es.dropWhile fun e => scoreLowerPredicate e.score min).takeWhile
        (fun e => scoreWithinUpperBound e.score max) =
      es.filter fun e => scoreInRange e.score min max := by
  have hdrop := (hes.while_eq_filter
    (fun e he => scoreLowerPredicate_eq (hes.notNan e he) min)
    (belowBound_mono min)).2
  have hrest := hes.sublist (dropWhile_sublist fun e => scoreLowerPredicate e.score min)
  rw [(hrest.while_eq_filter
    (fun e he => scoreWithinUpperBound_eq (hrest.notNan e he) max)
    (belowBound_mono max.flip)).1, hdrop, List.filter_filter]
  apply filter_congr
  intro e he
  rw [scoreInRange_eq (hes.notNan e he) hmin, Bool.and_comm]

/-! ## Refinement -/

namespace ZSetObject

/-- The encoding stores the set. -/
inductive Stores : ZSetEncoding → SortedSet → Prop where
  | listpack {S : SortedSet} (hsmall : SmallEntries S.entries) :
    Stores (.listpack (lpOf S.entries)) S
  | bpTree {tree : BPTree} {memberIndex : CompactString → Option F64} {S : SortedSet}
    (htree : BPTree.Refines tree S) (hindex : ∀ m, memberIndex m = S.score? m) :
    Stores (.bpTree tree memberIndex) S

/-- The object stores the set and knows its length. -/
structure Refines (z : ZSetObject) (S : SortedSet) : Prop where
  stores : Stores z.inner S
  len_eq : z.len = S.entries.length

theorem refines_new : Refines new empty := by
  refine ⟨?_, rfl⟩
  show Stores (.listpack (lpOf empty.entries)) empty
  exact Stores.listpack ⟨Nat.zero_le _, by simp [empty]⟩

section Refines

variable {z : ZSetObject} {S : SortedSet} (std : FloatStd)

theorem Refines.bumpGeneration (h : Refines z S) : Refines z.bumpGeneration S :=
  ⟨h.stores, h.len_eq⟩

/-! ### Lookups -/

theorem Refines.score (h : Refines z S) (member : Bytes) :
    z.score std member = S.scoreOf member := by
  obtain ⟨inner, len, generation⟩ := z
  obtain ⟨hstores, -⟩ := h
  cases hstores with
  | listpack hsmall => exact lpZsetScore_lpOf std hsmall member
  | bpTree htree hindex =>
    show (fromUtf8 member).bind _ = _
    rw [funext hindex]
    rfl

/-- A stored member is found at its entry's position. -/
theorem findIdx?_member {i : Nat} (he : S.entries[i]? = some e) :
    (S.entries.findIdx? fun e' => e'.member.bytes = e.member.bytes) = some i := by
  obtain ⟨hi, rfl⟩ := List.getElem?_eq_some_iff.1 he
  rw [findIdx?_eq_some_iff_getElem]
  refine ⟨hi, by simp, ?_⟩
  intro j hj
  have hne : S.entries[j].member ≠ S.entries[i].member := by
    have hpair := pairwise_map.1 S.distinct
    exact pairwise_iff_getElem.1 hpair j i (by omega) hi hj
  simpa [member_bytes_eq_iff] using hne

theorem Refines.rank (h : Refines z S) (member : Bytes) (reverse : Bool) :
    z.rank std member reverse = some (S.rank member reverse) := by
  obtain ⟨inner, len, generation⟩ := z
  obtain ⟨hstores, hlen⟩ := h
  cases hstores with
  | listpack hsmall =>
    simp only [rank, lpZsetRank, lpZsetEntries_lpOf std hsmall, SortedSet.rank]
    rw [show len = S.entries.length from hlen]
  | @bpTree tree memberIndex _ htree hindex =>
    simp only [rank, funext hindex]
    rcases hscore : (fromUtf8 member).bind S.score? with _ | score
    · rw [← find_bytes_eq_score?, map_eq_none_iff] at hscore
      have hnone : (S.entries.findIdx? fun e => e.member.bytes = member) = none := by
        rw [findIdx?_eq_none_iff]
        simpa using hscore
      simp [SortedSet.rank, hnone]
    obtain ⟨m, hm, hm_score⟩ := bind_eq_some_iff.1 hscore
    obtain rfl := fromUtf8_eq_some hm
    obtain ⟨i, hi⟩ := mem_iff_getElem?.1 (SortedSet.score?_eq_some.1 hm_score)
    have hrank := htree.answers.rankOf i _ hi
    have hrev := htree.answers.rankOfRev i _ hi
    have hfind := findIdx?_member hi
    simp only [SortedSet.rank] at hfind ⊢
    rw [hfind]
    cases reverse with
    | false => exact hrank
    | true => exact hrev

/-! ### Ranges -/

theorem Refines.rangeByRank (h : Refines z S) (start stop : Int) (reverse : Bool)
    (limit : Option (Int × Int)) :
    z.rangeByRank std start stop reverse limit = some (S.rangeByRank start stop reverse limit) := by
  obtain ⟨inner, len, generation⟩ := z
  obtain ⟨hstores, hlen⟩ := h
  have hbounds := normalizeRankBounds_spec S.entries start stop reverse
  simp only [rangeByRank, SortedSet.rangeByRank, show len = S.entries.length from hlen]
  rcases hnorm : normalizeRankBounds S.entries.length start stop reverse with _ | bounds
  · rw [hnorm] at hbounds
    rw [hbounds, applyLimit_nil]
  obtain ⟨a, b⟩ := bounds
  rw [hnorm] at hbounds
  obtain ⟨hab, hb, hslice⟩ := hbounds
  rw [hslice]
  cases hstores with
  | listpack hsmall =>
    -- the bounds are already inside the sequence, so cutting them again changes nothing
    have hne : S.entries.isEmpty = false := by
      cases hes : S.entries with
      | nil => simp [hes] at hb
      | cons _ _ => rfl
    have ha' : min a (S.entries.length - 1) = a := by omega
    have hb' : min b (S.entries.length - 1) = b := by omega
    simp only [lpZsetRangeByRank, lpZsetEntries_lpOf std hsmall, hne, ha', hb', Nat.not_lt.2 hab]
    rfl
  | bpTree htree _ =>
    obtain ⟨it, hit, hcollect⟩ := htree.answers.rangeByRank a b
    simp only [hit, bind_some, hcollect]
    rfl

variable {min : ScoreBound}

theorem Refines.rangeByScore (h : Refines z S) (hmin : min.NotNan)
    (max : ScoreBound) (reverse : Bool) (limit : Option (Int × Int)) :
    z.rangeByScore std min max reverse limit = some (S.rangeByScore min max reverse limit) := by
  obtain ⟨inner, len, generation⟩ := z
  cases h.stores with
  | listpack hsmall =>
    simp only [rangeByScore, lpZsetRangeByScore, lpZsetEntries_lpOf std hsmall]
    rfl
  | bpTree htree _ =>
    obtain ⟨it, hit, hcollect⟩ := htree.toTreeInv.rangeByScore min max
    rw [S.sorted.scoreRange hmin max] at hcollect
    simp only [rangeByScore, hit, bind_some, hcollect]
    rfl

/-- **A NaN lower bound** closes the range of a listpack and leaves the range of a tree open. -/
theorem Refines.rangeByScore_nan (h : Refines z S) (hmin : ¬min.NotNan)
    (max : ScoreBound) (reverse : Bool) (limit : Option (Int × Int)) :
    z.rangeByScore std min max reverse limit =
      some (applyLimit (inOrder (match z.inner with
        | .listpack _ => []
        | .bpTree _ _ => S.entries.filter fun e => scoreWithinUpperBound e.score max) reverse)
        limit) := by
  have hnone : ∀ e : ZSetEntry,
      scoreInRange e.score min max = false ∧ scoreLowerPredicate e.score min = false := by
    intro e
    cases min <;> simp_all [ScoreBound.NotNan, scoreInRange, scoreLowerPredicate, F64.le, F64.lt]
  obtain ⟨inner, len, generation⟩ := z
  cases h.stores with
  | listpack hsmall =>
    simp only [ZSetObject.rangeByScore, lpZsetRangeByScore, hnone, filter_false]
    rfl
  | bpTree htree _ =>
    obtain ⟨it, hit, hcollect⟩ := htree.toTreeInv.rangeByScore min max
    have hopen : (S.entries.dropWhile fun e => scoreLowerPredicate e.score min) = S.entries := by
      simp only [hnone]
      cases S.entries <;> simp
    rw [hopen, (S.sorted.while_eq_filter
      (fun e he => scoreWithinUpperBound_eq (S.sorted.notNan e he) max)
      (belowBound_mono max.flip)).1] at hcollect
    simp only [ZSetObject.rangeByScore, hit, bind_some, hcollect]
    rfl

theorem Refines.countByScore (h : Refines z S) (hmin : min.NotNan) (max : ScoreBound) :
    z.countByScore std min max = some (S.rangeByScore min max false none).length := by
  rw [ZSetObject.countByScore, h.rangeByScore std hmin]
  rfl

theorem Refines.allEntries (h : Refines z S) : z.allEntries std = some S.entries := by
  obtain ⟨inner, len, generation⟩ := z
  cases h.stores with
  | listpack hsmall => exact congrArg some (lpZsetEntries_lpOf std hsmall)
  | @bpTree tree _ _ htree _ =>
    have hlen := htree.len_eq
    obtain ⟨it, hit, hcollect⟩ := htree.answers.rangeByRank 0 (tree.len - 1)
    rw [take_of_length_le (by omega)] at hcollect
    rw [hlen] at hit
    simp only [allEntries, BPTree.isEmpty, hlen]
    by_cases hzero : S.entries.length = 0
    · simp [length_eq_zero_iff.1 hzero]
    · simp [hit, hcollect]

/-- Comparing every score with the first one compares all of them. -/
theorem allScoresEqual_iff : allScoresEqual S.entries = true ↔
      ∀ e ∈ S.entries, ∀ e' ∈ S.entries, e.score.key = e'.score.key := by
  have hnan := S.sorted.notNan
  generalize S.entries = es at hnan
  rcases es with _ | ⟨first, es⟩
  · simp [allScoresEqual]
  simp only [allScoresEqual, List.all_eq_true]
  have heq : ∀ e ∈ es, e.score.eq first.score = true ↔ e.score.key = first.score.key :=
    fun e he => F64.eq_iff (hnan e (by simp [he])) (hnan first (by simp))
  constructor
  · intro h
    have hfirst : ∀ e ∈ first :: es, e.score.key = first.score.key :=
      forall_mem_cons.2 ⟨rfl, fun e he => (heq e he).1 (h e he)⟩
    intro e he e' he'
    rw [hfirst e he, hfirst e' he']
  · intro h e he
    exact (heq e he).2 (h e (by simp [he]) first (by simp))

theorem Refines.rangeByLex (h : Refines z S) (lower upper : LexBound) (reverse : Bool)
    (limit : Option (Int × Int)) :
    z.rangeByLex std lower upper reverse limit = some (S.rangeByLex lower upper reverse limit) := by
  simp only [ZSetObject.rangeByLex, SortedSet.rangeByLex, h.allEntries std, some_bind]
  by_cases heq : allScoresEqual S.entries = true
  · rw [if_pos (allScoresEqual_iff.1 heq), heq]
    rfl
  · rw [if_neg fun hall => heq (allScoresEqual_iff.2 hall)]
    simp [heq]

theorem Refines.countByLex (h : Refines z S) (lower upper : LexBound) :
    z.countByLex std lower upper = some (S.rangeByLex lower upper false none).length := by
  rw [ZSetObject.countByLex, h.rangeByLex std]
  rfl

/-! ### Updates -/

theorem Refines.decLen {inner : ZSetEncoding} {m : CompactString} {s : F64} (h : Refines z S)
    (hscore : S.score? m = some s) (hstores : Stores inner (S.erase m)) :
    Refines (decLen { z with inner }) (S.erase m) := by
  refine ⟨hstores, ?_⟩
  rw [length_erase hscore, ← h.len_eq]
  rfl

/-- The two indexes forget the same member. -/
theorem index_erase (hindex : ∀ m, memberIndex m = S.score? m) (m m' : CompactString) :
    Function.update memberIndex m none m' = (S.erase m).score? m' := by
  rw [funext hindex, score?_erase]

theorem Refines.remove (h : Refines z S) (member : Bytes) :
    ∃ z', z.remove std member = some (z', (S.remove member).2) ∧
      Refines z' (S.remove member).1 := by
  obtain ⟨inner, len, generation⟩ := z
  have hstores := h.stores
  simp only [SortedSet.remove, SortedSet.scoreOf]
  cases hstores with
  | listpack hsmall =>
    simp only [remove, lpZsetRemove_lpOf std hsmall, some_bind]
    rcases hm : fromUtf8 member with _ | m
    · exact ⟨_, rfl, h⟩
    simp only [bind_some, map_some]
    cases hscore : S.score? m with
    | none =>
      rw [SortedSet.erase_of_notMem (SortedSet.score?_eq_none.1 hscore)]
      exact ⟨_, rfl, h⟩
    | some s =>
      refine ⟨_, rfl, (h.decLen hscore ?_).bumpGeneration⟩
      exact .listpack (hsmall.sublist filter_sublist)
  | bpTree htree hindex =>
    obtain ⟨tree', hrun, htree'⟩ := htree.remove member
    simp only [remove, hrun]
    rcases hm : fromUtf8 member with _ | m
    · exact ⟨_, rfl, h⟩
    simp only [hm] at htree'
    simp only [bind_some, map_some]
    cases hscore : S.score? m with
    | none =>
      rw [SortedSet.erase_of_notMem (SortedSet.score?_eq_none.1 hscore)]
      exact ⟨_, rfl, h⟩
    | some s =>
      refine ⟨_, rfl, (h.decLen hscore ?_).bumpGeneration⟩
      exact .bpTree htree' (index_erase hindex m)

theorem popEdge_tree (htree : BPTree.Refines tree S) (max : Bool) :
    ∃ tree', (if max then tree.popMax else tree.popMin) = some (tree', S.edge max) ∧
      BPTree.Refines tree' (S.withoutEdge max) := by
  cases max with
  | false => exact htree.popMin
  | true => exact htree.popMax

/-- **One pop** takes the entry at the end asked for. -/
theorem Refines.popOne (h : Refines z S) (max : Bool) :
    ∃ z', z.popOne std max = some (z', S.edge max) ∧ Refines z' (S.withoutEdge max) := by
  obtain ⟨inner, len, generation⟩ := z
  have hstores := h.stores
  cases hstores with
  | listpack hsmall =>
    have hitem : (if max then S.entries.getLast? else S.entries.head?) = S.edge max := rfl
    have hrest : (if max then S.entries.dropLast else S.entries.tail) =
        (S.withoutEdge max).entries := by cases max <;> rfl
    simp only [popOne, lpZsetEntries_lpOf std hsmall, hitem, hrest]
    rcases hedge : S.edge max with _ | item
    · rw [withoutEdge_of_none hedge]
      exact ⟨_, rfl, h⟩
    obtain ⟨hscore, herase⟩ := edge_eq_some hedge
    have hsmall' : SmallEntries (S.erase item.member).entries :=
      hsmall.sublist filter_sublist
    simp only [herase, rewriteLpFromEntries_lpOf hsmall hsmall']
    exact ⟨_, rfl, h.decLen hscore (Stores.listpack hsmall')⟩
  | bpTree htree hindex =>
    obtain ⟨tree', hrun, htree'⟩ := popEdge_tree htree max
    simp only [popOne, hrun, some_bind]
    cases hedge : S.edge max with
    | none =>
      rw [withoutEdge_of_none hedge] at htree' ⊢
      exact ⟨{ inner := .bpTree tree' _, len, generation }, rfl, .bpTree htree' hindex, h.len_eq⟩
    | some item =>
      obtain ⟨hscore, herase⟩ := edge_eq_some hedge
      rw [herase] at htree' ⊢
      exact ⟨_, rfl, h.decLen hscore (Stores.bpTree htree' (index_erase hindex item.member))⟩

/-- **The loop of `pop_edge`** pops until the count or the set is used up. -/
theorem Refines.popEdgeLoop (h : Refines z S) (count : Nat) (max : Bool) :
    ∃ z', popEdgeLoop std count z max = some (z', (S.pop count max).2) ∧
      Refines z' (S.pop count max).1 := by
  induction count generalizing z S with
  | zero =>
    rw [pop_zero]
    exact ⟨z, rfl, h⟩
  | succ count ih =>
    obtain ⟨z₁, hone, h₁⟩ := h.popOne std max
    rw [popEdgeLoop, hone]
    cases hedge : S.edge max with
    | none =>
      rw [withoutEdge_of_none hedge] at h₁
      rw [pop_of_none _ hedge]
      exact ⟨z₁, rfl, h₁⟩
    | some item =>
      obtain ⟨z₂, hloop, h₂⟩ := ih h₁
      rw [pop_succ _ hedge]
      exact ⟨z₂, by simp [hloop], h₂⟩

theorem Refines.popEdge (h : Refines z S) (count : Nat) (max : Bool) :
    ∃ z', z.popEdge std count max = some (z', (S.pop count max).2) ∧
      Refines z' (S.pop count max).1 := by
  obtain ⟨z', hloop, h'⟩ := h.popEdgeLoop std count max
  refine ⟨_, by rw [ZSetObject.popEdge, hloop]; rfl, ?_⟩
  split
  · exact h'
  · exact h'.bumpGeneration

/-! ### The upgrade -/

/-- Inserting the rest of a sorted set behind its first entries completes it. -/
theorem insertAllIndexed_spec {pre post : List ZSetEntry} {T : SortedSet}
    (hS : S.entries = pre ++ post) (hT : T.entries = pre) (htree : BPTree.Refines tree T)
    (hindex : ∀ m, memberIndex m = T.score? m) :
    ∃ tree' memberIndex', insertAllIndexed tree memberIndex post = some (tree', memberIndex') ∧
      Stores (.bpTree tree' memberIndex') S := by
  induction post generalizing pre T tree memberIndex with
  | nil =>
    obtain rfl : T = S := ext (by rw [hT, hS, append_nil])
    exact ⟨tree, memberIndex, rfl, .bpTree htree hindex⟩
  | cons e post ih =>
    have he : e.NotNan := S.sorted.notNan e (by simp [hS])
    have hnew : ∀ e' ∈ T.entries, e'.member ≠ e.member := by
      have hdist := S.distinct
      rw [hS, map_append, nodup_append] at hdist
      intro e' he'
      exact hdist.2.2 _ (List.mem_map_of_mem (hT ▸ he')) _ (by simp)
    have hscore := score?_eq_none.2 hnew
    -- the first entries together with `e` are again a sorted set, the one `upsert` gives
    have hT' : (T.upsert e).entries = pre ++ [e] := by
      have hsub : List.Sublist (pre ++ [e]) S.entries := by simp [hS]
      have heq : T.upsert e = S.restrict _ hsub := by
        apply ext_mem
        intro e'
        rw [mem_upsert he]
        show _ ↔ e' ∈ pre ++ [e]
        rw [← hT, mem_append, mem_singleton]
        exact ⟨fun h => h.elim Or.inr fun h => .inl h.1,
          fun h => h.elim (fun h => .inr ⟨h, hnew e' h⟩) Or.inl⟩
      rw [heq]
      rfl
    obtain ⟨tree', hrun, htree'⟩ := htree.insert he
    simp only [hscore] at htree' hrun
    rw [insertAllIndexed, hrun]
    refine ih (by simpa using hS) hT' htree' ?_
    intro m
    rw [funext hindex, score?_upsert he]

/-- **The upgrade** changes the encoding and nothing else. -/
theorem Refines.upgradeListpackToBptree (h : Refines z S) :
    ∃ z', z.upgradeListpackToBptree std = some z' ∧ Refines z' S ∧
      ∃ tree memberIndex, z'.inner = .bpTree tree memberIndex := by
  obtain ⟨inner, len, generation⟩ := z
  have hstores := h.stores
  cases hstores with
  | listpack hsmall =>
    have hempty : ∀ m, (fun _ => none : CompactString → Option F64) m = empty.score? m :=
      fun _ => rfl
    obtain ⟨tree, memberIndex, hrun, hstores'⟩ :=
      insertAllIndexed_spec (S := S) (nil_append _).symm rfl BPTree.refines_new hempty
    simp only [upgradeListpackToBptree, lpZsetEntries_lpOf std hsmall, hrun]
    exact ⟨_, rfl, ⟨hstores', h.len_eq⟩, tree, memberIndex, rfl⟩
  | bpTree htree hindex => exact ⟨_, rfl, h, _, _, rfl⟩

end Refines

end ZSetObject

end Senko
