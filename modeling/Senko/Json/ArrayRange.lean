import Mathlib.Data.List.Intervals

/-!
# Senko — ranges of JSON arrays (`senko-json/src/lib.rs`)

`JSON.ARRTRIM` and `JSON.ARRINDEX` bring both bounds inside of the array with one function. That is
right for the end of a range. A start behind the last element becomes the last element.
-/

namespace Senko.Json

open List

variable {α : Type} {arr : List α} {start stop : Int} {n : Nat}

def normalizeSearchBound (len : Nat) (index : Int) : Nat :=
  if len = 0 then 0
  else if index < 0 then len - index.natAbs
  else min index.toNat (len - 1)

/-- What is left of the array, and the reply. -/
def trimArray (arr : List α) (start stop : Int) : List α × Nat :=
  if arr.isEmpty then (arr, 0)
  else
    let start := normalizeSearchBound arr.length start
    let stop := normalizeSearchBound arr.length stop
    if start > stop then ([], 0)
    else
      let kept := (arr.drop start).take (stop - start + 1)
      (kept, kept.length)

/-- The reply for an index that was found or not. -/
def indexReply (found : Option Nat) : Int := found.elim (-1) (↑)

/-- `json_arrindex`, once the array has been found. -/
def jsonArrindex [BEq α] (arr : List α) (needle : α) (start stop : Int) : Int :=
  let start := normalizeSearchBound arr.length start
  let stop := min (normalizeSearchBound arr.length stop) (arr.length - 1)
  indexReply ((range' start (stop + 1 - start)).find? fun idx => arr[idx]?.any (· == needle))

/-- A negative bound counts from the end. -/
def bound (n : Nat) (b : Int) : Int := if b < 0 then n + b else b

/-- The indexes of an array that lie in a range. -/
def indexes (n : Nat) (start stop : Int) : List Nat :=
  (range n).filter fun i => bound n start ≤ i ∧ i ≤ bound n stop

/-- The elements in the range are kept, and the first of them that is equal is found. -/
def RangesExact [BEq α] (arr : List α) (start stop : Int) : Prop :=
  let kept := (indexes arr.length start stop).filterMap (arr[·]?)
  trimArray arr start stop = (kept, kept.length) ∧
    ∀ needle, jsonArrindex arr needle start stop = indexReply
      ((indexes arr.length start stop).find? fun idx => arr[idx]?.any (· == needle))

theorem filterMap_range' (arr : List α) (a m : Nat) :
    (range' a m).filterMap (arr[·]?) = (arr.drop a).take m := by
  induction m generalizing a with
  | zero => simp
  | succ m ih =>
    rw [range'_succ, filterMap_cons, ih]
    rcases Nat.lt_or_ge a arr.length with ha | ha
    · rw [getElem?_eq_getElem ha, drop_eq_getElem_cons ha, take_succ_cons]
    · rw [getElem?_eq_none ha, drop_eq_nil_of_le ha, drop_eq_nil_of_le (by omega)]
      simp

/-- The indexes that the two commands look at. -/
def searched (n : Nat) (start stop : Int) : List Nat :=
  Ico (normalizeSearchBound n start) (normalizeSearchBound n stop + 1)

theorem normalizeSearchBound_lt (hn : 0 < n) (b : Int) : normalizeSearchBound n b < n := by
  unfold normalizeSearchBound
  split_ifs <;> omega

theorem trimArray_eq (hne : arr ≠ []) : trimArray arr start stop =
    let kept := (searched arr.length start stop).filterMap (arr[·]?)
    (kept, kept.length) := by
  rw [trimArray, if_neg (by simpa using hne), searched, Ico, filterMap_range']
  dsimp only
  split
  · rw [Nat.sub_eq_zero_of_le (by omega)]
    rfl
  · rw [Nat.sub_add_comm (by omega)]

theorem jsonArrindex_eq [BEq α] (hne : arr ≠ []) (needle : α) : jsonArrindex arr needle start stop =
    indexReply ((searched arr.length start stop).find? fun idx => arr[idx]?.any (· == needle)) := by
  have hlast := normalizeSearchBound_lt (length_pos_iff.2 hne) stop
  rw [jsonArrindex, min_eq_left (by omega)]
  rfl

/-- The indexes of the array between the two bounds as the commands see them. -/
theorem searched_eq_filter (hn : 0 < n) : searched n start stop = (range n).filter fun i =>
    normalizeSearchBound n start ≤ i ∧ i ≤ normalizeSearchBound n stop := by
  have hfilter : ((Ico 0 n).filter fun i => i < normalizeSearchBound n stop + 1).filter
      (fun i => normalizeSearchBound n start ≤ i) = searched n start stop := by
    rw [Ico.filter_lt, Ico.filter_le, Nat.zero_max,
      Nat.min_eq_right (normalizeSearchBound_lt hn stop), searched]
  rw [← hfilter, Ico.zero_bot, filter_filter]
  simp only [Nat.lt_succ_iff, Bool.decide_and]

/-- **JSON array ranges follow index arithmetic** if and only if the start lies inside of the array,
or the range ends before the last element. -/
theorem json_array_ranges [BEq α] (arr : List α) (start stop : Int) (hstop : -arr.length ≤ stop) :
    RangesExact arr start stop ↔
      arr = [] ∨ start < arr.length ∨ bound arr.length stop < arr.length - 1 := by
  rcases eq_or_ne arr [] with rfl | hne
  · exact iff_of_true ⟨rfl, fun _ => rfl⟩ (.inl rfl)
  have hn := length_pos_iff.2 hne
  simp only [RangesExact, trimArray_eq hne, jsonArrindex_eq hne, hne, false_or]
  constructor
  · -- a start behind the end is moved to the last element, which does not lie in the range
    intro h
    by_contra hcon
    have hlast : arr.getLast hne ∈ (searched arr.length start stop).filterMap (arr[·]?) := by
      refine mem_filterMap.2 ⟨arr.length - 1, ?_, by simp [getLast_eq_getElem]⟩
      rw [searched_eq_filter hn, mem_filter, mem_range, decide_eq_true_eq]
      unfold bound at hcon
      unfold normalizeSearchBound
      split_ifs at hcon ⊢ <;> omega
    rw [(Prod.mk.inj h.1).1] at hlast
    obtain ⟨i, hi, -⟩ := mem_filterMap.1 hlast
    rw [indexes, mem_filter, mem_range, decide_eq_true_eq, bound, if_neg (by omega)] at hi
    omega
  · intro hcondition
    have hsame : searched arr.length start stop = indexes arr.length start stop := by
      rw [searched_eq_filter hn, indexes]
      refine filter_congr fun i hi => ?_
      have hi := mem_range.1 hi
      rw [decide_eq_decide]
      unfold bound at hcondition ⊢
      unfold normalizeSearchBound
      split_ifs at hcondition ⊢ <;> omega
    rw [hsame]
    exact ⟨rfl, fun _ => rfl⟩

/-- The last element of three, from the end. -/
theorem json_array_ranges_last : RangesExact ['a', 'b', 'c'] (-1) (-1) :=
  (json_array_ranges ['a', 'b', 'c'] (-1) (-1) (by decide)).2 (.inr (.inl (by decide)))

/-- `JSON.ARRTRIM` from index 1 on keeps the one element at index 0. -/
theorem json_array_ranges_fails :
    ¬∀ (arr : List Char) (start stop : Int), -arr.length ≤ stop → RangesExact arr start stop := by
  intro h
  exact absurd (h ['a'] 1 1 (by decide)).1 (by decide)

end Senko.Json
