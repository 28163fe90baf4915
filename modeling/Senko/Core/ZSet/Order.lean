import Mathlib.Data.List.Lex
import Mathlib.Data.Prod.Lex
import Senko.Core.ZSet.BPTree

/-!
# Senko — the order of sorted-set entries

Away from NaN, the comparisons of the source are the lexicographic order of `ZSetEntry.ord`, the
score's key and then the member's bytes (`compareKey_eq_cmp`). Two entries with the same `ord` have
the same member and equal scores; they can differ only in the sign of a zero.
-/

namespace Senko

open List

/-! ## Byte strings -/

theorem compareBytes_eq_cmp (a b : Bytes) :
    compareBytes a b = cmp (a.map UInt8.toNat) (b.map UInt8.toNat) := by
  induction a generalizing b with
  | nil => cases b <;> simp [compareBytes, cmp, cmpUsing]
  | cons x xs ih =>
    rcases b with _ | ⟨y, ys⟩
    · simp [compareBytes, cmp, cmpUsing]
    simp only [compareBytes, ih, cmp, cmpUsing, map_cons, cons_lt_cons_iff]
    rcases Nat.lt_trichotomy x.toNat y.toNat with hlt | heq | hgt
    · simp [hlt]
    · simp [heq]
    · simp [hgt, hgt.not_gt, hgt.ne']

theorem map_toNat_injective : Function.Injective (List.map UInt8.toNat) :=
  map_injective_iff.2 fun _ _ h => UInt8.toNat.inj h

/-! ## Entries -/

namespace ZSetEntry

/-- What an entry is sorted by. -/
def ord (e : ZSetEntry) : ℤ ×ₗ List ℕ := toLex (e.score.key, e.member.bytes.map UInt8.toNat)

def NotNan (e : ZSetEntry) : Prop := e.score.isNan = false
deriving Decidable

variable {a b : ZSetEntry}

theorem ord_lt_iff : a.ord < b.ord ↔ a.score.key < b.score.key ∨
    a.score.key = b.score.key ∧ a.member.bytes.map UInt8.toNat < b.member.bytes.map UInt8.toNat :=
  Prod.Lex.toLex_lt_toLex

theorem ord_eq_iff : a.ord = b.ord ↔ a.score.key = b.score.key ∧ a.member = b.member := by
  unfold ord
  rw [toLex_inj, Prod.mk.injEq, map_toNat_injective.eq_iff]
  exact and_congr_right fun _ => ⟨CompactString.ext, congrArg _⟩

end ZSetEntry

open ZSetEntry

section NotNan

variable {a b : ZSetEntry} (ha : a.NotNan) (hb : b.NotNan)

include ha hb

/-- **`compare_key` is the order of `ord`.** -/
theorem compareKey_eq_cmp : compareKey a b = cmp a.ord b.ord := by
  simp only [compareKey, compareBytes_eq_cmp, F64.lt_iff ha hb, F64.lt_iff hb ha, cmp, cmpUsing,
    ord_lt_iff]
  rcases Int.lt_trichotomy a.score.key b.score.key with h | h | h
  · simp [h]
  · simp [h]
  · simp [h, h.not_gt, h.ne']

theorem entryMatches_iff : entryMatches a b = true ↔ a.ord = b.ord := by
  rw [ord_eq_iff, ← F64.eq_iff ha hb]
  simp [entryMatches, scoresEqual]

end NotNan

/-- Strictly increasing entries without a NaN score. -/
structure SortedEntries (es : List ZSetEntry) : Prop where
  pairwise : es.Pairwise fun a b => a.ord < b.ord
  notNan : ∀ e ∈ es, e.NotNan

namespace SortedEntries

variable {es es₁ es₂ : List ZSetEntry}

theorem nil : SortedEntries [] := ⟨List.Pairwise.nil, by simp⟩

theorem append_left (h : SortedEntries (es₁ ++ es₂)) : SortedEntries es₁ :=
  ⟨(pairwise_append.1 h.pairwise).1, fun e he => h.notNan e (by simp [he])⟩

theorem append_right (h : SortedEntries (es₁ ++ es₂)) : SortedEntries es₂ :=
  ⟨(pairwise_append.1 h.pairwise).2.1, fun e he => h.notNan e (by simp [he])⟩

theorem of_sortedInsert (h : SortedEntries es₁) {x : ZSetEntry} (hx : x.NotNan)
    (hins : SortedInsert ord x es₁ es₂) : SortedEntries es₂ := by
  refine ⟨hins.sorted h.pairwise, ?_⟩
  intro e he
  rcases hins.mem_iff.1 he with rfl | he
  · exact hx
  · exact h.notNan e he

/-- A downward closed predicate cuts sorted entries in two. -/
theorem cut (hsorted : SortedEntries es)
    {q : ℤ ×ₗ List ℕ → Bool} (hq : ∀ a b, a < b → q b = true → q a = true) :
    ∃ l₁ l₂, es = l₁ ++ l₂ ∧ partitionPoint (fun e => q (ord e)) es = l₁.length ∧
      (∀ e ∈ l₁, q e.ord = true) ∧ ∀ e ∈ l₂, q e.ord = false := by
  obtain ⟨l₁, l₂, rfl, hcut, htrue, hfalse⟩ := partitionPoint_split (fun e => q (ord e)) es
  refine ⟨l₁, l₂, rfl, hcut, htrue, ?_⟩
  rcases l₂ with _ | ⟨y, l₂⟩
  · simp
  have hy : q y.ord = false := hfalse y rfl
  refine forall_mem_cons.2 ⟨hy, fun e he => ?_⟩
  have hlt := rel_of_pairwise_cons hsorted.append_right.pairwise he
  cases hqe : q e.ord with
  | false => rfl
  | true => exact absurd (hq _ _ hlt hqe) (by simp [hy])

/-- The position binary search finds in a leaf. -/
theorem lowerBoundEntry (h : SortedEntries es) {x : ZSetEntry} (hx : x.NotNan) :
    ∃ l r, es = l ++ r ∧ Senko.lowerBoundEntry es x = l.length ∧ (∀ e ∈ l, e.ord < x.ord) ∧
      ∀ e ∈ r, x.ord ≤ e.ord := by
  obtain ⟨l, r, hes, hcut, hl, hr⟩ := h.cut (q := fun k => decide (k < x.ord)) (by
    intro a b hab hb
    simp only [decide_eq_true_eq] at hb ⊢
    exact hab.trans hb)
  simp only [decide_eq_true_eq, decide_eq_false_iff_not, not_lt] at hl hr
  refine ⟨l, r, hes, ?_, hl, hr⟩
  rw [← hcut]
  apply partitionPoint_congr
  intro e he
  rw [Bool.eq_iff_iff, beq_iff_eq, compareKey_eq_cmp (h.notNan e he) hx, cmp_eq_lt_iff,
    decide_eq_true_iff]

end SortedEntries

/-- Descending by `child_index_for_key` is routing by `≤`. -/
theorem childIndexForKey_eq {keys : List EntryKey} (hkeys : ∀ k ∈ keys, k.NotNan) {x : EntryKey}
    (hx : x.NotNan) :
    childIndexForKey keys x = partitionPoint (fun k => decide (k.ord ≤ x.ord)) keys := by
  apply partitionPoint_congr
  intro k hk
  rw [Bool.eq_iff_iff, bne_iff_ne, ne_eq, compareKey_eq_cmp (hkeys k hk) hx, cmp_eq_gt_iff, not_lt,
    decide_eq_true_iff]

end Senko
