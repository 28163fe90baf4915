import Senko.Core.SetRebuild
import Senko.Lib.Run
import Senko.Store.SetAlgebra

/-!
# Senko — how set algebra tells members apart

Each of the three ways to compute a difference, an intersection or a union tells members apart in
its own way. Sorted integers are told apart exactly. A hash set asks the other sets, and an integer
set answers for the number a member parses as, a hash table for its text. A bitmap knows members
only up to their *respelling*: the number as it is printed, or the text. The loops over merges, hash
sets and bitmaps are specified here by the members they keep.
-/

namespace Senko

open List CompactString HashTable

variable {as bs : List Int} {x : Int} {z : SetObject} {m r : Bytes} {ints : List Nat} {n : Nat}
  {split other : RoaringSplit} {sets : List SetObject}

/-! ## Sorted integers -/

section Intset

variable {a : Int}

/-- The first integer is the least. -/
theorem head_le_of_sorted (h : (a :: as).Pairwise (· < ·)) (hx : x ∈ a :: as) : a ≤ x := by
  rcases mem_cons.1 hx with rfl | hx
  · exact le_refl x
  · exact le_of_lt ((pairwise_cons.1 h).1 x hx)

theorem notMem_of_lt_head (h : (a :: as).Pairwise (· < ·)) (hlt : x < a) : x ∉ a :: as :=
  fun hx => absurd (head_le_of_sorted h hx) (not_le.2 hlt)

/-- A first integer that the other list does not have selects nothing. -/
theorem mem_cons_iff_of_notMem {b : Int} (h : b ∉ as) (hx : x ∈ as) : x ∈ b :: bs ↔ x ∈ bs :=
  mem_cons.trans (or_iff_right (ne_of_mem_of_not_mem hx h))

theorem notMem_tail_of_sorted (h : (a :: as).Pairwise (· < ·)) : a ∉ as :=
  fun ha => lt_irrefl a ((pairwise_cons.1 h).1 a ha)

/-- An intersection of sorted integers selects from the first list. -/
theorem intsetIntersection_eq_filter (ha : as.Pairwise (· < ·)) (hb : bs.Pairwise (· < ·)) :
    intsetIntersection as bs = as.filter (· ∈ bs) := by
  fun_induction intsetIntersection as bs with
  | case1 a as b bs hlt ih =>
    have hnot : a ∉ b :: bs := notMem_of_lt_head hb hlt
    rw [ih ha.of_cons hb, filter_cons_of_neg (by simpa using hnot)]
  | case2 a as b bs hge hlt ih =>
    have hnot : b ∉ a :: as := notMem_of_lt_head ha hlt
    rw [ih ha hb.of_cons]
    exact filter_congr fun x hx => decide_eq_decide.2 (mem_cons_iff_of_notMem hnot hx).symm
  | case3 a as b bs hge hle ih =>
    obtain rfl : a = b := by omega
    have hnot := notMem_tail_of_sorted ha
    rw [ih ha.of_cons hb.of_cons, filter_cons_of_pos (by simp)]
    congr 1
    exact filter_congr fun x hx => decide_eq_decide.2 (mem_cons_iff_of_notMem hnot hx).symm
  | case4 as bs hcons =>
    cases as with
    | nil => rfl
    | cons a as =>
      cases bs with
      | nil => simp
      | cons b bs => exact absurd rfl (hcons a as b bs rfl)

end Intset

/-! ## Hash sets -/

theorem items_hashSetRetain {α : Type} (t : HashTable α) (p : α → Bool) :
    (hashSetRetain t p).items = t.items.filter p := by
  unfold hashSetRetain items
  generalize t.buckets = buckets
  induction buckets with
  | nil => rfl
  | cons b buckets ih =>
    cases b with
    | none => simpa [reduceOption_cons_of_none] using ih
    | some a =>
      by_cases hp : p a <;> simp [Option.filter, hp, ih]

section HashSet

variable {α : Type} [DecidableEq α] (place : Placement α) {t : HashTable α} {a : α}

theorem mem_items_hashSetInsert {b : α} :
    b ∈ (hashSetInsert place t a).items ↔ b = a ∨ b ∈ t.items := by
  have hfind : (t.find id a).isSome = true ↔ a ∈ t.items := by
    rw [find]
    simp
  unfold hashSetInsert
  by_cases h : (t.find id a).isSome
  · rw [if_pos h]
    exact ⟨.inr, fun hb => hb.elim (fun heq => heq ▸ hfind.1 h) id⟩
  · rw [if_neg h, (place.insertUnique_perm t a).mem_iff, mem_cons]

theorem nodup_items_hashSetInsert (h : t.items.Nodup) : (hashSetInsert place t a).items.Nodup := by
  unfold hashSetInsert
  split
  · exact h
  · rename_i hfind
    rw [(place.insertUnique_perm t a).nodup_iff, nodup_cons]
    refine ⟨fun hmem => hfind ?_, h⟩
    rw [find, find?_isSome]
    exact ⟨a, hmem, by simp⟩

theorem foldl_hashSetInsert_spec (as : List α) (h : t.items.Nodup) :
    (as.foldl (hashSetInsert place) t).items.Nodup ∧
      ∀ b, b ∈ (as.foldl (hashSetInsert place) t).items ↔ b ∈ as ∨ b ∈ t.items := by
  have hadds := foldl_adds (P := fun t : HashTable α => t.items.Nodup)
    (H := fun t b => b ∈ t.items) (p := fun a b => b = a) (fun t a (_ : a ∈ as) h =>
      ⟨nodup_items_hashSetInsert place h, fun b => mem_items_hashSetInsert place⟩) h
  simpa using hadds

theorem hashSetCollect_spec (as : List α) :
    (hashSetCollect place as).items.Nodup ∧ ∀ b, b ∈ (hashSetCollect place as).items ↔ b ∈ as := by
  have hempty : (place.withCapacity 0).items = [] := place.items_withCapacity 0
  obtain ⟨hnodup, hmem⟩ := foldl_hashSetInsert_spec place as (t := place.withCapacity 0)
    (by rw [hempty]; exact nodup_nil)
  refine ⟨hnodup, fun b => (hmem b).trans ?_⟩
  rw [hempty]
  simp

end HashSet

/-! ## Members -/

namespace SetObject

/-- A set as the operations on sets leave it. Its length may count members that an encoding has
merged, but a set of length zero is empty. -/
structure Sound (z : SetObject) : Prop where
  wellFormed : z.inner.WellFormed
  nodup : z.iter.Nodup
  empty : z.len = 0 → z.iter = []

/-- **The spelling under which an encoding knows a member**: the number as it is printed, the bytes,
or the text. -/
def spelling (z : SetObject) (m : Bytes) : Option Bytes :=
  match z.inner with
  | .intset _ => (parseInteger m).map printI64
  | .listpack _ => some m
  | .hashtable _ => some (setCompactFromBytes m).bytes

theorem printI64_injective {v w : Int} (hv : InI64 v) (hw : InI64 w)
    (h : printI64 v = printI64 w) : v = w := by
  have hparse := parseI64_printI64 hv
  rw [h, parseI64_printI64 hw] at hparse
  exact (Option.some.inj hparse).symm

/-- **A set contains a member if it has its spelling.** -/
theorem Sound.contains_iff (h : z.Sound) :
    z.contains m = true ↔ ∃ x ∈ z.spelling m, x ∈ z.iter := by
  obtain ⟨inner, len⟩ := z
  have hwf : inner.WellFormed := h.wellFormed
  show inner.contains m = true ↔ _
  cases inner with
  | intset s =>
    rw [SetEncoding.contains, Option.any_eq_true]
    constructor
    · rintro ⟨v, hparse, hv⟩
      rw [IntSet.contains_iff] at hv
      exact ⟨printI64 v, by rw [spelling, hparse]; rfl, mem_map_of_mem hv⟩
    · rintro ⟨x, hx, hmem⟩
      obtain ⟨v, hparse, rfl⟩ := Option.map_eq_some_iff.1 hx
      obtain ⟨w, hw, hprint⟩ := mem_map.1 hmem
      have hv : InI64 v := inI64_of_parseI64 (parseInteger_eq_some hparse)
      rw [printI64_injective (hwf w hw) hv hprint] at hw
      exact ⟨v, hparse, IntSet.contains_iff.2 hw⟩
  | listpack node =>
    obtain ⟨entries, rfl, hsmall⟩ := hwf
    have hiter := SetEncoding.iter_listpack hsmall
    show lpSetContains _ m = true ↔ ∃ x ∈ some m, x ∈ (SetEncoding.listpack _).iter
    rw [lpSetContains_eq hsmall.shortChunk, hiter]
    simp
  | hashtable table =>
    show (table.find id _).isSome = true ↔
      ∃ x ∈ some (setCompactFromBytes m).bytes, x ∈ table.items.map bytes
    rw [table_find_isSome]
    constructor
    · exact fun hmem => ⟨_, rfl, mem_map_of_mem hmem⟩
    · rintro ⟨x, ⟨⟩, hmem⟩
      obtain ⟨c, hc, hbytes⟩ := mem_map.1 hmem
      rwa [← ext hbytes]

/-- A member of a set is known under its own bytes. -/
theorem Sound.spelling_of_mem (h : z.Sound) (hm : m ∈ z.iter) : z.spelling m = some m := by
  obtain ⟨inner, len⟩ := z
  have hwf : inner.WellFormed := h.wellFormed
  cases inner with
  | intset s =>
    obtain ⟨v, hv, rfl⟩ := mem_map.1 hm
    show (parseInteger (printI64 v)).map printI64 = _
    rw [parseInteger_printI64 (hwf v hv)]
    rfl
  | listpack node => rfl
  | hashtable table =>
    obtain ⟨c, hc, rfl⟩ := mem_map.1 hm
    show some (ofUtf8Lossy c.bytes).bytes = _
    rw [ofUtf8Lossy_bytes]

theorem Sound.contains_of_mem (h : z.Sound) (hm : m ∈ z.iter) : z.contains m = true :=
  h.contains_iff.2 ⟨m, h.spelling_of_mem hm, hm⟩

end SetObject

/-! ## Bitmaps -/

/-- **The spelling that a bitmap gives a member**: the number as it is printed, or the text. -/
def respell (m : Bytes) : Bytes :=
  match parseU32 m with
  | some n => printI64 n
  | none => (setCompactFromBytes m).bytes

section Roaring

theorem parseU64_toDecimal (hn : n ≤ u64Max) : parseU64 (toDecimal n) = some n := by
  have hparse := parseDigits_toDecimal n
  rcases hdigits : toDecimal n with _ | ⟨b, ds⟩
  · exact absurd hdigits (toDecimal_ne_nil n)
  rw [hdigits] at hparse
  -- a printed number has no sign
  have hplus : b ≠ 0x2b := by
    rintro rfl
    exact toDecimal_ne_cons (by decide) ds hdigits
  rw [parseU64, if_neg hplus, hparse]
  exact if_pos hn

theorem parseU32_printI64 (hn : n < 2 ^ 32) : parseU32 (printI64 n) = some n := by
  have hprint : printI64 n = toDecimal n := by
    rw [printI64, if_neg (by omega), Int.toNat_natCast]
  have hle : n ≤ u64Max := by
    rw [u64Max]
    omega
  rw [parseU32, hprint, parseU64_toDecimal hle, Option.filter_some, if_pos (by simpa using hn)]

theorem lt_of_mem_of_parseU64 {b : UInt8} (h : parseU64 m = some n) (hb : b ∈ m) : b < 0x80 := by
  rcases m with _ | ⟨first, ds⟩
  · cases hb
  rw [parseU64] at h
  obtain ⟨k, hdigits, -⟩ := Option.bind_eq_some_iff.1 h
  obtain ⟨-, hall, -⟩ := parseDigits_eq_some hdigits
  by_cases hplus : first = 0x2b
  · rw [if_pos hplus] at hall
    rcases mem_cons.1 hb with rfl | hb
    · rw [hplus]
      decide
    · exact lt_of_isDigit (hall b hb)
  · rw [if_neg hplus] at hall
    exact lt_of_isDigit (hall b hb)

theorem lt_of_parseU32 (h : parseU32 m = some n) : n < 2 ^ 32 := by
  obtain ⟨-, hlt⟩ := Option.filter_eq_some_iff.1 h
  simpa using hlt

/-- A respelling that parses was a number from the beginning. -/
theorem parseU32_text (h : parseU32 m = none) : parseU32 (setCompactFromBytes m).bytes = none := by
  rcases hparse : parseU32 (setCompactFromBytes m).bytes with _ | n
  · rfl
  obtain ⟨hparse', -⟩ := Option.filter_eq_some_iff.1 hparse
  have hascii : ∀ b ∈ fromUtf8Lossy m, b < 0x80 := fun b hb => lt_of_mem_of_parseU64 hparse' hb
  have hself : (setCompactFromBytes m).bytes = m := eq_of_fromUtf8Lossy_ascii hascii
  rw [hself, h] at hparse
  cases hparse

namespace RoaringSplit

/-- A bitmap of `u32` values beside a hash set of texts that are no such values. -/
structure Canonical (split : RoaringSplit) : Prop where
  sorted : split.ints.Pairwise (· < ·)
  small : ∀ n ∈ split.ints, n < 2 ^ 32
  nodup : split.bytes.items.Nodup
  text : ∀ c ∈ split.bytes.items, parseU32 c.bytes = none

/-- A spelling stands in the bitmap, or in the hash set. -/
def Has (split : RoaringSplit) (r : Bytes) : Prop :=
  match parseU32 r with
  | some n => n ∈ split.ints ∧ printI64 n = r
  | none => ∃ c ∈ split.bytes.items, c.bytes = r

theorem Canonical.mem_vec (h : split.Canonical) : r ∈ roaringAndHashToVec split ↔ split.Has r := by
  rw [roaringAndHashToVec, mem_append, mem_map, mem_map, Has]
  constructor
  · rintro (⟨k, hk, rfl⟩ | ⟨c, hc, rfl⟩)
    · rw [parseU32_printI64 (h.small k hk)]
      exact ⟨hk, rfl⟩
    · rw [h.text c hc]
      exact ⟨c, hc, rfl⟩
  · intro hhas
    split at hhas
    · exact .inl ⟨_, hhas⟩
    · exact .inr hhas

theorem Canonical.nodup_vec (h : split.Canonical) : (roaringAndHashToVec split).Nodup := by
  rw [roaringAndHashToVec, nodup_append]
  refine ⟨?_, ?_, ?_⟩
  · apply List.Nodup.map_on _ (h.sorted.imp fun hlt => ne_of_lt hlt)
    intro n hn k hk heq
    have hparse := parseU32_printI64 (h.small n hn)
    rw [heq, parseU32_printI64 (h.small k hk)] at hparse
    exact (Option.some.inj hparse).symm
  · exact h.nodup.map fun c c' => ext
  · -- a printed number is no text
    intro x hx y hy heq
    obtain ⟨n, hn, rfl⟩ := mem_map.1 hx
    obtain ⟨c, hc, rfl⟩ := mem_map.1 hy
    have hparse := h.text c hc
    rw [← heq, parseU32_printI64 (h.small n hn)] at hparse
    cases hparse

/-- Two splits combined number by number and text by text are combined spelling by spelling. -/
theorem has_congr {combined : RoaringSplit} {p : Prop → Prop → Prop} (hfalse : ¬p False False)
    (hints : ∀ n, n ∈ combined.ints ↔ p (n ∈ split.ints) (n ∈ other.ints))
    (htext : ∀ c, c ∈ combined.bytes.items ↔ p (c ∈ split.bytes.items) (c ∈ other.bytes.items)) :
    combined.Has r ↔ p (split.Has r) (other.Has r) := by
  unfold Has
  cases hparse : parseU32 r with
  | some n =>
    by_cases hprint : printI64 n = r
    · simp only [hprint, and_true, hints]
    · simpa only [hprint, and_false, false_iff] using hfalse
  | none =>
    by_cases hvalid : validUtf8 r = true
    · -- there is just one text with these bytes
      have hone : ∀ items : List CompactString,
          (∃ c ∈ items, c.bytes = r) ↔ (⟨r, hvalid⟩ : CompactString) ∈ items := by
        intro items
        constructor
        · rintro ⟨c, hc, rfl⟩
          exact hc
        · exact fun hc => ⟨_, hc, rfl⟩
      show (∃ c ∈ combined.bytes.items, c.bytes = r) ↔
        p (∃ c ∈ split.bytes.items, c.bytes = r) (∃ c ∈ other.bytes.items, c.bytes = r)
      rw [hone, hone, hone, htext]
    · have hnone : ∀ items : List CompactString, (∃ c ∈ items, c.bytes = r) ↔ False := by
        intro items
        rw [iff_false]
        rintro ⟨c, -, rfl⟩
        exact hvalid c.valid
      show (∃ c ∈ combined.bytes.items, c.bytes = r) ↔
        p (∃ c ∈ split.bytes.items, c.bytes = r) (∃ c ∈ other.bytes.items, c.bytes = r)
      rw [hnone, hnone, hnone, false_iff]
      exact hfalse

/-! ### Building a split -/

theorem mem_bitmapInsert {k : Nat} : k ∈ bitmapInsert ints n ↔ k = n ∨ k ∈ ints := by
  unfold bitmapInsert
  split
  · exact ⟨.inr, fun h => h.elim (fun heq => heq ▸ by assumption) id⟩
  · exact mem_orderedInsert (· ≤ ·)

theorem sorted_bitmapInsert (h : ints.Pairwise (· < ·)) :
    (bitmapInsert ints n).Pairwise (· < ·) := by
  unfold bitmapInsert
  split
  · exact h
  rename_i hn
  have hle : (ints.orderedInsert (· ≤ ·) n).Pairwise (· ≤ ·) :=
    List.Pairwise.orderedInsert n ints (h.imp le_of_lt)
  have hnodup : (ints.orderedInsert (· ≤ ·) n).Nodup := by
    rw [(perm_orderedInsert (· ≤ ·) n ints).nodup_iff, nodup_cons]
    exact ⟨hn, h.imp ne_of_lt⟩
  exact (hle.and hnodup).imp fun hand => lt_of_le_of_ne hand.1 hand.2

theorem foldl_bitmapInsert_spec (more : List Nat) (h : ints.Pairwise (· < ·)) :
    (more.foldl bitmapInsert ints).Pairwise (· < ·) ∧
      ∀ k, k ∈ more.foldl bitmapInsert ints ↔ k ∈ more ∨ k ∈ ints := by
  have hadds := foldl_adds (P := List.Pairwise (· < ·)) (H := fun ints k => k ∈ ints)
    (p := fun n k => k = n) (fun ints n (_ : n ∈ more) h => ⟨sorted_bitmapInsert h, fun k =>
      mem_bitmapInsert⟩) h
  simpa using hadds

variable (place : Placement CompactString)

theorem canonical_new : (RoaringSplit.new place).Canonical where
  sorted := List.Pairwise.nil
  small := by simp [new]
  nodup := by simp [new, place.items_withCapacity]
  text := by simp [new, place.items_withCapacity]

theorem not_has_new : ¬(RoaringSplit.new place).Has r := by
  unfold Has
  split <;> simp [new, place.items_withCapacity]

theorem Canonical.insert (h : split.Canonical) : (split.insert place m).Canonical := by
  unfold RoaringSplit.insert
  split
  · rename_i n hparse
    exact { h with
      sorted := sorted_bitmapInsert h.sorted
      small := by
        intro k hk
        rcases mem_bitmapInsert.1 hk with rfl | hk
        · exact lt_of_parseU32 hparse
        · exact h.small k hk }
  rename_i hparse
  exact { h with
    nodup := nodup_items_hashSetInsert place h.nodup
    text := by
      intro c hc
      rcases (mem_items_hashSetInsert place).1 hc with rfl | hc
      · exact parseU32_text hparse
      · exact h.text c hc }

/-- **One more member** brings its respelling. -/
theorem has_insert (h : split.Canonical) :
    (split.insert place m).Has r ↔ respell m = r ∨ split.Has r := by
  rw [← (h.insert place).mem_vec, ← h.mem_vec, roaringAndHashToVec, roaringAndHashToVec,
    RoaringSplit.insert, respell]
  cases parseU32 m with
  | some n => simp [mem_bitmapInsert, or_assoc, eq_comm]
  | none => simp [mem_items_hashSetInsert, or_left_comm, eq_comm]

theorem foldl_insert_spec (ms : List Bytes) (h : split.Canonical) :
    (ms.foldl (RoaringSplit.insert place) split).Canonical ∧
      ∀ r, (ms.foldl (RoaringSplit.insert place) split).Has r ↔
        (∃ m ∈ ms, respell m = r) ∨ split.Has r :=
  foldl_adds (fun _ _ _ h => ⟨h.insert place, fun _ => has_insert place h⟩) h

/-- **Splitting a set** keeps its members up to respelling. -/
theorem splitToRoaring_spec (z : SetObject) : (splitToRoaring place z).Canonical ∧
      ∀ r, (splitToRoaring place z).Has r ↔ ∃ m ∈ z.iter, respell m = r := by
  obtain ⟨hcanonical, hhas⟩ := foldl_insert_spec place z.iter (canonical_new place)
  refine ⟨hcanonical, fun r => (hhas r).trans ?_⟩
  exact or_iff_left (not_has_new place)

/-! ### Combining splits -/

theorem Canonical.retain (h : split.Canonical) : (split.retain other).Canonical ∧
      ∀ r, (split.retain other).Has r ↔ split.Has r ∧ other.Has r := by
  have hitems : (split.retain other).bytes.items =
      split.bytes.items.filter fun c => (other.bytes.find id c).isSome :=
    items_hashSetRetain _ _
  constructor
  · exact {
      sorted := h.sorted.filter _
      small := fun n hn => h.small n (mem_filter.1 hn).1
      nodup := by
        rw [hitems]
        exact h.nodup.filter _
      text := by
        intro c hc
        rw [hitems] at hc
        exact h.text c (mem_filter.1 hc).1 }
  · intro r
    apply has_congr (p := And) (by simp)
    · intro n
      rw [RoaringSplit.retain, mem_filter, contains_iff_mem]
    · intro c
      rw [hitems, mem_filter, table_find_isSome]

theorem foldl_remove_spec {t : HashTable CompactString} (gone : List CompactString)
    (h : t.items.Nodup) :
    (gone.foldl (fun bytes member => bytes.remove id member) t).items.Nodup ∧
      ∀ c, c ∈ (gone.foldl (fun bytes member => bytes.remove id member) t).items ↔
        c ∈ t.items ∧ c ∉ gone := by
  obtain ⟨hnodup, hmem⟩ := foldl_selects (P := fun t : HashTable CompactString => t.items.Nodup)
    (H := fun t c => c ∈ t.items) (p := fun g c => c ≠ g) (fun t g h =>
      ⟨by rw [items_remove]; exact h.filter _, fun c => mem_items_remove⟩) gone h
  exact ⟨hnodup, fun c => (hmem c).trans (and_congr_right' forall_mem_ne)⟩

theorem Canonical.remove (h : split.Canonical) : (split.remove other).Canonical ∧
      ∀ r, (split.remove other).Has r ↔ split.Has r ∧ ¬other.Has r := by
  obtain ⟨hnodup, hmem⟩ := foldl_remove_spec other.bytes.items h.nodup
  constructor
  · exact {
      sorted := h.sorted.filter _
      small := fun n hn => h.small n (mem_filter.1 hn).1
      nodup := hnodup
      text := fun c hc => h.text c ((hmem c).1 hc).1 }
  · intro r
    apply has_congr (p := fun a b => a ∧ ¬b) (by simp)
    · rw [RoaringSplit.remove]
      simp
    · exact hmem

theorem Canonical.extend (h : split.Canonical) (ho : other.Canonical) :
    (split.extend place other).Canonical ∧
      ∀ r, (split.extend place other).Has r ↔ split.Has r ∨ other.Has r := by
  obtain ⟨hsorted, hints⟩ := foldl_bitmapInsert_spec other.ints h.sorted
  obtain ⟨hnodup, hitems⟩ := foldl_hashSetInsert_spec place other.bytes.items h.nodup
  constructor
  · exact {
      sorted := hsorted
      small := fun n hn => ((hints n).1 hn).elim (ho.small n) (h.small n)
      nodup := hnodup
      text := fun c hc => ((hitems c).1 hc).elim (ho.text c) (h.text c) }
  · intro r
    apply has_congr (p := Or) (by simp)
    · exact fun n => (hints n).trans or_comm
    · exact fun c => (hitems c).trans or_comm

/-! ### Whole loops -/

theorem vec_retain_sublist (split other : RoaringSplit) :
    (roaringAndHashToVec (split.retain other)).Sublist (roaringAndHashToVec split) := by
  refine .append (filter_sublist.map _) (.map _ ?_)
  rw [RoaringSplit.retain, items_hashSetRetain]
  exact filter_sublist

/-- A loop that only takes members away keeps the order. -/
theorem vec_foldl_sublist {f : RoaringSplit → RoaringSplit → RoaringSplit}
    (hstep : ∀ split other, (roaringAndHashToVec (f split other)).Sublist
      (roaringAndHashToVec split)) (others : List RoaringSplit) (split : RoaringSplit) :
    (roaringAndHashToVec (others.foldl f split)).Sublist (roaringAndHashToVec split) := by
  induction others generalizing split with
  | nil => exact .refl _
  | cons other others ih => exact (ih _).trans (hstep split other)

theorem Canonical.foldl_retain (h : split.Canonical) (others : List RoaringSplit) :
    (others.foldl RoaringSplit.retain split).Canonical ∧
      ∀ r, (others.foldl RoaringSplit.retain split).Has r ↔
        split.Has r ∧ ∀ other ∈ others, other.Has r :=
  foldl_selects (fun _ _ => by exact Canonical.retain) others h

theorem Canonical.foldl_extend (h : split.Canonical) (others : List RoaringSplit)
    (hothers : ∀ other ∈ others, other.Canonical) :
    (others.foldl (RoaringSplit.extend place) split).Canonical ∧
      ∀ r, (others.foldl (RoaringSplit.extend place) split).Has r ↔
        (∃ other ∈ others, other.Has r) ∨ split.Has r :=
  foldl_adds (fun _ other hother h => by
    obtain ⟨hcanonical, hhas⟩ := Canonical.extend place h (hothers other hother)
    exact ⟨hcanonical, fun r => (hhas r).trans or_comm⟩) h

end RoaringSplit

end Roaring

/-! ## The loop of an intersection -/

section IntersectLoop

variable {α : Type} {retain : List α → SetObject → Option (List α)} {keep : SetObject → α → Bool}
  {current : List α}

variable (retain keep) in
/-- The sets select from what is left. -/
def Retains (current : List α) (sets : List SetObject) : Prop :=
  ∀ z ∈ sets, ∀ as, as.Sublist current → retain as z = some (as.filter (keep z))

theorem Retains.step (h : Retains retain keep current (z :: sets)) :
    retain current z = some (current.filter (keep z)) ∧
      Retains retain keep (current.filter (keep z)) sets :=
  ⟨h z mem_cons_self current (List.Sublist.refl _), fun z' hz' as has =>
    h z' (mem_cons_of_mem z hz') as (has.trans filter_sublist)⟩

/-- **Below the limit** the loop keeps what every set keeps. -/
theorem intersectLoop_below {limit : Option Nat} (hretain : Retains retain keep current sets)
    (hlimit : ∀ l ∈ limit, current.length < l) : intersectLoop retain limit current sets =
      some (current.filter fun a => sets.all fun z => keep z a) := by
  induction sets generalizing current with
  | nil => simp [intersectLoop]
  | cons z sets ih =>
    obtain ⟨hstep, hrest⟩ := hretain.step
    have hshort : ∀ l ∈ limit, (current.filter (keep z)).length < l := fun l hl =>
      lt_of_le_of_lt (length_filter_le _ _) (hlimit l hl)
    have hgoes : (limit.filter fun l => decide (l ≤ (current.filter (keep z)).length)) = none :=
      Option.filter_eq_none_iff.2 fun l hl => by simpa using hshort l hl
    rw [intersectLoop, hstep]
    show (match limit.filter _ with | some l => _ | none => _) = _
    rw [hgoes]
    show intersectLoop retain limit (current.filter (keep z)) sets = _
    rw [ih hrest hshort, filter_filter]
    simp only [all_cons, Bool.and_comm]

/-- **Without a limit** as well. -/
theorem intersectLoop_none (hretain : Retains retain keep current sets) :
    intersectLoop retain none current sets =
      some (current.filter fun a => sets.all fun z => keep z a) :=
  intersectLoop_below hretain (by simp)

end IntersectLoop

end Senko
