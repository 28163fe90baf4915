import Mathlib.Data.List.Sort
import Senko.Core.ZSet.Order

/-!
# Senko — sorted sets, abstractly

What a sorted set is for, apart from how it is stored: a finite map from members to scores, listed
by score and then by member. `SortedSet` is that listing with its two invariants, strictly
increasing keys and distinct members, so every value of the type is a sorted set. Its elements
determine it (`SortedSet.ext_mem`): it is the sorted enumeration of its map.
-/

namespace Senko

open ZSetEntry List Function

/-! ## Insertion into sorted entries -/

/-- The entries with `x` put where its key belongs. -/
def insertSorted (x : ZSetEntry) (es : List ZSetEntry) : List ZSetEntry :=
  es.takeWhile (fun e => decide (e.ord < x.ord)) ++
    x :: es.dropWhile fun e => decide (e.ord < x.ord)

variable {es es' : List ZSetEntry} {x : ZSetEntry}

/-- Sorted insertion has one result. -/
theorem SortedInsert.eq_insertSorted (h : SortedInsert ord x es es') : es' = insertSorted x es := by
  obtain ⟨l, r, rfl, rfl, hl, hr⟩ := h
  have hl' : ∀ e ∈ l, decide (e.ord < x.ord) = true := fun e he => by simpa using hl e he
  unfold insertSorted
  rw [takeWhile_append_of_pos hl', dropWhile_append_of_pos hl']
  cases r with
  | nil => simp
  | cons y r =>
    have hy : ¬ y.ord < x.ord := (hr y (by simp)).not_gt
    rw [takeWhile_cons_of_neg (by simpa using hy), dropWhile_cons_of_neg (by simpa using hy),
      append_nil]

theorem sortedInsert_insertSorted (hes : SortedEntries es) (hfresh : ∀ e ∈ es, e.ord ≠ x.ord) :
    SortedInsert ord x es (insertSorted x es) := by
  obtain ⟨l, r, rfl, -, hl, hr⟩ := hes.cut (q := fun k => decide (k < x.ord)) (by
    intro a b hab hb
    simp only [decide_eq_true_eq] at hb ⊢
    exact hab.trans hb)
  simp only [decide_eq_true_eq, decide_eq_false_iff_not, not_lt] at hl hr
  have hins : SortedInsert ord x (l ++ r) (l ++ x :: r) :=
    ⟨l, r, rfl, rfl, hl, fun e he =>
      lt_of_le_of_ne (hr e he) (Ne.symm (hfresh e (mem_append_right l he)))⟩
  rw [← hins.eq_insertSorted]
  exact hins

theorem SortedEntries.sublist (h : SortedEntries es) (hsub : List.Sublist es' es) :
    SortedEntries es' :=
  ⟨h.pairwise.sublist hsub, fun e he => h.notNan e (hsub.subset he)⟩

/-! ## The structure -/

structure SortedSet where
  entries : List ZSetEntry
  sorted : SortedEntries entries
  distinct : (entries.map ZSetEntry.member).Nodup

namespace SortedSet

variable {S : SortedSet} {e x : ZSetEntry} {m : CompactString} {s : F64}

@[ext] theorem ext {S T : SortedSet} (h : S.entries = T.entries) : S = T := by
  cases S
  cases T
  cases h
  rfl

/-- **A sorted set is determined by its elements.** -/
theorem ext_mem {S T : SortedSet} (h : ∀ e, e ∈ S.entries ↔ e ∈ T.entries) : S = T := by
  apply SortedSet.ext
  have hnodup : ∀ U : SortedSet, U.entries.Nodup := fun U => U.distinct.of_map _
  exact List.Perm.eq_of_pairwise (fun _ _ _ _ hab hba => absurd hab hba.not_gt)
    S.sorted.pairwise T.sorted.pairwise ((perm_ext_iff_of_nodup (hnodup S) (hnodup T)).2 h)

def empty : SortedSet := ⟨[], SortedEntries.nil, List.nodup_nil⟩

/-- The score of a member. -/
def score? (S : SortedSet) (m : CompactString) : Option F64 :=
  (S.entries.find? fun e => e.member = m).map ZSetEntry.score

/-- A member has one entry. -/
theorem eq_of_member_eq (S : SortedSet) {e e' : ZSetEntry} (he : e ∈ S.entries)
    (he' : e' ∈ S.entries) (h : e.member = e'.member) : e = e' :=
  inj_on_of_nodup_map S.distinct he he' h

theorem score?_eq_some : S.score? m = some s ↔ (⟨s, m⟩ : ZSetEntry) ∈ S.entries := by
  unfold score?
  constructor
  · intro h
    obtain ⟨e, he, rfl⟩ := Option.map_eq_some_iff.1 h
    have hm : e.member = m := by simpa using find?_some he
    subst hm
    exact mem_of_find?_eq_some he
  · intro h
    obtain ⟨e, he⟩ := Option.isSome_iff_exists.1
      (find?_isSome.2 ⟨_, h, by simp⟩ : (S.entries.find? fun e => e.member = m).isSome)
    have hm : e.member = m := by simpa using find?_some he
    have heq := S.eq_of_member_eq (mem_of_find?_eq_some he) h hm
    rw [he, heq]
    rfl

theorem score?_eq_none : S.score? m = none ↔ ∀ e ∈ S.entries, e.member ≠ m := by
  simp [score?]

/-- Without the member. -/
def erase (S : SortedSet) (m : CompactString) : SortedSet where
  entries := S.entries.filter fun e => e.member ≠ m
  sorted := S.sorted.sublist List.filter_sublist
  distinct := S.distinct.sublist (List.filter_sublist.map _)

theorem mem_erase : e ∈ (S.erase m).entries ↔ e ∈ S.entries ∧ e.member ≠ m := by
  simp [erase]

/-- Erasing the member of an entry takes out that entry. -/
theorem entries_erase {l r : List ZSetEntry} (h : S.entries = l ++ x :: r) :
    (S.erase x.member).entries = l ++ r := by
  have hdist := S.distinct
  rw [h, map_append, map_cons, nodup_append, nodup_cons] at hdist
  obtain ⟨-, ⟨hr, -⟩, hl⟩ := hdist
  have hl' : ∀ e ∈ l, decide (e.member ≠ x.member) = true := by
    intro e he
    simpa using hl e.member (mem_map_of_mem he) x.member (by simp)
  have hr' : ∀ e ∈ r, decide (e.member ≠ x.member) = true := by
    intro e he
    simpa using fun heq : e.member = x.member => hr (heq ▸ mem_map_of_mem he)
  show S.entries.filter _ = _
  rw [h, filter_append, filter_cons_of_neg (by simp), filter_eq_self.2 hl', filter_eq_self.2 hr']

theorem erase_of_notMem (h : ∀ e ∈ S.entries, e.member ≠ m) : S.erase m = S := by
  apply SortedSet.ext
  exact filter_eq_self.2 fun e he => by simpa using h e he

/-- With a new entry. -/
def insertNew (S : SortedSet) (x : ZSetEntry) (hx : x.NotNan)
    (hnew : ∀ e ∈ S.entries, e.member ≠ x.member) : SortedSet :=
  have hins : SortedInsert ord x S.entries (insertSorted x S.entries) :=
    sortedInsert_insertSorted S.sorted fun e he h => hnew e he (ord_eq_iff.1 h).2
  { entries := insertSorted x S.entries
    sorted := S.sorted.of_sortedInsert hx hins
    distinct := by
      obtain ⟨l, r, hlr, hnew', -, -⟩ := hins
      have hdist := S.distinct
      rw [hlr] at hdist hnew
      rw [hnew']
      simp only [List.map_append, List.map_cons] at hdist ⊢
      rw [List.nodup_middle, List.nodup_cons]
      refine ⟨?_, hdist⟩
      intro hmem
      rw [← List.map_append] at hmem
      obtain ⟨e, he, heq⟩ := List.mem_map.1 hmem
      exact hnew e he heq }

/-- With the member's score set. A NaN score is not stored. -/
def upsert (S : SortedSet) (x : ZSetEntry) : SortedSet :=
  if hx : x.NotNan then (S.erase x.member).insertNew x hx fun _ he => (mem_erase.1 he).2 else S

theorem entries_upsert (hx : x.NotNan) :
    (S.upsert x).entries = insertSorted x (S.erase x.member).entries := by
  rw [upsert, dif_pos hx]
  rfl

theorem mem_upsert (hx : x.NotNan) :
    e ∈ (S.upsert x).entries ↔ e = x ∨ e ∈ S.entries ∧ e.member ≠ x.member := by
  have hins := sortedInsert_insertSorted (x := x) (S.erase x.member).sorted
    fun e he h => (mem_erase.1 he).2 (ord_eq_iff.1 h).2
  rw [entries_upsert hx, hins.mem_iff, mem_erase]

/-- Without the first entry. -/
def tail (S : SortedSet) : SortedSet where
  entries := S.entries.tail
  sorted := S.sorted.sublist (List.tail_sublist _)
  distinct := S.distinct.sublist ((List.tail_sublist _).map _)

/-- Without the last entry. -/
def dropLast (S : SortedSet) : SortedSet where
  entries := S.entries.dropLast
  sorted := S.sorted.sublist (List.dropLast_sublist _)
  distinct := S.distinct.sublist ((List.dropLast_sublist _).map _)

/-! ### Scores and sizes after an update -/

theorem score?_erase (m' : CompactString) : (S.erase m).score? m' = update S.score? m none m' := by
  apply Option.ext
  intro s
  rw [score?_eq_some, mem_erase, update_apply, ← score?_eq_some]
  by_cases hm : m' = m <;> simp [hm]

theorem score?_upsert (hx : x.NotNan) (m' : CompactString) :
    (S.upsert x).score? m' = update S.score? x.member (some x.score) m' := by
  apply Option.ext
  intro s
  rw [score?_eq_some, mem_upsert hx, update_apply, ← score?_eq_some]
  obtain ⟨score, member⟩ := x
  by_cases hm : m' = member
  · subst hm
    simp [eq_comm]
  · simp [hm]

/-- The entry of a member, in its place. -/
theorem exists_split_of_score? (h : S.score? m = some s) :
    ∃ l r, S.entries = l ++ ⟨s, m⟩ :: r ∧ (S.erase m).entries = l ++ r := by
  obtain ⟨l, r, hlr⟩ := append_of_mem (score?_eq_some.1 h)
  exact ⟨l, r, hlr, entries_erase (x := ⟨s, m⟩) hlr⟩

theorem length_erase (h : S.score? m = some s) :
    (S.erase m).entries.length = S.entries.length - 1 := by
  obtain ⟨l, r, hlr, herase⟩ := exists_split_of_score? h
  simp [hlr, herase]

theorem length_upsert (hx : x.NotNan) :
    (S.upsert x).entries.length = (S.erase x.member).entries.length + 1 := by
  have hins := sortedInsert_insertSorted (x := x) (S.erase x.member).sorted
    fun e he h => (mem_erase.1 he).2 (ord_eq_iff.1 h).2
  rw [entries_upsert hx, hins.length_eq]

/-- Erasing a member before setting its score changes nothing. -/
theorem upsert_erase (hx : x.NotNan) : (S.erase x.member).upsert x = S.upsert x := by
  apply ext_mem
  intro e
  rw [mem_upsert hx, mem_upsert hx, mem_erase]
  tauto

theorem tail_eq_erase (h : S.entries = x :: es) : S.tail = S.erase x.member := by
  apply SortedSet.ext
  rw [entries_erase (l := []) h]
  simp [tail, h]

theorem dropLast_eq_erase (h : S.entries = es ++ [x]) : S.dropLast = S.erase x.member := by
  apply SortedSet.ext
  rw [entries_erase (r := []) h]
  simp [dropLast, h]

end SortedSet

end Senko
