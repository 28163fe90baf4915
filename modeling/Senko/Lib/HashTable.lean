import Mathlib.Data.List.ReduceOption
import Mathlib.Data.List.Perm.Basic
import Mathlib.Data.List.Nodup

/-!
# Hash tables

A hash table as its buckets. Where an item goes is the business of the hash function and of the
table's growth, so insertion is a parameter (`Placement`) of which only this is known: the items
afterwards are the items before and the new one, in some order.

Items are looked up by a key. As long as the keys are distinct, what a lookup finds depends on
which items the table has and not on where they are.
-/

namespace Senko

open List Option

/-! ## Items with distinct keys -/

section Keyed

variable {α κ : Type*} [DecidableEq κ] (key : α → κ) {l : List α} {k : κ} {a : α}

/-- Looking up a key finds the item that has it. -/
theorem find?_key_eq_some (h : (l.map key).Nodup) :
    (l.find? fun a => key a = k) = some a ↔ a ∈ l ∧ key a = k := by
  constructor
  · intro hfind
    exact ⟨mem_of_find?_eq_some hfind, by simpa using find?_some hfind⟩
  · rintro ⟨ha, rfl⟩
    have hsome : (l.find? fun a' => key a' = key a).isSome :=
      find?_isSome.2 ⟨a, ha, by simp⟩
    obtain ⟨b, hb⟩ := isSome_iff_exists.1 hsome
    have hkey : key b = key a := by simpa using find?_some hb
    rw [hb, inj_on_of_nodup_map h (mem_of_find?_eq_some hb) ha hkey]

theorem find?_key_eq_none : (l.find? fun a => key a = k) = none ↔ ∀ a ∈ l, key a ≠ k := by
  simp

/-- The items are the one that has a key, and the others. -/
theorem perm_cons_filter (h : (l.map key).Nodup) (ha : a ∈ l) :
    l.Perm (a :: l.filter fun b => key b ≠ key a) := by
  have hnodup : l.Nodup := h.of_map _
  refine (perm_ext_iff_of_nodup hnodup ?_).2 fun b => ?_
  · rw [nodup_cons]
    exact ⟨by simp, hnodup.filter _⟩
  · rw [mem_cons, mem_filter, decide_eq_true_eq]
    refine ⟨fun hb => ?_, fun hb => hb.elim (fun heq => heq ▸ ha) And.left⟩
    by_cases hkey : key b = key a
    · exact .inl (inj_on_of_nodup_map h hb ha hkey)
    · exact .inr ⟨hb, hkey⟩

end Keyed

/-! ## Tables -/

structure HashTable (α : Type*) where
  buckets : List (Option α)

namespace HashTable

variable {α κ : Type*} [DecidableEq κ] (key : α → κ)

/-- The items, in the order of their buckets. -/
def items (t : HashTable α) : List α := t.buckets.reduceOption

def len (t : HashTable α) : Nat := t.items.length

def numBuckets (t : HashTable α) : Nat := t.buckets.length

def getBucket (t : HashTable α) (i : Nat) : Option α := t.buckets[i]?.join

def find (t : HashTable α) (k : κ) : Option α := t.items.find? fun a => key a = k

/-- Apply a function to the item of a key. -/
def modify (t : HashTable α) (k : κ) (f : α → α) : HashTable α :=
  ⟨t.buckets.map (Option.map fun a => if key a = k then f a else a)⟩

/-- Empty the bucket of a key. -/
def remove (t : HashTable α) (k : κ) : HashTable α :=
  ⟨t.buckets.map (Option.filter fun a => key a ≠ k)⟩

/-- The bucket of a key. -/
def bucketOf (t : HashTable α) (k : κ) : Option Nat :=
  t.buckets.findIdx? fun b => b.any fun a => key a = k

/-- The first occupied bucket at or after a position, wrapping around. -/
def nextOccupied (t : HashTable α) (i : Nat) : Option Nat :=
  let occupied (j : Nat) : Bool := (t.getBucket j).isSome
  ((List.range t.numBuckets).find? fun j => i ≤ j && occupied j).or
    ((List.range t.numBuckets).find? occupied)

variable {key} {t : HashTable α} {k : κ} {a : α}

theorem items_modify (f : α → α) :
    (t.modify key k f).items = t.items.map fun a => if key a = k then f a else a :=
  reduceOption_map

theorem items_remove : (t.remove key k).items = t.items.filter fun a => key a ≠ k := by
  unfold remove items
  generalize t.buckets = bs
  induction bs with
  | nil => rfl
  | cons b bs ih =>
    cases b with
    | none => simpa using ih
    | some a => by_cases hk : key a = k <;> simpa [Option.filter, hk] using ih

theorem mem_items_remove : a ∈ (t.remove key k).items ↔ a ∈ t.items ∧ key a ≠ k := by
  rw [items_remove]
  simp

theorem mem_items_of_getBucket {i : Nat} (h : t.getBucket i = some a) : a ∈ t.items :=
  reduceOption_mem_iff.2 (mem_of_getElem? (join_eq_some_iff.1 h))

theorem lt_numBuckets_of_getBucket {i : Nat} (h : t.getBucket i = some a) : i < t.numBuckets := by
  obtain ⟨hi, -⟩ := List.getElem?_eq_some_iff.1 (join_eq_some_iff.1 h)
  exact hi

theorem getBucket_of_bucketOf {i : Nat} (h : t.bucketOf key k = some i) :
    ∃ a, t.getBucket i = some a ∧ key a = k := by
  obtain ⟨hi, hb, -⟩ := findIdx?_eq_some_iff_getElem.1 h
  obtain ⟨a, ha, hk⟩ := (Option.any_eq_true _ _).1 hb
  refine ⟨a, ?_, by simpa using hk⟩
  rw [getBucket, getElem?_eq_getElem hi, ha]
  rfl

/-- Going over the buckets goes over the items. -/
theorem filterMap_getBucket {n : Nat} (h : t.numBuckets ≤ n) :
    (List.range n).filterMap t.getBucket = t.items := by
  obtain ⟨buckets⟩ := t
  unfold getBucket items
  induction buckets generalizing n with
  | nil => simp
  | cons b buckets ih =>
    rcases n with _ | n
    · cases h
    have hrest := ih (Nat.le_of_succ_le_succ h)
    rw [range_succ_eq_map, filterMap_cons, filterMap_map]
    cases b with
    | none => exact hrest
    | some a => exact congrArg (a :: ·) hrest

/-- Every item has a bucket. -/
theorem isSome_bucketOf (h : a ∈ t.items) : (t.bucketOf key (key a)).isSome = true := by
  rw [bucketOf, findIdx?_isSome, List.any_eq_true]
  exact ⟨some a, reduceOption_mem_iff.1 h, by simp⟩

end HashTable

/-- **The table implementation**: how it makes an empty table and where it puts a new item. -/
structure Placement (α : Type*) where
  withCapacity : Nat → HashTable α
  items_withCapacity : ∀ n, (withCapacity n).items = []
  insertUnique : HashTable α → α → HashTable α
  insertUnique_perm : ∀ t a, (insertUnique t a).items.Perm (a :: t.items)

/-- Filling a free bucket adds the item. -/
theorem reduceOption_set_perm {α : Type*} {buckets : List (Option α)} {i : Nat} (a : α)
    (h : buckets[i]? = some none) :
    (buckets.set i (some a)).reduceOption.Perm (a :: buckets.reduceOption) := by
  obtain ⟨hi, hnone⟩ := List.getElem?_eq_some_iff.1 h
  have hsplit : buckets = buckets.take i ++ none :: buckets.drop (i + 1) := by
    rw [← hnone, getElem_cons_drop, take_append_drop]
  rw [set_eq_take_append_cons_drop, if_pos hi]
  nth_rewrite 3 [hsplit]
  rw [reduceOption_append, reduceOption_append, reduceOption_cons_of_some,
    reduceOption_cons_of_none]
  exact perm_middle

/-- Open addressing: an item goes to the first free bucket at or after its hash, wrapping around. -/
def Placement.probing {α : Type*} (hash : α → Nat) : Placement α where
  withCapacity n := ⟨List.replicate n none⟩
  items_withCapacity n := by simp [HashTable.items]
  insertUnique t a :=
    let probes := (List.range t.numBuckets).map fun j => (hash a + j) % t.numBuckets
    match probes.find? fun i => t.buckets[i]?.any Option.isNone with
    | some i => ⟨t.buckets.set i (some a)⟩
    | none => ⟨t.buckets ++ [some a]⟩
  insertUnique_perm t a := by
    dsimp only
    split
    · rename_i i hfind
      refine reduceOption_set_perm a ?_
      have hany : t.buckets[i]?.any Option.isNone = true :=
        List.find?_some (p := fun i => t.buckets[i]?.any Option.isNone) hfind
      obtain ⟨b, hb, hfree⟩ := (Option.any_eq_true _ _).1 hany
      rw [hb, Option.isNone_iff_eq_none.1 hfree]
    · simp [HashTable.items, List.reduceOption_append]

/-- A table that appends a bucket for every item. -/
def Placement.append (α : Type*) : Placement α where
  withCapacity n := ⟨List.replicate n none⟩
  items_withCapacity n := by simp [HashTable.items]
  insertUnique t a := ⟨t.buckets ++ [some a]⟩
  insertUnique_perm t a := by simp [HashTable.items, List.reduceOption_append]

end Senko
