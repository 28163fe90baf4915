import Mathlib.Data.List.Nodup

/-!
# Tables of records that carry their key

A hash map whose values hold their own key: a list of records with distinct keys. Inserting replaces
the record with the same key, and modifying keeps the keys. What they do is said by what is found
under each key afterwards.
-/

namespace Senko

open List

/-- Records with distinct keys. -/
structure KeyedTable {κ ν : Type} (key : ν → κ) where
  rows : List ν
  distinct : (rows.map key).Nodup

namespace KeyedTable

variable {κ ν : Type} [DecidableEq κ]

section Rows

variable (key : ν → κ) (k : κ) (f : ν → ν)

/-- Change the record if it is the one under a key. -/
def changeRow (row : ν) : ν := if key row = k then f row else row

theorem key_changeRow {key : ν → κ} {k : κ} {f : ν → ν} (hf : ∀ row, key row = k → key (f row) = k)
    (row : ν) : key (changeRow key k f row) = key row := by
  unfold changeRow
  split
  · rename_i hkey
    rw [hf row hkey, hkey]
  · rfl

end Rows

variable {key : ν → κ}

def get? (t : KeyedTable key) (k : κ) : Option ν := t.rows.find? fun row => key row = k

def modify (t : KeyedTable key) (k : κ) (f : ν → ν) (hf : ∀ row, key row = k → key (f row) = k) :
    KeyedTable key where
  rows := t.rows.map (changeRow key k f)
  distinct := by
    rw [List.map_map, show key ∘ changeRow key k f = key from funext (key_changeRow hf)]
    exact t.distinct

def insert (t : KeyedTable key) (row : ν) : KeyedTable key :=
  if h : key row ∈ t.rows.map key then t.modify (key row) (fun _ => row) fun _ _ => rfl
  else ⟨row :: t.rows, List.nodup_cons.2 ⟨h, t.distinct⟩⟩

variable {t : KeyedTable key} {k k' : κ} {row : ν}

theorem get?_eq_some : t.get? k = some row ↔ row ∈ t.rows ∧ key row = k := by
  constructor
  · intro h
    exact ⟨mem_of_find?_eq_some h, by simpa using find?_some h⟩
  · rintro ⟨hmem, rfl⟩
    cases hfind : t.get? (key row) with
    | none =>
      have hne := find?_eq_none.1 hfind row hmem
      simp at hne
    | some other =>
      -- two rows with one key are one row
      have hkey : key other = key row := by simpa using find?_some hfind
      rw [inj_on_of_nodup_map t.distinct (mem_of_find?_eq_some hfind) hmem hkey]

theorem mem_rows : row ∈ t.rows ↔ t.get? (key row) = some row := by
  rw [get?_eq_some, and_iff_left rfl]

theorem get?_eq_none : t.get? k = none ↔ k ∉ t.rows.map key := by
  simp [get?]

/-- What is found does not depend on the order of the rows. -/
theorem get?_congr {t' : KeyedTable key} (h : t.rows.Perm t'.rows) : t.get? k = t'.get? k := by
  ext row
  show t.get? k = some row ↔ t'.get? k = some row
  rw [get?_eq_some, get?_eq_some, h.mem_iff]

theorem get?_modify (f : ν → ν) (hf : ∀ row, key row = k → key (f row) = k) :
    (t.modify k f hf).get? k' = if k' = k then (t.get? k).map f else t.get? k' := by
  have hrows : (t.modify k f hf).get? k' = (t.get? k').map (changeRow key k f) := by
    show (t.rows.map _).find? _ = _
    rw [find?_map]
    congr 2
    funext row
    simp [key_changeRow hf]
  rw [hrows]
  split
  · rename_i heq
    subst heq
    cases hget : t.get? k' with
    | none => rfl
    | some row => simp [changeRow, (get?_eq_some.1 hget).2]
  · rename_i hne
    cases hget : t.get? k' with
    | none => rfl
    | some row => simp [changeRow, (get?_eq_some.1 hget).2, hne]

theorem get?_insert : (t.insert row).get? k = if k = key row then some row else t.get? k := by
  unfold insert
  split
  · rename_i hmem
    rw [get?_modify]
    have hget : t.get? (key row) ≠ none := fun h => get?_eq_none.1 h hmem
    obtain ⟨old, hold⟩ := Option.ne_none_iff_exists'.1 hget
    rw [hold]
    rfl
  · show (row :: t.rows).find? _ = _
    rw [find?_cons]
    by_cases hkey : key row = k
    · simp [hkey]
    · simp [hkey, Ne.symm hkey, get?]

end KeyedTable

end Senko
