import Mathlib.Algebra.GroupWithZero.Nat
import Mathlib.Data.List.AList

/-!
# Totals of association lists and removal from maps

The total of a measure over the values of an association list, and what inserting and erasing do to
it; removing a list of keys from a map.
-/

namespace Senko

open List

open Std (TreeMap)

section Total

variable {κ β : Type} [DecidableEq κ] (f : β → Nat)

/-- The sum of a measure over the values. -/
def total (s : AList fun _ : κ => β) : Nat := (s.entries.map fun e => f e.2).sum

variable {f} {s : AList fun _ : κ => β} {a : κ} {b : β}

/-- The entry of a key and the others. -/
theorem total_of_lookup (h : s.lookup a = some b) : total f s = f b + total f (s.erase a) := by
  have hmem : a ∈ s.entries.keys := AList.lookup_isSome.1 (by rw [h]; rfl)
  obtain ⟨b', l₁, l₂, -, hentries, herase⟩ := exists_of_kerase hmem
  have hb : b' = b := by
    have hfound : ⟨a, b'⟩ ∈ s.entries := by rw [hentries]; simp
    have := (AList.mem_lookup_iff.2 hfound)
    rw [Option.mem_def, h, Option.some.injEq] at this
    exact this.symm
  show (s.entries.map _).sum = _ + ((s.entries.kerase a).map _).sum
  rw [herase, hentries, hb]
  simp only [map_append, map_cons, sum_append, sum_cons]
  omega

theorem total_insert (a : κ) (b : β) : total f (s.insert a b) = f b + total f (s.erase a) := by
  show ((s.insert a b).entries.map _).sum = _ + ((s.entries.kerase a).map _).sum
  rw [AList.entries_insert, map_cons, sum_cons]

/-- Apply a function to every value. -/
def mapValues (g : β → β) (s : AList fun _ : κ => β) : AList fun _ : κ => β where
  entries := s.entries.map fun e => ⟨e.1, g e.2⟩
  nodupKeys := by simpa [NodupKeys, keys, Function.comp_def] using s.nodupKeys

theorem erase_of_lookup_eq_none (h : s.lookup a = none) : s.erase a = s := by
  apply AList.ext
  exact kerase_of_notMem_keys (AList.lookup_eq_none.1 h)

end Total

section Lawful

variable {κ β : Type} [Ord κ] [Std.TransOrd κ] [Std.LawfulEqOrd κ] {t : TreeMap κ β} {k a : κ}
    {v : β}

theorem mem_erase_iff : a ∈ t.erase k ↔ k ≠ a ∧ a ∈ t := by
  rw [TreeMap.mem_erase, Ne, Std.LawfulEqCmp.compare_eq_iff_eq]

variable [DecidableEq κ]

theorem getElem?_insert_eq : (t.insert k v)[a]? = if k = a then some v else t[a]? := by
  simp only [TreeMap.getElem?_insert, Std.LawfulEqCmp.compare_eq_iff_eq]

theorem getElem?_erase_eq : (t.erase k)[a]? = if k = a then none else t[a]? := by
  simp only [TreeMap.getElem?_erase, Std.LawfulEqCmp.compare_eq_iff_eq]

end Lawful

section EraseAll

variable {κ β : Type} [Ord κ] [Std.TransOrd κ] [Std.LawfulEqOrd κ]

/-- Remove the keys of a list from a map. -/
def eraseAll (keys : List κ) (t : TreeMap κ β) : TreeMap κ β := keys.foldl (fun t k => t.erase k) t

theorem getElem?_eraseAll [DecidableEq κ] (keys : List κ) (t : TreeMap κ β) (k : κ) :
    (eraseAll keys t)[k]? = if k ∈ keys then none else t[k]? := by
  induction keys generalizing t with
  | nil => simp [eraseAll]
  | cons key keys ih =>
    show (eraseAll keys (t.erase key))[k]? = _
    rw [ih, getElem?_erase_eq]
    by_cases hk : key = k
    · simp [hk]
    · simp [hk, Ne.symm hk]

/-- Distinct keys of the map are removed one by one. -/
theorem size_eraseAll {keys : List κ} (hnodup : keys.Nodup) (t : TreeMap κ β)
    (hmem : ∀ k ∈ keys, k ∈ t) : (eraseAll keys t).size + keys.length = t.size := by
  induction keys generalizing t with
  | nil => rfl
  | cons key keys ih =>
    obtain ⟨hkey, hkeys⟩ := nodup_cons.1 hnodup
    have hrest := ih hkeys (t.erase key) fun k hk =>
      mem_erase_iff.2 ⟨fun h => hkey (h ▸ hk), hmem k (mem_cons_of_mem _ hk)⟩
    have hin : t.contains key = true := TreeMap.contains_iff_mem.2 (hmem key mem_cons_self)
    have hpos : t.size ≠ 0 := by
      have hempty := TreeMap.isEmpty_eq_false_of_contains hin
      rw [TreeMap.isEmpty_eq_size_eq_zero] at hempty
      simpa using hempty
    show (eraseAll keys (t.erase key)).size + (keys.length + 1) = t.size
    rw [TreeMap.size_erase, if_pos hin] at hrest
    omega

end EraseAll

end Senko
