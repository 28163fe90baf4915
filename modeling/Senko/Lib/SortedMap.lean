import Mathlib.Data.List.Sort
import Senko.Lib.Assoc

/-!
# Ordered maps as lists

The entries of an ordered map, in the order of their keys, and what inserting and erasing do to
that list.
-/

namespace Senko

open List

open Std (TreeMap)

variable {κ β : Type} [LinearOrder κ] {t : TreeMap κ β} {k : κ} {v v₀ : β} {l r : List (κ × β)}

/-- The keys are strictly increasing. -/
theorem pairwise_toList (t : TreeMap κ β) : t.toList.Pairwise fun a b => a.1 < b.1 :=
  TreeMap.ordered_keys_toList.imp compare_lt_iff_lt.1

/-- Around an entry, the keys are smaller before it and greater after it. -/
theorem keys_of_split (h : t.toList = l ++ (k, v₀) :: r) :
    (l ++ r).Pairwise (fun a b => a.1 < b.1) ∧ (∀ e ∈ l, e.1 < k) ∧ ∀ e ∈ r, k < e.1 := by
  have hsorted := pairwise_toList t
  rw [h, pairwise_append] at hsorted
  obtain ⟨hl, hr, hlr⟩ := hsorted
  obtain ⟨hk, hr⟩ := pairwise_cons.1 hr
  refine ⟨pairwise_append.2 ⟨hl, hr, fun a ha b hb => ?_⟩, fun e he => ?_, hk⟩
  · exact hlr a ha b (mem_cons_of_mem _ hb)
  · exact hlr e he _ mem_cons_self

theorem notMem_of_split (h : t.toList = l ++ (k, v₀) :: r) (v : β) : (k, v) ∉ l ∧ (k, v) ∉ r := by
  obtain ⟨-, hl, hr⟩ := keys_of_split h
  exact ⟨fun hmem => lt_irrefl _ (hl _ hmem), fun hmem => lt_irrefl _ (hr _ hmem)⟩

variable [Std.LawfulEqOrd κ]

/-- The entries in the order of their keys are the list. -/
theorem toList_eq_of_mem_iff (hsorted : l.Pairwise fun a b => a.1 < b.1)
    (hmem : ∀ k v, t[k]? = some v ↔ (k, v) ∈ l) : t.toList = l := by
  have : Std.Irrefl fun a b : κ × β => a.1 < b.1 := ⟨fun a => lt_irrefl a.1⟩
  have : Std.Antisymm fun a b : κ × β => a.1 < b.1 := ⟨fun _ _ h h' => absurd h' h.asymm⟩
  refine (pairwise_toList t).eq_of_mem_iff hsorted fun e => ?_
  rw [← hmem]
  exact TreeMap.mem_toList_iff_getElem?_eq_some

theorem mem_toList_iff {e : κ × β} : e ∈ t.toList ↔ t[e.1]? = some e.2 :=
  TreeMap.mem_toList_iff_getElem?_eq_some

theorem getElem?_of_split (h : t.toList = l ++ (k, v₀) :: r) {a : κ} {b : β} (hka : k ≠ a) :
    t[a]? = some b ↔ (a, b) ∈ l ∨ (a, b) ∈ r := by
  rw [← mem_toList_iff (e := (a, b)), h]
  simp [Ne.symm hka]

/-- A new value for a key stands where the old one stood. -/
theorem toList_insert_of_split (h : t.toList = l ++ (k, v₀) :: r) (v : β) :
    (t.insert k v).toList = l ++ (k, v) :: r := by
  obtain ⟨hrest, hl, hr⟩ := keys_of_split h
  refine toList_eq_of_mem_iff ?_ fun a b => ?_
  · obtain ⟨hl', hr', hlr⟩ := pairwise_append.1 hrest
    exact pairwise_append.2 ⟨hl', pairwise_cons.2 ⟨hr, hr'⟩, fun e he =>
      forall_mem_cons.2 ⟨hl e he, hlr e he⟩⟩
  · rw [getElem?_insert_eq]
    by_cases hka : k = a
    · subst hka
      simp [notMem_of_split h b, eq_comm]
    · rw [if_neg hka, getElem?_of_split h hka]
      simp [Ne.symm hka]

/-- Erasing a key takes its entry out of the list. -/
theorem toList_erase_of_split (h : t.toList = l ++ (k, v₀) :: r) : (t.erase k).toList = l ++ r := by
  refine toList_eq_of_mem_iff (keys_of_split h).1 fun a b => ?_
  rw [getElem?_erase_eq]
  by_cases hka : k = a
  · subst hka
    simp [notMem_of_split h b]
  · rw [if_neg hka, getElem?_of_split h hka, mem_append]

/-- A new key goes between the smaller and the greater ones. -/
theorem exists_toList_insert_of_new (h : ∀ e ∈ t.toList, e.1 ≠ k) (v : β) :
    ∃ l r, t.toList = l ++ r ∧ (t.insert k v).toList = l ++ (k, v) :: r ∧
      (∀ e ∈ l, e.1 < k) ∧ ∀ e ∈ r, k < e.1 := by
  have hsorted := pairwise_toList t
  have hbelow : ∀ e ∈ t.toList.filter (·.1 < k), e.1 < k := fun e he => by
    simpa using (mem_filter.1 he).2
  have habove : ∀ e ∈ t.toList.filter (k < ·.1), k < e.1 := fun e he => by
    simpa using (mem_filter.1 he).2
  have hlr : (t.toList.filter (·.1 < k) ++ t.toList.filter (k < ·.1)).Pairwise
      fun a b => a.1 < b.1 :=
    pairwise_append.2 ⟨hsorted.filter _, hsorted.filter _,
      fun a ha b hb => (hbelow a ha).trans (habove b hb)⟩
  have hmem : ∀ e, e ∈ t.toList.filter (·.1 < k) ++ t.toList.filter (k < ·.1) ↔ e ∈ t.toList := by
    intro e
    have hne := h e
    simp only [mem_append, mem_filter, decide_eq_true_eq, ← and_or_left]
    exact and_iff_left_of_imp fun he => lt_or_gt_of_ne (hne he)
  have hsplit : t.toList = t.toList.filter (·.1 < k) ++ t.toList.filter (k < ·.1) :=
    toList_eq_of_mem_iff hlr fun a b => by rw [hmem, mem_toList_iff]
  refine ⟨_, _, hsplit, toList_eq_of_mem_iff ?_ fun a b => ?_, hbelow, habove⟩
  · obtain ⟨hl, hr, hcross⟩ := pairwise_append.1 hlr
    exact pairwise_append.2 ⟨hl, pairwise_cons.2 ⟨habove, hr⟩, fun e he =>
      forall_mem_cons.2 ⟨hbelow e he, hcross e he⟩⟩
  · have hkey := hmem (a, b)
    rw [mem_append, mem_toList_iff] at hkey
    rw [getElem?_insert_eq, mem_append, mem_cons, or_left_comm, hkey]
    by_cases hka : k = a
    · subst hka
      have hnone : t[k]? ≠ some b := fun hsome => h (k, b) (mem_toList_iff.2 hsome) rfl
      simp [hnone, eq_comm]
    · simp [hka, Ne.symm hka]

/-- A key above all others goes to the end. -/
theorem toList_insert_of_forall_lt (h : ∀ e ∈ t.toList, e.1 < k) (v : β) :
    (t.insert k v).toList = t.toList ++ [(k, v)] := by
  obtain ⟨l, r, hsplit, hinsert, -, habove⟩ :=
    exists_toList_insert_of_new (fun e he => (h e he).ne) v
  have hnil : r = [] := by
    apply eq_nil_iff_forall_not_mem.2
    intro e he
    exact (habove e he).asymm (h e (by rw [hsplit]; exact mem_append_right _ he))
  rw [hinsert, hsplit, hnil, append_nil]

end Senko
