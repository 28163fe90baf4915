import Mathlib.Data.Finset.Card

/-!
# Arenas

Heap cells addressed by ids. A cell is live or freed; an id is never handed out twice, so a stale
id stays detectable: reading, writing or freeing a cell that is not live is `none`. A program that
runs to `some` result in this model has touched no freed memory.
-/

namespace Senko

open List

/-- Cell `i` is `some x` while it is live and `none` after it was freed. -/
structure Arena (α : Type*) where
  cells : List (Option α) := []
deriving Repr, DecidableEq

namespace Arena

variable {α : Type*} (a : Arena α)

def size : Nat := a.cells.length

/-- Read through an id. -/
def get (p : Nat) : Option α := a.cells[p]?.join

/-- Allocate a live cell: the arena and the new cell's id. -/
def alloc (x : α) : Arena α × Nat := (⟨a.cells ++ [some x]⟩, a.size)

/-- Write through an id. -/
def update (p : Nat) (f : α → α) : Option (Arena α) :=
  (a.get p).map fun x => ⟨a.cells.set p (some (f x))⟩

/-- Release a cell. -/
def free (p : Nat) : Option (Arena α) :=
  (a.get p).map fun _ => ⟨a.cells.set p none⟩

variable {a}

variable {p : Nat} {x : α}

theorem lt_size_of_get (h : a.get p = some x) : p < a.size := by
  by_contra hge
  have hnone : a.cells[p]? = none := getElem?_eq_none (by simpa [size] using hge)
  simp [get, hnone] at h

/-! ## Reading after writing -/

theorem get_alloc_new (x : α) : (a.alloc x).1.get (a.alloc x).2 = some x := by
  simp [alloc, get, size]

theorem get_alloc_of_ne (x : α) (hp : p ≠ (a.alloc x).2) : (a.alloc x).1.get p = a.get p := by
  simp only [alloc, get] at hp ⊢
  rcases Nat.lt_or_gt_of_ne hp with hlt | hgt
  · rw [getElem?_append_left hlt]
  · have hout : a.cells.length + 1 ≤ p := hgt
    rw [getElem?_eq_none (by simpa using hout), getElem?_eq_none (by omega)]

theorem get_set (p q : Nat) (c : Option α) (hp : p < a.size) :
    (⟨a.cells.set p c⟩ : Arena α).get q = if q = p then c else a.get q := by
  simp only [get, size] at hp ⊢
  rw [getElem?_set]
  by_cases hq : q = p
  · subst hq
    simp [hp]
  · rw [if_neg (Ne.symm hq), if_neg hq]

/-- A write through a live id succeeds and changes that cell only. -/
theorem update_eq_some (f : α → α) (hp : a.get p = some x) :
    ∃ a', a.update p f = some a' ∧ a'.size = a.size ∧
      ∀ q, a'.get q = if q = p then some (f x) else a.get q := by
  refine ⟨⟨a.cells.set p (some (f x))⟩, by simp [update, hp], by simp [size], ?_⟩
  intro q
  exact get_set p q _ (lt_size_of_get hp)

/-- Releasing a live cell succeeds and makes that cell unreadable. -/
theorem free_eq_some (hp : a.get p = some x) : ∃ a', a.free p = some a' ∧ a'.size = a.size ∧
      ∀ q, a'.get q = if q = p then none else a.get q := by
  refine ⟨⟨a.cells.set p none⟩, by simp [free, hp], by simp [size], ?_⟩
  intro q
  exact get_set p q _ (lt_size_of_get hp)

/-- Distinct live ids are no more than the arena's cells: a walk over them needs that much fuel. -/
theorem length_le_size {ids : List Nat} (hnodup : ids.Nodup)
    (hlive : ∀ p ∈ ids, ∃ x, a.get p = some x) : ids.length ≤ a.size := by
  have hsub : ids.toFinset ⊆ Finset.range a.size := by
    intro p hp
    obtain ⟨x, hx⟩ := hlive p (mem_toFinset.1 hp)
    exact Finset.mem_range.2 (lt_size_of_get hx)
  have hcard := Finset.card_le_card hsub
  rwa [toFinset_card_of_nodup hnodup, Finset.card_range] at hcard

end Arena

end Senko
