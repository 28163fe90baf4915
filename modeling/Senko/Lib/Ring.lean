import Mathlib.Data.List.Basic
import Mathlib.Data.Nat.ModEq
import Mathlib.Data.Vector.Defs

/-!
# Logs kept in a ring

A ring of `n` cells keeps the end of a log that grows without bound: position `i` of the log is in
cell `i % n`. A ring *mirrors* a log from a position on if every later position of the log is still
in its cell. Appending keeps that as long as not more than `n` positions are asked for, since two
positions less than `n` apart are in different cells.
-/

namespace Senko.Ring

open List hiding Vector

variable {α : Type*} {n : Nat} [NeZero n]

/-- The cell of a position. -/
def cell (n : Nat) [NeZero n] (i : Nat) : Fin n := ⟨i % n, Nat.mod_lt i (Nat.pos_of_neZero n)⟩

def get (ring : Vector α n) (i : Nat) : α := ring.get (cell n i)

def put (ring : Vector α n) (i : Nat) (a : α) : Vector α n :=
  ring.set (cell n i).val a (cell n i).isLt

/-- Writing a stretch of the log. -/
def write (ring : Vector α n) (i : Nat) : List α → Vector α n
  | [] => ring
  | a :: rest => write (put ring i a) (i + 1) rest

/-- Reading a stretch of the log. -/
def read (ring : Vector α n) (i len : Nat) : List α :=
  (List.range len).map fun k => get ring (i + k)

/-- The ring has the log from position `low` on. -/
def Mirrors (ring : Vector α n) (log : List α) (low : Nat) : Prop :=
  log.length ≤ low + n ∧ ∀ i a, low ≤ i → log[i]? = some a → get ring i = a

theorem get_put (ring : Vector α n) (i j : Nat) (a : α) :
    get (put ring i a) j = if cell n i = cell n j then a else get ring j := by
  show (ring.set (cell n i).val a (cell n i).isLt)[(cell n j).val] = _
  rw [Vector.getElem_set]
  by_cases h : cell n i = cell n j
  · rw [if_pos (congrArg Fin.val h), if_pos h]
  · rw [if_neg (fun hval => h (Fin.ext hval)), if_neg h]
    rfl

/-- Two positions less than a turn apart are in different cells. -/
theorem cell_ne {i j : Nat} (hlt : i < j) (hturn : j < i + n) : cell n j ≠ cell n i := by
  intro h
  have hmod : j % n = i % n := congrArg Fin.val h
  have hdvd : n ∣ j - i := (Nat.modEq_iff_dvd' (le_of_lt hlt)).1 hmod.symm
  have hle : n ≤ j - i := Nat.le_of_dvd (by omega) hdvd
  omega

theorem write_append (ring : Vector α n) (i : Nat) (front back : List α) :
    write ring i (front ++ back) = write (write ring i front) (i + front.length) back := by
  induction front generalizing ring i with
  | nil => rfl
  | cons a front ih =>
    rw [cons_append, write, write, ih, length_cons, Nat.add_right_comm, Nat.add_assoc]

variable {ring : Vector α n} {log : List α} {low : Nat}

/-- Less may be asked for. -/
theorem Mirrors.mono (h : Mirrors ring log low) {low' : Nat} (hle : low ≤ low') :
    Mirrors ring log low' := by
  have hlen := h.1
  exact ⟨by omega, fun i a hi hget => h.2 i a (le_trans hle hi) hget⟩

theorem Mirrors.put (h : Mirrors ring log low) (hroom : log.length < low + n) (a : α) :
    Mirrors (put ring log.length a) (log ++ [a]) low := by
  constructor
  · rw [length_append, length_singleton]
    omega
  · intro i b hi hget
    rw [get_put]
    by_cases hlast : i = log.length
    · -- the position that was just written
      subst hlast
      rw [if_pos rfl]
      simpa using hget
    -- an older position has a cell of its own
    have hlt : i < (log ++ [a]).length := (List.getElem?_eq_some_iff.1 hget).1
    rw [length_append, length_singleton] at hlt
    rw [if_neg (cell_ne (by omega) (by omega))]
    rw [getElem?_append_left (by omega)] at hget
    exact h.2 i b hi hget

/-- The cell of a position that is no longer asked for is free. -/
theorem Mirrors.clear (h : Mirrors ring log low) (a : α) :
    Mirrors (Ring.put ring low a) log (low + 1) := by
  have hlen := h.1
  refine ⟨by omega, fun i b hi hget => ?_⟩
  have hlt : i < log.length := (List.getElem?_eq_some_iff.1 hget).1
  rw [get_put, if_neg (cell_ne hi (by omega)).symm]
  exact h.2 i b (by omega) hget

/-- **Appending to the log** keeps what is still asked for. -/
theorem Mirrors.write (h : Mirrors ring log low) (added : List α)
    (hroom : (log ++ added).length ≤ low + n) :
    Mirrors (write ring log.length added) (log ++ added) low := by
  induction added generalizing ring log with
  | nil => simpa [Ring.write] using h
  | cons a rest ih =>
    rw [length_append, length_cons] at hroom
    have hput := h.put (by omega) a
    have hlen : (log ++ [a]).length = log.length + 1 := by simp
    have hsplit : log ++ a :: rest = log ++ [a] ++ rest := by simp
    rw [Ring.write, hsplit, ← hlen]
    apply ih hput
    rw [length_append]
    omega

/-- **Reading gives the log back.** -/
theorem Mirrors.read (h : Mirrors ring log low) {i len : Nat} (hlow : low ≤ i)
    (hlen : i + len ≤ log.length) : read ring i len = (log.drop i).take len := by
  apply ext_getElem?
  intro k
  rw [Ring.read, getElem?_map, getElem?_take]
  by_cases hk : k < len
  · have hin : i + k < log.length := by omega
    rw [getElem?_range hk, if_pos hk, getElem?_drop, getElem?_eq_getElem hin]
    show some (get ring (i + k)) = _
    rw [h.2 (i + k) _ (by omega) (getElem?_eq_getElem hin)]
  · rw [if_neg hk, getElem?_eq_none (by simpa using not_lt.1 hk)]
    rfl

end Senko.Ring
