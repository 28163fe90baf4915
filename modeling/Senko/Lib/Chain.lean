import Mathlib.Data.List.Basic
import Mathlib.Data.List.Induction

/-!
# Doubly linked chains

`Chain V get a cells b` says that the ids of `cells`, read through `get`, form a doubly linked
list segment: the first node's back link is `a`, the last node's forward link is `b`, neighbours
point at each other, and each node holds the value the list gives it. The heap is any partial
function `get`, and a `LinkView` says which fields of a node are its links and what it holds, so
one development serves every node type.

Segments compose (`Chain.append_iff`). A change of the heap is transported with the frame rule:
cells outside the changed ids keep their segment (`Chain.congr`). A segment that goes to the end has
no cycle (`Chain.nodup`), so a node may be rewritten, or one spliced in, without a look at the
others (`Chain.set_holds`, `Chain.insert_after`).
-/

namespace Senko

open List

/-- What is read from a live cell. -/
theorem some_bind {α β : Type} (a : α) (f : α → Option β) : (some a >>= f) = f a := rfl

/-- A walk with fuel for more than `n` steps takes one, and has fuel for `n` left. -/
theorem exists_fuel {n fuel : Nat} (h : n + 1 ≤ fuel) : ∃ k, fuel = k + 1 ∧ n ≤ k :=
  ⟨fuel - 1, by omega, by omega⟩

/-- How to read a node `N` as a list cell that holds an `α`. -/
structure LinkView (N α : Type*) where
  prev : N → Option Nat
  next : N → Option Nat
  holds : N → α → Prop

section Chain

variable {N α : Type*}

/-- The id a segment starts with, or `b` if it is empty. -/
def firstId (cells : List (Nat × α)) (b : Option Nat) : Option Nat :=
  match cells with
  | [] => b
  | (p, _) :: _ => some p

/-- The id a segment ends with, or `a` if it is empty. -/
def lastId (a : Option Nat) (cells : List (Nat × α)) : Option Nat :=
  match cells with
  | [] => a
  | (p, _) :: cells => lastId (some p) cells

@[simp] theorem firstId_nil (b : Option Nat) : firstId ([] : List (Nat × α)) b = b := rfl

@[simp] theorem firstId_cons (c : Nat × α) (cells : List (Nat × α)) (b : Option Nat) :
    firstId (c :: cells) b = some c.1 := rfl

@[simp] theorem lastId_nil (a : Option Nat) : lastId a ([] : List (Nat × α)) = a := rfl

@[simp] theorem lastId_cons (a : Option Nat) (c : Nat × α) (cells : List (Nat × α)) :
    lastId a (c :: cells) = lastId (some c.1) cells := rfl

@[simp] theorem firstId_append (xs ys : List (Nat × α)) (b : Option Nat) :
    firstId (xs ++ ys) b = firstId xs (firstId ys b) := by
  cases xs <;> rfl

@[simp] theorem lastId_append (a : Option Nat) (xs ys : List (Nat × α)) :
    lastId a (xs ++ ys) = lastId (lastId a xs) ys := by
  induction xs generalizing a with
  | nil => rfl
  | cons c xs ih => exact ih (some c.1)

variable {xs ys cells : List (Nat × α)} {p : Nat} {v : α}

/-- The heap `get` holds the linked segment `cells` between `a` and `b`. -/
def Chain (V : LinkView N α) (get : Nat → Option N) :
    Option Nat → List (Nat × α) → Option Nat → Prop
  | _, [], _ => True
  | a, (p, v) :: cells, b =>
    (∃ n, get p = some n ∧ V.holds n v ∧ V.prev n = a ∧ V.next n = firstId cells b) ∧
      Chain V get (some p) cells b

variable {V : LinkView N α} {get get' : Nat → Option N} {a a' b : Option Nat}

@[simp] theorem Chain.nil : Chain V get a [] b := trivial

theorem chain_cons : Chain V get a ((p, v) :: cells) b ↔
      (∃ n, get p = some n ∧ V.holds n v ∧ V.prev n = a ∧ V.next n = firstId cells b) ∧
        Chain V get (some p) cells b := Iff.rfl

/-- **Segments compose.** -/
theorem Chain.append_iff : Chain V get a (xs ++ ys) b ↔
      Chain V get a xs (firstId ys b) ∧ Chain V get (lastId a xs) ys b := by
  induction xs generalizing a with
  | nil => simp
  | cons c xs ih =>
    rw [cons_append, chain_cons, chain_cons, ih, firstId_append, lastId_cons, and_assoc]

/-- Every id of a segment is live. -/
theorem Chain.get_of_mem (h : Chain V get a cells b) {c : Nat × α}
    (hc : c ∈ cells) : ∃ n, get c.1 = some n ∧ V.holds n c.2 := by
  induction cells generalizing a with
  | nil => simp at hc
  | cons d cells ih =>
    obtain ⟨⟨n, hn, hv, -, -⟩, hrest⟩ := h
    rcases mem_cons.1 hc with rfl | hc
    · exact ⟨n, hn, hv⟩
    · exact ih hrest hc

/-- **Frame rule.** A heap that agrees on the segment's ids holds the segment. -/
theorem Chain.congr (h : Chain V get a cells b)
    (hsame : ∀ p ∈ cells.map Prod.fst, get' p = get p) : Chain V get' a cells b := by
  induction cells generalizing a with
  | nil => trivial
  | cons c cells ih =>
    obtain ⟨p, v⟩ := c
    obtain ⟨⟨n, hn, hcell⟩, hrest⟩ := h
    refine ⟨⟨n, ?_, hcell⟩, ih hrest fun q hq => hsame q (by simp [hq])⟩
    rw [hsame p (by simp), hn]

/-- A segment is one for every view with the same links that holds as much. -/
theorem Chain.mono {W : LinkView N α} (h : Chain V get a cells b) (hprev : W.prev = V.prev)
    (hnext : W.next = V.next) (hholds : ∀ n v, V.holds n v → W.holds n v) :
    Chain W get a cells b := by
  induction cells generalizing a with
  | nil => trivial
  | cons c cells ih =>
    obtain ⟨⟨n, hn, hv, hp, hnx⟩, hrest⟩ := h
    exact ⟨⟨n, hn, hholds n _ hv, hprev ▸ hp, hnext ▸ hnx⟩, ih hrest⟩

theorem Chain.live (h : Chain V get a cells b) : ∀ q ∈ cells.map Prod.fst, ∃ n, get q = some n := by
  intro q hq
  obtain ⟨c, hc, rfl⟩ := mem_map.1 hq
  obtain ⟨n, hn, -⟩ := h.get_of_mem hc
  exact ⟨n, hn⟩

/-- The heap says how long a segment is that starts at a node and goes to the end. -/
theorem Chain.length_eq {cells' : List (Nat × α)} (h : Chain V get a cells none)
    (h' : Chain V get a' cells' none) (hfirst : firstId cells none = firstId cells' none) :
    cells.length = cells'.length := by
  induction cells generalizing cells' a a' with
  | nil =>
    cases cells' with
    | nil => rfl
    | cons c cells' => cases hfirst
  | cons c cells ih =>
    rcases cells' with _ | ⟨c', cells'⟩
    · cases hfirst
    obtain ⟨⟨n, hn, -, -, hnext⟩, hrest⟩ := h
    obtain ⟨⟨n', hn', -, -, hnext'⟩, hrest'⟩ := h'
    obtain rfl : n = n' := by
      rw [Option.some.inj hfirst, hn'] at hn
      exact (Option.some.inj hn).symm
    rw [length_cons, length_cons, ih hrest hrest' (hnext.symm.trans hnext')]

/-- **A segment that goes to the end has no cycle.** -/
theorem Chain.nodup (h : Chain V get a cells none) : (cells.map Prod.fst).Nodup := by
  induction cells generalizing a with
  | nil => exact nodup_nil
  | cons c cells ih =>
    refine nodup_cons.2 ⟨fun hmem => ?_, ih h.2⟩
    -- from its second occurrence on the node would start a shorter segment
    obtain ⟨c', hc', heq⟩ := mem_map.1 hmem
    obtain ⟨xs, ys, rfl⟩ := append_of_mem hc'
    have hlen := h.length_eq (Chain.append_iff.1 h.2).2 (by rw [firstId_cons, firstId_cons, heq])
    simp only [length_cons, length_append] at hlen
    omega

/-- The parts of a segment that goes to the end are apart. -/
theorem Chain.apart (h : Chain V get a (xs ++ (p, v) :: ys) none) :
    p ∉ xs.map Prod.fst ∧ p ∉ ys.map Prod.fst ∧ ∀ q ∈ xs.map Prod.fst, q ∉ ys.map Prod.fst := by
  have hnodup := h.nodup
  rw [map_append, map_cons, nodup_append, nodup_cons] at hnodup
  obtain ⟨-, ⟨hys, -⟩, hdisj⟩ := hnodup
  exact ⟨fun hp => hdisj p hp p mem_cons_self rfl, hys,
    fun q hx hy => hdisj q hx q (mem_cons_of_mem _ hy) rfl⟩

/-- The value of one node may be rewritten in place. -/
theorem Chain.set_holds {v' : α} (h : Chain V get a (xs ++ (p, v) :: ys) none)
    (hnode : ∀ n, get p = some n → V.holds n v →
      ∃ n', get' p = some n' ∧ V.holds n' v' ∧ V.prev n' = V.prev n ∧ V.next n' = V.next n)
    (hsame : ∀ q, q ≠ p → get' q = get q) : Chain V get' a (xs ++ (p, v') :: ys) none := by
  obtain ⟨hpx, hpy, -⟩ := h.apart
  rw [Chain.append_iff, chain_cons] at h ⊢
  obtain ⟨hxs, ⟨n, hn, hv, hprev, hnext⟩, hys⟩ := h
  obtain ⟨n', hn', hv', hprev', hnext'⟩ := hnode n hn hv
  exact ⟨hxs.congr fun q hq => hsame q (ne_of_mem_of_not_mem hq hpx),
    ⟨n', hn', hv', hprev'.trans hprev, hnext'.trans hnext⟩,
    hys.congr fun q hq => hsame q (ne_of_mem_of_not_mem hq hpy)⟩

/-- **Insertion.** A new node is spliced in behind `p`: `p` may get a new value and now points at
the new node, and the node that followed `p` points back at the new node. -/
theorem Chain.insert_after {r : Nat} {v₁ v₂ : α} (h : Chain V get a (xs ++ (p, v) :: ys) none)
    (hr : get r = none)
    (hnode : ∀ n, get p = some n → V.holds n v →
      (∃ n', get' p = some n' ∧ V.holds n' v₁ ∧ V.prev n' = V.prev n ∧ V.next n' = some r) ∧
        ∃ m, get' r = some m ∧ V.holds m v₂ ∧ V.prev m = some p ∧ V.next m = V.next n)
    (hfirst : ∀ q w n, firstId ys none = some q → get q = some n → V.holds n w →
      ∃ n', get' q = some n' ∧ V.holds n' w ∧ V.prev n' = some r ∧ V.next n' = V.next n)
    (hsame : ∀ q, q ≠ p → q ≠ r → firstId ys none ≠ some q → get' q = get q) :
    Chain V get' a (xs ++ (p, v₁) :: (r, v₂) :: ys) none := by
  have hfresh : ∀ q n, get q = some n → q ≠ r := by
    rintro q n hn rfl
    rw [hr] at hn
    cases hn
  obtain ⟨hpx, hpy, hxy⟩ := h.apart
  rw [Chain.append_iff, chain_cons] at h
  obtain ⟨hxs, ⟨n, hn, hv, hprev, hnext⟩, hys⟩ := h
  obtain ⟨⟨n', hn', hv', hprev', hnext'⟩, m, hm, hw, hmprev, hmnext⟩ := hnode n hn hv
  rw [Chain.append_iff, chain_cons, chain_cons]
  refine ⟨hxs.congr fun q hq => ?_, ⟨n', hn', hv', hprev'.trans hprev, hnext'⟩,
    ⟨m, hm, hw, hmprev, hmnext.trans hnext⟩, ?_⟩
  · obtain ⟨n, hn⟩ := hxs.live q hq
    refine hsame q (ne_of_mem_of_not_mem hq hpx) (hfresh q n hn) fun hy => hxy q hq ?_
    cases ys <;> simp_all
  · rcases ys with _ | ⟨y, ys⟩
    · trivial
    have hynodup := nodup_cons.1 hys.nodup
    obtain ⟨⟨n, hn, hv, -, hnext⟩, hrest⟩ := hys
    obtain ⟨n', hn', hv', hprev', hnext'⟩ := hfirst _ _ n rfl hn hv
    refine ⟨⟨n', hn', hv', hprev', hnext'.trans hnext⟩, hrest.congr fun q hq => ?_⟩
    obtain ⟨m, hm⟩ := hrest.live q hq
    refine hsame q (fun heq => hpy (by simp [← heq, hq])) (hfresh q m hm) fun heq => ?_
    exact hynodup.1 (Option.some.inj heq ▸ hq)

end Chain

end Senko
