import Mathlib.Data.List.Basic
import Mathlib.Data.List.TakeWhile
import Mathlib.Order.Lattice

/-!
# Vectors, partition points and separator lists

The positional operations of a growable vector, which fail where the index is out of bounds, with
one equation each for a vector written `l ++ x :: r` around the position (`vecInsert_append`,
`vecSet_append`, `vecRemove_append`). `partitionPoint` is the binary search of a slice that is
partitioned by a predicate.

Two notions carry the order reasoning of search trees:

* `SortedInsert f e old new`: `new` is `old` with `e` put where its key `f e` belongs. It is closed
  under adding smaller elements in front and larger ones behind, so it travels up a tree.
* `Separated ks ps`: the keys `ks` separate the runs `ps`. `Separated.route` is the one fact a
  descent needs, and `Separated.replace` the one fact an insertion needs: a run may be replaced by
  any separated group of runs that stays between the neighbouring keys.
-/

namespace Senko

open List

section Vec

variable {α : Type*}

/-- `Vec::insert`. -/
def vecInsert (l : List α) (i : Nat) (x : α) : Option (List α) :=
  if i ≤ l.length then some (l.take i ++ x :: l.drop i) else none

/-- `v[i] = x`. -/
def vecSet (l : List α) (i : Nat) (x : α) : Option (List α) :=
  if i < l.length then some (l.set i x) else none

/-- `Vec::remove`. -/
def vecRemove (l : List α) (i : Nat) : Option (α × List α) :=
  l[i]?.map fun x => (x, l.take i ++ l.drop (i + 1))

/-- `v.drain(i..)`: what stays and what is drained. -/
def vecSplitOff (l : List α) (i : Nat) : Option (List α × List α) :=
  if i ≤ l.length then some (l.take i, l.drop i) else none

variable {l r : List α} {x y : α} {i : Nat}

theorem vecInsert_append (h : i = l.length) : vecInsert (l ++ r) i x = some (l ++ x :: r) := by
  subst h
  simp [vecInsert]

theorem vecInsert_append_cons (h : i = l.length + 1) :
    vecInsert (l ++ y :: r) i x = some (l ++ y :: x :: r) := by
  rw [append_cons, vecInsert_append (by simpa using h), append_assoc, singleton_append]

theorem vecSet_append (h : i = l.length) : vecSet (l ++ y :: r) i x = some (l ++ x :: r) := by
  subst h
  simp [vecSet]

theorem vecRemove_append (h : i = l.length) : vecRemove (l ++ x :: r) i = some (x, l ++ r) := by
  subst h
  simp [vecRemove]

theorem vecSplitOff_append (h : i = l.length) : vecSplitOff (l ++ r) i = some (l, r) := by
  subst h
  simp [vecSplitOff]

/-- A list is cut at any position it has. -/
theorem exists_append_of_le_length (l : List α) (h : i ≤ l.length) :
    ∃ a b, l = a ++ b ∧ i = a.length :=
  ⟨l.take i, l.drop i, (take_append_drop i l).symm, by simp [h]⟩

/-- `partition_point`: how many leading elements satisfy `p`. -/
def partitionPoint (p : α → Bool) (l : List α) : Nat := (l.takeWhile p).length

/-- The partition point cuts the list where `p` first fails. -/
theorem partitionPoint_split (p : α → Bool) (l : List α) :
    ∃ a b, l = a ++ b ∧ partitionPoint p l = a.length ∧ (∀ x ∈ a, p x = true) ∧
      ∀ x ∈ b.head?, p x = false := by
  refine ⟨l.takeWhile p, l.dropWhile p, takeWhile_append_dropWhile.symm, rfl,
    fun x hx => mem_takeWhile_imp hx, fun x hx => ?_⟩
  have hhead := head?_dropWhile_not p l
  rw [Option.mem_def.1 hx] at hhead
  exact hhead

theorem partitionPoint_append {p : α → Bool} {l r : List α} (hl : ∀ x ∈ l, p x = true)
    (hr : ∀ x ∈ r.head?, p x = false) : partitionPoint p (l ++ r) = l.length := by
  unfold partitionPoint
  rw [takeWhile_append_of_pos hl]
  cases r with
  | nil => simp
  | cons y r => simp [hr y rfl]

theorem partitionPoint_map {β : Type*} (p : β → Bool) (f : α → β) (l : List α) :
    partitionPoint p (l.map f) = partitionPoint (fun x => p (f x)) l := by
  unfold partitionPoint
  rw [takeWhile_map, length_map]
  rfl

theorem partitionPoint_congr {p q : α → Bool} {l : List α} (h : ∀ x ∈ l, p x = q x) :
    partitionPoint p l = partitionPoint q l := by
  induction l with
  | nil => rfl
  | cons x l ih =>
    have htail : partitionPoint p l = partitionPoint q l := ih fun y hy => h y (by simp [hy])
    unfold partitionPoint at htail ⊢
    rw [takeWhile_cons, takeWhile_cons, h x (by simp)]
    cases q x
    · rfl
    · simp [htail]

end Vec

/-! ## Positions in sorted lists -/

section Position

variable {α : Type*} {β : Type*} [LinearOrder β] {f : α → β} {l : List α} {x : α}

/-- In a sorted list an element stands behind the smaller ones. -/
theorem exists_eq_filter_append_cons (hf : Function.Injective f)
    (hsorted : l.Pairwise fun a b => f a ≤ f b) (hmem : x ∈ l) :
    ∃ post, l = (l.filter fun a => f a < f x) ++ x :: post := by
  induction l with
  | nil => cases hmem
  | cons a l ih =>
    obtain ⟨hle, hsorted⟩ := pairwise_cons.1 hsorted
    by_cases hlt : f a < f x
    · rw [filter_cons_of_pos (by simpa using hlt)]
      have hx : x ∈ l := (mem_cons.1 hmem).resolve_left fun heq => absurd hlt (by simp [heq])
      obtain ⟨post, hpost⟩ := ih hsorted hx
      exact ⟨post, congrArg (a :: ·) hpost⟩
    have hax : f x ≤ f a := not_lt.1 hlt
    have ha : a = x := by
      rcases mem_cons.1 hmem with rfl | hx
      · rfl
      · exact hf (le_antisymm (hle x hx) hax)
    have hnone : (a :: l).filter (fun b => decide (f b < f x)) = [] := by
      have hge : ∀ b ∈ a :: l, f x ≤ f b :=
        forall_mem_cons.2 ⟨hax, fun b hb => hax.trans (hle b hb)⟩
      simpa using hge
    exact ⟨l, by rw [hnone, ha, nil_append]⟩

/-- An element at a position between two bounds. -/
theorem mem_drop_take {pre post : List α} {start stop : Nat} (hstart : start ≤ pre.length)
    (hstop : pre.length < stop) : x ∈ ((pre ++ x :: post).take stop).drop start := by
  rw [take_append, drop_append]
  apply mem_append_right
  obtain ⟨left, hleft⟩ : ∃ left, stop - pre.length = left + 1 := ⟨stop - pre.length - 1, by omega⟩
  have hzero : start - (pre.take stop).length = 0 := by
    rw [length_take]
    omega
  rw [hleft, hzero]
  exact mem_cons_self

end Position

/-! ## Binary search -/

section BinarySearch

variable {α : Type*}

theorem insertIdx_append_add (a b : List α) (k : Nat) (x : α) :
    (a ++ b).insertIdx (a.length + k) x = a ++ b.insertIdx k x := by
  induction a with
  | nil => simp
  | cons y a ih =>
    rw [cons_append, length_cons, Nat.add_right_comm, insertIdx_succ_cons, ih]
    rfl

theorem insertIdx_append_length (a b : List α) (x : α) :
    (a ++ b).insertIdx a.length x = a ++ x :: b :=
  insertIdx_append_add a b 0 x

theorem eraseIdx_append_length (a b : List α) (x : α) :
    (a ++ x :: b).eraseIdx a.length = a ++ b := by
  rw [eraseIdx_append_of_length_le le_rfl, Nat.sub_self]
  rfl

variable [LinearOrder α] {l : List α} {x : α} {i : Nat}

/-- `slice::binary_search` in a sorted slice: where the value is, or where it belongs. -/
def binarySearch (l : List α) (x : α) : Except Nat Nat :=
  let i := partitionPoint (fun y => y < x) l
  if l[i]? = some x then .ok i else .error i

theorem binarySearch_ok (h : binarySearch l x = .ok i) : ∃ a b, l = a ++ x :: b ∧ i = a.length := by
  unfold binarySearch at h
  dsimp only at h
  split at h
  · rename_i hget
    obtain rfl : _ = i := Except.ok.inj h
    generalize partitionPoint (fun y => decide (y < x)) l = i at hget ⊢
    obtain ⟨hlt, rfl⟩ := List.getElem?_eq_some_iff.1 hget
    refine ⟨l.take i, l.drop (i + 1), ?_, (length_take_of_le hlt.le).symm⟩
    rw [getElem_cons_drop, take_append_drop]
  · cases h

/-- A value that is not found belongs between the smaller and the larger ones. -/
theorem binarySearch_error (hl : l.Pairwise (· < ·)) (h : binarySearch l x = .error i) :
    ∃ a b, l = a ++ b ∧ i = a.length ∧ (∀ y ∈ a, y < x) ∧ ∀ y ∈ b, x < y := by
  unfold binarySearch at h
  dsimp only at h
  split at h
  · cases h
  rename_i hget
  cases h
  obtain ⟨a, b, rfl, hcut, ha, hb⟩ := partitionPoint_split (fun y => decide (y < x)) l
  refine ⟨a, b, rfl, hcut, fun y hy => by simpa using ha y hy, fun y hy => ?_⟩
  rw [hcut, getElem?_append_right le_rfl, Nat.sub_self] at hget
  rcases b with _ | ⟨z, b⟩
  · cases hy
  -- the first of the others is neither smaller nor equal
  have hz : x < z := by
    have hle : ¬z < x := by simpa using hb z rfl
    have hne : z ≠ x := by simpa using hget
    exact lt_of_le_of_ne (not_lt.1 hle) hne.symm
  rcases mem_cons.1 hy with rfl | hmem
  · exact hz
  · exact hz.trans ((pairwise_cons.1 (pairwise_append.1 hl).2.1).1 y hmem)

end BinarySearch

/-! ## Sorted insertion -/

section SortedInsert

variable {α K : Type*} [LinearOrder K] (f : α → K)

/-- `new` is `old` with `e` inserted between the smaller and the larger elements. -/
def SortedInsert (e : α) (old new : List α) : Prop :=
  ∃ l r, old = l ++ r ∧ new = l ++ e :: r ∧ (∀ x ∈ l, f x < f e) ∧ ∀ x ∈ r, f e < f x

variable {f} {e : α} {old new : List α}

/-- The larger list around the place of insertion. -/
theorem SortedInsert.context (h : SortedInsert f e old new) {a b : List α}
    (ha : ∀ x ∈ a, f x < f e) (hb : ∀ x ∈ b, f e < f x) :
    SortedInsert f e (a ++ old ++ b) (a ++ new ++ b) := by
  obtain ⟨l, r, rfl, rfl, hl, hr⟩ := h
  exact ⟨a ++ l, r ++ b, by simp, by simp, forall_mem_append.2 ⟨ha, hl⟩,
    forall_mem_append.2 ⟨hr, hb⟩⟩

theorem SortedInsert.length_eq (h : SortedInsert f e old new) : new.length = old.length + 1 := by
  obtain ⟨l, r, rfl, rfl, -, -⟩ := h
  simp only [length_append, length_cons]
  omega

theorem SortedInsert.mem_iff (h : SortedInsert f e old new) {x : α} :
    x ∈ new ↔ x = e ∨ x ∈ old := by
  obtain ⟨l, r, rfl, rfl, -, -⟩ := h
  simp only [mem_append, mem_cons]
  tauto

/-- **Sorted insertion keeps a strictly sorted list so.** -/
theorem SortedInsert.sorted (h : SortedInsert f e old new)
    (hold : old.Pairwise fun x y => f x < f y) : new.Pairwise fun x y => f x < f y := by
  obtain ⟨l, r, rfl, rfl, hl, hr⟩ := h
  rw [pairwise_append] at hold ⊢
  refine ⟨hold.1, pairwise_cons.2 ⟨hr, hold.2.1⟩, fun x hx => ?_⟩
  exact forall_mem_cons.2 ⟨hl x hx, hold.2.2 x hx⟩

end SortedInsert

/-! ## Separator lists -/

section Separated

variable {K : Type*} [LinearOrder K]

/-- The keys `ks` separate the runs `ps`: every run lies below the key after it, and every key is
at most what comes after it. -/
def Separated : List K → List (List K) → Prop
  | [], [_] => True
  | k :: ks, p :: ps =>
    (∀ x ∈ p, x < k) ∧ (∀ y ∈ ps.flatten, k ≤ y) ∧ (∀ k' ∈ ks, k < k') ∧ Separated ks ps
  | _, _ => False

variable {ks ks₁ ks₂ : List K} {p : List K} {ps ps₁ ps₂ : List (List K)} {k : K}

theorem separated_cons : Separated (k :: ks) (p :: ps) ↔
    (∀ x ∈ p, x < k) ∧ (∀ y ∈ ps.flatten, k ≤ y) ∧ (∀ k' ∈ ks, k < k') ∧ Separated ks ps :=
  Iff.rfl

theorem Separated.length_eq (h : Separated ks ps) : ps.length = ks.length + 1 := by
  induction ks generalizing ps with
  | nil =>
    match ps, h with
    | [_], _ => rfl
  | cons k ks ih =>
    cases ps with
    | nil => exact h.elim
    | cons p ps => simp [ih h.2.2.2]

/-- **A separator list is cut at any of its keys.** -/
theorem separated_append_cons (hlen : ps₁.length = ks₁.length + 1) :
    Separated (ks₁ ++ k :: ks₂) (ps₁ ++ ps₂) ↔
      Separated ks₁ ps₁ ∧ Separated ks₂ ps₂ ∧ (∀ x ∈ ps₁.flatten, x < k) ∧
        (∀ y ∈ ps₂.flatten, k ≤ y) ∧ (∀ k' ∈ ks₁, k' < k) ∧ ∀ k' ∈ ks₂, k < k' := by
  induction ks₁ generalizing ps₁ with
  | nil =>
    obtain ⟨p, rfl⟩ := length_eq_one_iff.1 hlen
    simp only [flatten_cons, flatten_nil, append_nil,
      not_mem_nil, false_implies, implies_true, true_and]
    constructor
    · rintro ⟨hp, hps, hks, hsep⟩
      exact ⟨trivial, hsep, hp, hps, hks⟩
    · rintro ⟨-, hsep, hp, hps, hks⟩
      exact ⟨hp, hps, hks, hsep⟩
  | cons k₁ ks₁ ih =>
    rcases ps₁ with _ | ⟨p, ps₁⟩
    · simp at hlen
    have hlen' : ps₁.length = ks₁.length + 1 := by simpa using hlen
    simp only [cons_append, separated_cons, ih hlen', flatten_append, flatten_cons,
      forall_mem_append, forall_mem_cons]
    constructor
    · rintro ⟨hp, ⟨hk₁, -⟩, ⟨hks, hk₁k, -⟩, hs₁, hs₂, hps₁, hps₂, hlt, hgt⟩
      exact ⟨⟨hp, hk₁, hks, hs₁⟩, hs₂, ⟨fun x hx => (hp x hx).trans hk₁k, hps₁⟩, hps₂,
        ⟨hk₁k, hlt⟩, hgt⟩
    · rintro ⟨⟨hp, hk₁, hks, hs₁⟩, hs₂, ⟨-, hps₁⟩, hps₂, ⟨hk₁k, hlt⟩, hgt⟩
      exact ⟨hp, ⟨hk₁, fun y hy => hk₁k.le.trans (hps₂ y hy)⟩,
        ⟨hks, hk₁k, fun k' hk' => hk₁k.trans (hgt k' hk')⟩, hs₁, hs₂, hps₁, hps₂, hlt, hgt⟩

/-- Every key is at most the runs after it, and above the runs before it. -/
theorem Separated.focus (h : Separated (ks₁ ++ ks₂) (ps₁ ++ p :: ps₂))
    (hlen : ps₁.length = ks₁.length) :
    (∀ x ∈ ps₁.flatten, ∃ k ∈ ks₁, x < k) ∧ (∀ y ∈ ps₂.flatten, ∃ k ∈ ks₂, k ≤ y) ∧
      ∀ x ∈ p, (∀ k ∈ ks₁, k ≤ x) ∧ ∀ k ∈ ks₂, x < k := by
  induction ks₁ generalizing ps₁ with
  | nil =>
    obtain rfl : ps₁ = [] := length_eq_zero_iff.1 hlen
    cases ks₂ with
    | nil =>
      cases ps₂ with
      | nil => simp
      | cons => exact h.elim
    | cons k ks₂ =>
      refine ⟨by simp, fun y hy => ⟨k, by simp, h.2.1 y hy⟩, fun x hx => ⟨by simp, ?_⟩⟩
      exact forall_mem_cons.2 ⟨h.1 x hx, fun k' hk' => (h.1 x hx).trans (h.2.2.1 k' hk')⟩
  | cons k₁ ks₁ ih =>
    rcases ps₁ with _ | ⟨p₁, ps₁⟩
    · simp at hlen
    obtain ⟨hp₁, hk₁, -, hrest⟩ := h
    obtain ⟨hbefore, hafter, hp⟩ := ih hrest (by simpa using hlen)
    refine ⟨?_, hafter, fun x hx => ⟨?_, (hp x hx).2⟩⟩
    · rw [flatten_cons, forall_mem_append]
      refine ⟨fun x hx => ⟨k₁, by simp, hp₁ x hx⟩, fun x hx => ?_⟩
      obtain ⟨k, hk, hxk⟩ := hbefore x hx
      exact ⟨k, by simp [hk], hxk⟩
    · exact forall_mem_cons.2 ⟨hk₁ x (by simp; tauto), (hp x hx).1⟩

theorem Separated.keys_sorted (h : Separated ks ps) : ks.Pairwise (· < ·) := by
  induction ks generalizing ps with
  | nil => exact List.Pairwise.nil
  | cons k ks ih =>
    cases ps with
    | nil => exact h.elim
    | cons p ps => exact pairwise_cons.2 ⟨h.2.2.1, ih h.2.2.2⟩

/-- **Routing.** The partition point of a predicate that is closed downwards selects a run such
that the keys before it satisfy the predicate and the keys after it do not. -/
theorem Separated.route (h : Separated ks ps) {q : K → Bool}
    (hq : ∀ a b, a < b → q b = true → q a = true) :
    ∃ ks₁ ks₂ ps₁ p ps₂, ks = ks₁ ++ ks₂ ∧ ps = ps₁ ++ p :: ps₂ ∧ ps₁.length = ks₁.length ∧
      partitionPoint q ks = ks₁.length ∧ (∀ k ∈ ks₁, q k = true) ∧ ∀ k ∈ ks₂, q k = false := by
  obtain ⟨ks₁, ks₂, rfl, hcut, htrue, hfalse⟩ := partitionPoint_split q ks
  have hlen := h.length_eq
  have hin : ks₁.length < ps.length := by
    rw [hlen, length_append]
    omega
  refine ⟨ks₁, ks₂, ps.take ks₁.length, ps[ks₁.length], ps.drop (ks₁.length + 1), rfl, ?_, ?_, hcut,
    htrue, ?_⟩
  · rw [← drop_eq_getElem_cons hin, take_append_drop]
  · simp only [length_take]
    omega
  · intro k hk
    rcases ks₂ with _ | ⟨k₂, ks₂⟩
    · simp at hk
    have hk₂ : q k₂ = false := hfalse k₂ rfl
    rcases mem_cons.1 hk with rfl | hk
    · exact hk₂
    · have hlt : k₂ < k :=
        rel_of_pairwise_cons (pairwise_append.1 h.keys_sorted).2.1 hk
      cases hqk : q k with
      | false => rfl
      | true => exact absurd (hq k₂ k hlt hqk) (by simp [hk₂])

/-- **Replacement.** A run may be replaced by a separated group of runs that stays between the
neighbouring keys. -/
theorem Separated.replace {ks' : List K} {qs : List (List K)}
    (h : Separated (ks₁ ++ ks₂) (ps₁ ++ p :: ps₂)) (hlen : ps₁.length = ks₁.length)
    (hqs : Separated ks' qs) (hruns : ∀ x ∈ qs.flatten, (∀ k ∈ ks₁, k ≤ x) ∧ ∀ k ∈ ks₂, x < k)
    (hkeys : ∀ k' ∈ ks', (∀ k ∈ ks₁, k < k') ∧ ∀ k ∈ ks₂, k' < k) :
    Separated (ks₁ ++ ks' ++ ks₂) (ps₁ ++ qs ++ ps₂) := by
  induction ks₁ generalizing ps₁ with
  | nil =>
    obtain rfl : ps₁ = [] := length_eq_zero_iff.1 hlen
    cases ks₂ with
    | nil =>
      cases ps₂ with
      | nil => simpa using hqs
      | cons => exact h.elim
    | cons k₂ ks₂ =>
      obtain ⟨-, hps₂, hks₂, hsep⟩ := h
      exact (separated_append_cons hqs.length_eq).2 ⟨hqs, hsep,
        fun x hx => (hruns x hx).2 k₂ (by simp), hps₂, fun k' hk' => (hkeys k' hk').2 k₂ (by simp),
        hks₂⟩
  | cons k₁ ks₁ ih =>
    rcases ps₁ with _ | ⟨p₁, ps₁⟩
    · simp at hlen
    simp only [cons_append, separated_cons, flatten_append, flatten_cons, forall_mem_append] at h ⊢
    obtain ⟨hp₁, ⟨hle, -, hle'⟩, ⟨hlt, hlt'⟩, hsep⟩ := h
    refine ⟨hp₁, ⟨⟨hle, fun y hy => (hruns y hy).1 k₁ (by simp)⟩, hle'⟩,
      ⟨⟨hlt, fun k' hk' => (hkeys k' hk').1 k₁ (by simp)⟩, hlt'⟩,
      ih hsep (by simpa using hlen) ?_ ?_⟩
    · intro x hx
      exact ⟨fun k hk => (hruns x hx).1 k (by simp [hk]), (hruns x hx).2⟩
    · intro k' hk'
      exact ⟨fun k hk => (hkeys k' hk').1 k (by simp [hk]), (hkeys k' hk').2⟩

end Separated

end Senko
