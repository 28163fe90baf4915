import Mathlib.Tactic.NormNum
import Senko.Lib.Bytes
import Senko.Lib.Run

/-!
# Senko — scaling Bloom filters

A Bloom filter is a row of layers, of which the last one takes new items. `exists` asks every layer,
`add` answers for the layer that takes the item. So once a layer has been added, an item of an older
layer is new to `add` though `exists` reports it. What was added stays reported, whatever is added
later.
-/

namespace Senko.Bloom

/-- The two halves of the hash of an item. -/
structure DoubleHasher where
  h1 : UInt64
  h2 : UInt64

namespace DoubleHasher

def get (h : DoubleHasher) (i : Nat) : UInt64 := h.h1 + UInt64.ofNat i * h.h2

/-- The upper half of the product with `n`, an index below `n`. -/
def index (h : DoubleHasher) (i : Nat) {n : Nat} (hn : 0 < n) : Fin n :=
  ⟨(h.get i).toNat * n / 2 ^ 64, by
    rw [Nat.div_lt_iff_lt_mul (by norm_num), Nat.mul_comm n]
    exact Nat.mul_lt_mul_of_pos_right (h.get i).toNat_lt hn⟩

end DoubleHasher

/-- What the layers are sized by: the float computations of the source, and the error rate of a
layer by its number. -/
structure Sizing where
  /-- `optimal_bits`, by the capacity and the number of the layer -/
  optimalBits : Nat → Nat → Nat
  /-- `optimal_hashes`, by bits and capacity -/
  optimalHashes : Nat → Nat → Nat
  optimalHashes_pos : ∀ bits capacity, 0 < optimalHashes bits capacity
  /-- `(capacity as f64 * 0.95) as u64` -/
  nearlyFull : Nat → Nat

structure SubFilter where
  numBits : Nat
  numBits_pos : 0 < numBits
  bits : Fin numBits → Bool
  numHashes : Nat
  capacity : Nat
  items : Nat

structure BloomFilter where
  /-- All layers but the last, which is always there. -/
  older : List SubFilter
  last : SubFilter
  expansion : Nat
  totalItems : Nat
  nonScaling : Bool

variable (hash : Bytes → DoubleHasher) (sizing : Sizing)

namespace SubFilter

def new (capacity layer : Nat) : SubFilter :=
  let numBits := sizing.optimalBits (max capacity 1) layer
  { numBits := max numBits 64
    numBits_pos := by omega
    bits := fun _ => false
    numHashes := sizing.optimalHashes (max numBits 1) (max capacity 1)
    capacity := max capacity 1
    items := 0 }

def contains (s : SubFilter) (item : Bytes) : Bool :=
  (List.range s.numHashes).all fun i => s.bits ((hash item).index i s.numBits_pos)

def insert (s : SubFilter) (item : Bytes) : SubFilter × Bool :=
  let already := s.contains hash item
  let bits := (List.range s.numHashes).foldl
    (fun bits i => Function.update bits ((hash item).index i s.numBits_pos) true) s.bits
  ({ s with bits, items := min (s.items + 1) u64Max }, !already)

end SubFilter

namespace BloomFilter

def new (capacity expansion : Nat) (nonScaling : Bool) : BloomFilter :=
  ⟨[], .new sizing capacity 0, max expansion 1, 0, nonScaling⟩

def ensureCapacity (f : BloomFilter) : BloomFilter × Bool :=
  if f.last.items < sizing.nearlyFull f.last.capacity then (f, true)
  else if f.nonScaling then (f, false)
  else
    let capacity := max (min (f.last.capacity * f.expansion) u64Max) 1
    ({ f with older := f.older ++ [f.last], last := .new sizing capacity (f.older.length + 1) },
      true)

/-- `none` stands for the error that the filter is full. -/
def add (f : BloomFilter) (item : Bytes) : BloomFilter × Option Bool :=
  let grown := f.ensureCapacity sizing
  if grown.2 then
    let inserted := grown.1.last.insert hash item
    ({ grown.1 with last := inserted.1, totalItems := min (f.totalItems + 1) u64Max },
      some inserted.2)
  else (grown.1, none)

def «exists» (f : BloomFilter) (item : Bytes) : Bool :=
  (f.older ++ [f.last]).reverse.any fun filter => filter.contains hash item

end BloomFilter

/-! ## Layers -/

variable {hash sizing} {s : SubFilter} {f : BloomFilter} {x y : Bytes}

namespace SubFilter

theorem contains_iff :
    s.contains hash x = true ↔
      ∀ i < s.numHashes, s.bits ((hash x).index i s.numBits_pos) = true := by
  simp [contains]

theorem contains_new (capacity layer : Nat) :
    (new sizing capacity layer).contains hash x = false := by
  rw [Bool.eq_false_iff, Ne, contains_iff]
  intro h
  cases h 0 (sizing.optimalHashes_pos _ _)

/-- **A layer after an insertion** has the bits it had, and those of the item. -/
theorem bits_insert (j : Fin s.numBits) : (s.insert hash x).1.bits j = true ↔
      (∃ i ∈ List.range s.numHashes, (hash x).index i s.numBits_pos = j) ∨ s.bits j = true := by
  refine (foldl_adds (P := fun _ => True)
    (H := fun (bits : Fin s.numBits → Bool) j => bits j = true)
    (p := fun i j => (hash x).index i s.numBits_pos = j) ?_ trivial).2 j
  intro bits i _ _
  refine ⟨trivial, fun j => ?_⟩
  rw [Function.update_apply, eq_comm (b := j)]
  split <;> simp [*]

theorem contains_insert : (s.insert hash x).1.contains hash x = true :=
  contains_iff.2 fun i hi => (bits_insert _).2 (.inl ⟨i, List.mem_range.2 hi, rfl⟩)

theorem contains_insert_of_contains (h : s.contains hash y = true) :
    (s.insert hash x).1.contains hash y = true :=
  contains_iff.2 fun i hi => (bits_insert _).2 (.inr (contains_iff.1 h i hi))

end SubFilter

/-! ## Filters -/

namespace BloomFilter

theorem exists_iff : f.exists hash x = true ↔
    (∃ s ∈ f.older, s.contains hash x = true) ∨ f.last.contains hash x = true := by
  simp [«exists», or_comm]

/-- A new layer has no items. -/
theorem exists_ensureCapacity (sizing : Sizing) :
    (f.ensureCapacity sizing).1.exists hash x = f.exists hash x := by
  unfold ensureCapacity
  split_ifs
  · rfl
  · rfl
  · rw [Bool.eq_iff_iff, exists_iff, exists_iff]
    simp [SubFilter.contains_new]

/-- **An item that is reported stays reported.** -/
theorem exists_add_of_exists (h : f.exists hash x = true) :
    (f.add hash sizing y).1.exists hash x = true := by
  rw [← exists_ensureCapacity sizing, exists_iff] at h
  simp only [add]
  split
  · exact exists_iff.2 (h.imp id SubFilter.contains_insert_of_contains)
  · exact exists_iff.2 h

theorem exists_add {inserted : Bool} (h : (f.add hash sizing x).2 = some inserted) :
    (f.add hash sizing x).1.exists hash x = true := by
  simp only [add] at h ⊢
  split_ifs at h ⊢
  exact exists_iff.2 (.inr SubFilter.contains_insert)

/-- What `add` answers: that the layer that takes the item is without it. -/
theorem add_answer : (f.add hash sizing x).2 =
    if f.last.items < sizing.nearlyFull f.last.capacity then some !f.last.contains hash x
    else if f.nonScaling then none else some true := by
  simp only [add, ensureCapacity, SubFilter.insert]
  split_ifs <;> simp_all [SubFilter.contains_new]

variable (hash sizing) in
/-- **What `add` and `exists` promise each other** for a call in a filter: if it succeeds, the item
is reported from then on, and the answer tells whether it was reported before. -/
def Contract (f : BloomFilter) (x : Bytes) : Prop :=
  ∀ inserted, (f.add hash sizing x).2 = some inserted →
    (∀ later : List Bytes, (later.foldl (fun f y => (f.add hash sizing y).1)
      (f.add hash sizing x).1).exists hash x = true) ∧
    (inserted = true ↔ f.exists hash x = false)

variable (hash sizing) in
/-- An item that is reported is in the last layer, and that layer has room. (A filter that is full
and does not scale takes no item.) -/
def InLastLayer (f : BloomFilter) (x : Bytes) : Prop :=
  f.exists hash x = true →
    if f.last.items < sizing.nearlyFull f.last.capacity then f.last.contains hash x = true
    else f.nonScaling = true

/-- **The contract is kept** exactly where an item that is reported is in the layer that takes it.
-/
theorem bloom_filter_contract (hash : Bytes → DoubleHasher) (sizing : Sizing) (f : BloomFilter)
    (x : Bytes) : Contract hash sizing f x ↔ InLastLayer hash sizing f x := by
  have hanswer : Contract hash sizing f x ↔ ∀ inserted, (f.add hash sizing x).2 = some inserted →
      (inserted = true ↔ f.exists hash x = false) := by
    refine forall₂_congr fun inserted h => and_iff_right fun later => ?_
    exact List.foldlRecOn (motive := fun f : BloomFilter => f.exists hash x = true) later _
      (exists_add h) fun f hf y _ => exists_add_of_exists hf
  rw [hanswer, add_answer, InLastLayer]
  have hlast : f.last.contains hash x = true → f.exists hash x = true := fun h =>
    exists_iff.2 (.inr h)
  split_ifs with hroom hfull
  · cases hcontains : f.last.contains hash x with
    | true => simp [hlast hcontains]
    | false => simp
  · simp [hfull]
  · simp [hfull]

/-- One hash on 64 bits, and a layer that is full at 95 of 100 items. -/
def plain : Sizing :=
  ⟨fun _ _ => 64, fun _ _ => 1, fun _ _ => Nat.one_pos, fun capacity => capacity * 95 / 100⟩

/-- Added twice to a filter of capacity one an item is new twice, whatever the hash. -/
theorem bloom_filter_contract_fails : ¬∃ hash : Bytes → DoubleHasher,
    ∀ sizing f x, Contract hash sizing f x := by
  rintro ⟨hash, h⟩
  have hfirst : ((new plain 1 2 false).add hash plain [0x78]).2 = some true := add_answer
  have hexists := exists_add hfirst
  have hsecond := h plain ((new plain 1 2 false).add hash plain [0x78]).1 [0x78] true
    (add_answer.trans
      (by simp [add, ensureCapacity, new, plain, SubFilter.new, SubFilter.insert, u64Max]))
  rw [hsecond.2.1 rfl] at hexists
  cases hexists

end BloomFilter

end Senko.Bloom
