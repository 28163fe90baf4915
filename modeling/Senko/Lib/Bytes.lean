import Mathlib.Data.List.Basic
import Mathlib.Tactic.Ring
import Mathlib.Tactic.Linarith

/-!
# Byte strings, slices and fixed-width words

A byte string is a list of `UInt8`. The slice operations return `none` exactly where the indexing
they stand for is out of bounds, so a reader that walks a buffer is a chain of `Option` binds. The
lemmas place a known middle segment inside a larger buffer: every "decode what was encoded" proof
is an application of them.
-/

namespace Senko

open List

abbrev Bytes := List UInt8

/-- Checked along the string, not over all bytes. -/
instance (priority := 1100) (bytes : Bytes) (p : UInt8 → Prop) [DecidablePred p] :
    Decidable (∀ b ∈ bytes, p b) := decidableBAll p bytes

instance (priority := 1100) lawfulBEqBytes : LawfulBEq Bytes := inferInstance

/-- A decidable fact about every byte is a check of 256 cases. -/
theorem forall_byte {P : UInt8 → Prop} (h : ∀ n : Fin 256, P (UInt8.ofNat n)) (b : UInt8) :
    P b := by
  have hb := h ⟨b.toNat, b.toNat_lt⟩
  rwa [UInt8.ofNat_toNat] at hb

/-! ## Slices -/

section Slices

variable {α : Type*}

/-- The elements at indices `a .. b`, if that range lies within the list. -/
def getRange (l : List α) (a b : Nat) : Option (List α) :=
  if a ≤ b ∧ b ≤ l.length then some ((l.take b).drop a) else none

/-- The elements from index `a` on, if `a` is at most the length. -/
def getFrom (l : List α) (a : Nat) : Option (List α) :=
  if a ≤ l.length then some (l.drop a) else none

/-- A range that covers exactly the middle segment returns it. -/
theorem getRange_append (pre mid post : List α) {a b : Nat} (ha : a = pre.length)
    (hb : b = pre.length + mid.length) : getRange (pre ++ mid ++ post) a b = some mid := by
  subst ha hb
  have hin : pre.length ≤ pre.length + mid.length ∧
      pre.length + mid.length ≤ (pre ++ mid ++ post).length := by
    simp only [length_append]
    omega
  rw [getRange, if_pos hin, take_append_of_le_length (by simp), ← length_append, take_length,
    drop_left]

/-- A range within the front part does not see what follows. -/
theorem getRange_append_left {x : List α} {a b : Nat} (h : b ≤ x.length) (y : List α) :
    getRange (x ++ y) a b = getRange x a b := by
  unfold getRange
  rw [take_append_of_le_length h, length_append]
  by_cases hab : a ≤ b
  · rw [if_pos ⟨hab, by omega⟩, if_pos ⟨hab, h⟩]
  · rw [if_neg (fun hb => hab hb.1), if_neg (fun hb => hab hb.1)]

theorem getFrom_append (pre post : List α) : getFrom (pre ++ post) pre.length = some post := by
  simp [getFrom]

theorem getElem?_append_cons (pre : List α) (x : α) (post : List α) :
    (pre ++ x :: post)[pre.length]? = some x := by
  simp

/-- The first occurrence of an element splits a list. -/
theorem idxOf?_eq_some_iff_append [DecidableEq α] {l : List α} {x : α} {i : Nat} :
    l.idxOf? x = some i ↔ ∃ front back, l = front ++ x :: back ∧ x ∉ front ∧ i = front.length := by
  have hfirst : ∀ {front back : List α}, x ∉ front →
      (front ++ x :: back).idxOf? x = some front.length := by
    intro front back hfront
    refine idxOf?_eq_some_iff.2 ⟨by simp, by simp, fun j hj heq => hfront ?_⟩
    rw [getElem_append_left hj] at heq
    exact heq ▸ getElem_mem hj
  constructor
  · intro h
    obtain ⟨front, back, rfl, hfront⟩ := eq_append_cons_of_mem
      (isSome_idxOf?.1 (by rw [h]; rfl))
    rw [hfirst hfront] at h
    exact ⟨front, back, rfl, hfront, (Option.some.inj h).symm⟩
  · rintro ⟨front, back, rfl, hfront, rfl⟩
    exact hfirst hfront

end Slices

/-! ## Little-endian words -/

/-- The `k` low bytes of `n`, least significant first. -/
def toLeBytes : Nat → Nat → Bytes
  | 0, _ => []
  | k + 1, n => UInt8.ofNat n :: toLeBytes k (n / 256)

/-- The number a little-endian byte string spells. -/
def fromLeBytes : Bytes → Nat
  | [] => 0
  | b :: bs => b.toNat + 256 * fromLeBytes bs

@[simp] theorem length_toLeBytes (k n : Nat) : (toLeBytes k n).length = k := by
  induction k generalizing n with
  | zero => rfl
  | succ k ih => simp [toLeBytes, ih]

/-- Reading a word back gives the number modulo the word size. -/
theorem fromLeBytes_toLeBytes (k n : Nat) : fromLeBytes (toLeBytes k n) = n % 256 ^ k := by
  induction k generalizing n with
  | zero => simp [toLeBytes, fromLeBytes, Nat.mod_one]
  | succ k ih =>
    have hbyte : (UInt8.ofNat n).toNat = n % 256 := UInt8.toNat_ofNat'
    rw [toLeBytes, fromLeBytes, ih, hbyte, pow_succ', Nat.mod_mul]

theorem fromLeBytes_toLeBytes_of_lt {k n : Nat} (h : n < 256 ^ k) :
    fromLeBytes (toLeBytes k n) = n := by
  rw [fromLeBytes_toLeBytes, Nat.mod_eq_of_lt h]

theorem fromLeBytes_lt (bytes : Bytes) : fromLeBytes bytes < 256 ^ bytes.length := by
  induction bytes with
  | nil => exact Nat.one_pos
  | cons b bs ih =>
    have hlt := b.toNat_lt
    rw [fromLeBytes, length_cons, pow_succ]
    omega

/-- Every byte string is the word of the number it spells. -/
theorem toLeBytes_fromLeBytes (bytes : Bytes) :
    toLeBytes bytes.length (fromLeBytes bytes) = bytes := by
  induction bytes with
  | nil => rfl
  | cons b bs ih =>
    have hlt := b.toNat_lt
    have hdiv : (b.toNat + 256 * fromLeBytes bs) / 256 = fromLeBytes bs := by omega
    have hbyte : UInt8.ofNat (b.toNat + 256 * fromLeBytes bs) = b := by
      apply UInt8.toNat_inj.1
      rw [UInt8.toNat_ofNat']
      omega
    rw [length_cons, fromLeBytes, toLeBytes, hdiv, hbyte, ih]

/-! ## Big-endian words -/

/-- The `k` low bytes of `n`, most significant first. -/
def toBeBytes (k n : Nat) : Bytes := (toLeBytes k n).reverse

/-- The number a big-endian byte string spells. -/
def fromBeBytes (bytes : Bytes) : Nat := fromLeBytes bytes.reverse

@[simp] theorem length_toBeBytes (k n : Nat) : (toBeBytes k n).length = k := by
  rw [toBeBytes, length_reverse, length_toLeBytes]

theorem fromBeBytes_lt (bytes : Bytes) : fromBeBytes bytes < 256 ^ bytes.length := by
  have hle := fromLeBytes_lt bytes.reverse
  rwa [length_reverse] at hle

theorem fromBeBytes_toBeBytes (k n : Nat) : fromBeBytes (toBeBytes k n) = n % 256 ^ k := by
  rw [fromBeBytes, toBeBytes, reverse_reverse, fromLeBytes_toLeBytes]

/-! ## Arithmetic of `u64` -/

def u64Max : Nat := 2 ^ 64 - 1

/-- A sum of `u64` that wraps around. -/
def wrappingAdd (x y : Nat) : Nat := (x + y) % 2 ^ 64

theorem wrappingAdd_of_lt {x y : Nat} (h : x + y < 2 ^ 64) : wrappingAdd x y = x + y :=
  Nat.mod_eq_of_lt h

/-- A sum of `u64` that saturates. -/
def saturatingAdd (x y : Nat) : Nat := min (x + y) u64Max

/-- A product of `u64` that saturates. -/
def saturatingMul (x y : Nat) : Nat := min (x * y) u64Max

end Senko
