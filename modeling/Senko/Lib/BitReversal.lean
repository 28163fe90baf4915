import Mathlib.Data.Nat.Bitwise

/-!
# Reversing the low bits of a number

The numbers below `2 ^ bits` in the order of their reversed bits. Widening or narrowing the range
keeps that order: the reversal in a wider range is a left shift, and the one in a narrower range a
right shift. A scan of a hash table that walks its buckets in this order therefore keeps its place
when the table changes its size.
-/

namespace Senko

/-- The loop that moves the low bits of a value to the other end of an accumulator. -/
def reverseLoop : Nat → Nat → Nat → Nat
  | 0, _, out => out
  | bits + 1, value, out => reverseLoop bits (value >>> 1) (out <<< 1 ||| value &&& 1)

/-- The low bits of a value, reversed. -/
def reverseLowBits (value bits : Nat) : Nat := reverseLoop bits value 0

theorem testBit_reverseLoop (bits value out i : Nat) : (reverseLoop bits value out).testBit i =
      if i < bits then value.testBit (bits - 1 - i) else out.testBit (i - bits) := by
  induction bits generalizing value out with
  | zero => simp [reverseLoop]
  | succ bits ih =>
    rw [reverseLoop, ih, Nat.testBit_or, Nat.testBit_shiftLeft, Nat.testBit_and,
      Nat.testBit_shiftRight]
    rcases Nat.lt_trichotomy i bits with hlt | rfl | hgt
    · rw [if_pos hlt, if_pos (by omega)]
      congr 1
      omega
    · simp
    · have hlow : Nat.testBit 1 (i - bits) = false := by
        rw [Bool.eq_false_iff, Ne, Nat.testBit_one_eq_true_iff_self_eq_zero]
        omega
      rw [if_neg (by omega), if_neg (by omega), hlow]
      simp [show 1 ≤ i - bits by omega, Nat.sub_sub]

section Reversal

variable {value bits bits' i : Nat}

theorem testBit_reverseLowBits : (reverseLowBits value bits).testBit i =
    (decide (i < bits) && value.testBit (bits - 1 - i)) := by
  rw [reverseLowBits, testBit_reverseLoop]
  split <;> simp_all

@[simp] theorem reverseLowBits_zero : reverseLowBits 0 bits = 0 := by
  apply Nat.eq_of_testBit_eq
  intro i
  rw [testBit_reverseLowBits]
  simp

theorem reverseLowBits_lt : reverseLowBits value bits < 2 ^ bits := by
  refine Nat.lt_pow_two_of_testBit _ fun i hi => ?_
  rw [testBit_reverseLowBits]
  simp [Nat.not_lt.2 hi]

/-- Only the low bits matter. -/
theorem reverseLowBits_mod :
    reverseLowBits (value % 2 ^ bits) bits = reverseLowBits value bits := by
  apply Nat.eq_of_testBit_eq
  intro i
  rw [testBit_reverseLowBits, testBit_reverseLowBits, Nat.testBit_mod_two_pow]
  by_cases hi : i < bits
  · simp [hi, show bits - 1 - i < bits by omega]
  · simp [hi]

/-- Reversing twice restores the value. -/
theorem reverseLowBits_reverseLowBits (h : value < 2 ^ bits) :
    reverseLowBits (reverseLowBits value bits) bits = value := by
  apply Nat.eq_of_testBit_eq
  intro i
  rw [testBit_reverseLowBits, testBit_reverseLowBits]
  by_cases hi : i < bits
  · simp [hi, show bits - 1 - i < bits by omega, show bits - 1 - (bits - 1 - i) = i by omega]
  · have hzero : value.testBit i = false :=
      Nat.testBit_lt_two_pow (h.trans_le (Nat.pow_le_pow_right (by decide) (Nat.le_of_not_lt hi)))
    simp [hi, hzero]

theorem reverseLowBits_eq_zero (h : value < 2 ^ bits) :
    reverseLowBits value bits = 0 ↔ value = 0 := by
  refine ⟨fun hzero => ?_, fun hzero => hzero ▸ reverseLowBits_zero⟩
  rw [← reverseLowBits_reverseLowBits h, hzero, reverseLowBits_zero]

theorem reverseLowBits_two_pow : reverseLowBits (2 ^ bits) bits = 0 := by
  rw [← reverseLowBits_mod, Nat.mod_self, reverseLowBits_zero]

/-- In a wider range the reversal is shifted to the left. -/
theorem reverseLowBits_widen (hle : bits ≤ bits') (h : value < 2 ^ bits) :
    reverseLowBits value bits' = reverseLowBits value bits <<< (bits' - bits) := by
  apply Nat.eq_of_testBit_eq
  intro i
  rw [Nat.testBit_shiftLeft, testBit_reverseLowBits, testBit_reverseLowBits]
  by_cases hi : bits' - bits ≤ i
  · have hsub : bits - 1 - (i - (bits' - bits)) = bits' - 1 - i := by omega
    have hlt : i - (bits' - bits) < bits ↔ i < bits' := by omega
    simp [hi, hsub, hlt]
  · have hzero : value.testBit (bits' - 1 - i) = false :=
      Nat.testBit_lt_two_pow (h.trans_le (Nat.pow_le_pow_right (by decide) (by omega)))
    simp [hi, hzero]

/-- In a narrower range the reversal is shifted to the right. -/
theorem reverseLowBits_narrow (value : Nat) (hle : bits' ≤ bits) :
    reverseLowBits value bits' = reverseLowBits value bits >>> (bits - bits') := by
  apply Nat.eq_of_testBit_eq
  intro i
  rw [Nat.testBit_shiftRight, testBit_reverseLowBits, testBit_reverseLowBits]
  have hsub : bits - 1 - (bits - bits' + i) = bits' - 1 - i := by omega
  have hlt : bits - bits' + i < bits ↔ i < bits' := by omega
  simp [hsub, hlt]

/-- **The order survives a change of the range**: a value that a cursor has not passed is not passed
by the cursor in another range that has the value. -/
theorem reverseLowBits_le_of_le {cursor : Nat} (hcursor : cursor < 2 ^ bits)
    (hvalue : value < 2 ^ bits)
    (h : reverseLowBits cursor bits ≤ reverseLowBits value bits) :
    reverseLowBits (cursor % 2 ^ bits') bits' ≤ reverseLowBits value bits' := by
  rw [reverseLowBits_mod]
  rcases Nat.le_total bits bits' with hle | hle
  · rw [reverseLowBits_widen hle hcursor, reverseLowBits_widen hle hvalue, Nat.shiftLeft_eq,
      Nat.shiftLeft_eq]
    exact Nat.mul_le_mul_right _ h
  · rw [reverseLowBits_narrow cursor hle, reverseLowBits_narrow value hle,
      Nat.shiftRight_eq_div_pow, Nat.shiftRight_eq_div_pow]
    exact Nat.div_le_div_right h

end Reversal

end Senko
