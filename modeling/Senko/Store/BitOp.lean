import Mathlib.Tactic.IntervalCases
import Senko.Store.Bitmap

/-!
# Senko — bitwise operations on strings (`commands/bitmap.rs`)

`BITOP` computes eight bytes at a time. A source that ends inside of a word or before it is read as
if it went on with zeros, and the last word is cut to the length of the result. So the bits of the
result are those of the words (`getLsbD_applyBitopWord`), read at the byte they lie in.
-/

namespace Senko.Bitmap

open List

inductive BitOp where
  | and
  | or
  | xor
  | not
  | diff
  | diff1
  | andOr
  | one

/-- `u64::from_ne_bytes` on a little-endian machine. -/
def fromNeBytes (buf : Bytes) : BitVec 64 :=
  let byte (k : Nat) := (buf.getD k 0).toBitVec
  byte 7 ++ byte 6 ++ byte 5 ++ byte 4 ++ byte 3 ++ byte 2 ++ byte 1 ++ byte 0

/-- `u64::to_ne_bytes` -/
def toNeBytes (word : BitVec 64) : Bytes :=
  (range 8).map fun k => .ofBitVec (word.extractLsb' (8 * k) 8)

def paddedWord (data : Bytes) (offset : Nat) : BitVec 64 :=
  if data.length ≤ offset then 0#64 else fromNeBytes ((data.drop offset).take 8)

/-- One round of the loop of `ONE`: the bits of one source so far, and those of more. -/
def oneStep (acc : BitVec 64 × BitVec 64) (word : BitVec 64) : BitVec 64 × BitVec 64 :=
  let multiple := acc.2 ||| acc.1 &&& word
  ((acc.1 ^^^ word) &&& ~~~multiple, multiple)

def applyBitopWord (op : BitOp) (sources : List Bytes) (offset : Nat) : BitVec 64 :=
  let words := sources.map (paddedWord · offset)
  let first := words.headD 0#64
  let rest := words.tail.foldl (· ||| ·) 0#64
  match op with
  | .and => words.tail.foldl (· &&& ·) first
  | .or => words.tail.foldl (· ||| ·) first
  | .xor => words.tail.foldl (· ^^^ ·) first
  | .not => ~~~first
  | .diff => first &&& ~~~rest
  | .diff1 => ~~~first &&& rest
  | .andOr => first &&& rest
  | .one => (words.foldl oneStep (0#64, 0#64)).1

/-- `apply_bitop` from an offset on: whole words, and what is left of the last one. -/
def applyBitop (op : BitOp) (sources : List Bytes) (left offset : Nat) : Bytes :=
  if 8 ≤ left then
    toNeBytes (applyBitopWord op sources offset) ++ applyBitop op sources (left - 8) (offset + 8)
  else (toNeBytes (applyBitopWord op sources offset)).take left

/-- The string that `BITOP` stores. -/
def bitop (op : BitOp) (sources : List Bytes) : Bytes :=
  applyBitop op sources ((sources.map length).foldl max 0) 0

/-- **What an operation says of one bit**, given that bit of every source. -/
def BitOp.holds : BitOp → List Bool → Bool
  | .and, bits => bits.all id
  | .or, bits => bits.any id
  | .xor, bits => bits.foldl Bool.xor false
  | .not, bits => !bits.headD false
  | .diff, bits => bits.headD false && !bits.tail.any id
  | .diff1, bits => bits.tail.any id && !bits.headD false
  | .andOr, bits => bits.headD false && bits.tail.any id
  | .one, bits => bits.count true = 1

variable {op : BitOp} {sources : List Bytes} {words : List (BitVec 64)} {data : Bytes}
  {offset left k r : Nat}

theorem getLsbD_fromNeBytes (buf : Bytes) (hk : k < 8) (hr : r < 8) :
    (fromNeBytes buf).getLsbD (8 * k + r) = (buf.getD k 0).toBitVec.getLsbD r := by
  simp only [fromNeBytes, BitVec.getLsbD_append]
  interval_cases k <;> grind

/-- A source goes on with zeros. -/
theorem getLsbD_paddedWord (hk : k < 8) (hr : r < 8) :
    (paddedWord data offset).getLsbD (8 * k + r) =
      (data.getD (offset + k) 0).toBitVec.getLsbD r := by
  unfold paddedWord
  split
  · rw [getD_eq_getElem?_getD, getElem?_eq_none (by omega)]
    simp
  · rw [getLsbD_fromNeBytes _ hk hr, getD_eq_getElem?_getD, getElem?_take_of_lt hk, getElem?_drop,
      getD_eq_getElem?_getD]

section Words

variable {p : Nat} (word : BitVec 64)

theorem getLsbD_foldl_and :
    (words.foldl (· &&& ·) word).getLsbD p = (word.getLsbD p && words.all (·.getLsbD p)) := by
  induction words generalizing word with
  | nil => simp
  | cons other words ih => simp [ih, Bool.and_assoc]

theorem getLsbD_foldl_or :
    (words.foldl (· ||| ·) word).getLsbD p = (word.getLsbD p || words.any (·.getLsbD p)) := by
  induction words generalizing word with
  | nil => simp
  | cons other words ih => simp [ih, Bool.or_assoc]

theorem getLsbD_foldl_xor : (words.foldl (· ^^^ ·) word).getLsbD p =
    (words.map (·.getLsbD p)).foldl Bool.xor (word.getLsbD p) := by
  induction words generalizing word with
  | nil => rfl
  | cons other words ih => simp [ih]

/-- **The loop of `ONE`**: the first accumulator has the bits that one source has so far, the second
those that more have. -/
theorem getLsbD_foldl_oneStep (hp : p < 64) {n : Nat} {acc : BitVec 64 × BitVec 64}
    (hone : acc.1.getLsbD p = decide (n = 1)) (hmore : acc.2.getLsbD p = decide (2 ≤ n)) :
    (words.foldl oneStep acc).1.getLsbD p =
      decide (n + (words.map (·.getLsbD p)).count true = 1) := by
  induction words generalizing acc n with
  | nil => exact hone
  | cons word words ih =>
    have hn : (oneStep acc word).1.getLsbD p = decide (n + (word.getLsbD p).toNat = 1) ∧
        (oneStep acc word).2.getLsbD p = decide (2 ≤ n + (word.getLsbD p).toNat) := by
      simp only [oneStep, BitVec.getLsbD_and, BitVec.getLsbD_or, BitVec.getLsbD_xor,
        BitVec.getLsbD_not, hone, hmore, hp]
      cases word.getLsbD p <;> grind
    rw [foldl_cons, ih hn.1 hn.2, map_cons, count_cons]
    cases word.getLsbD p <;> grind

end Words

/-- The bits of a word, source by source. -/
theorem getLsbD_applyBitopWord {p : Nat} (hp : p < 64) (hne : sources ≠ []) :
    (applyBitopWord op sources offset).getLsbD p =
      op.holds ((sources.map (paddedWord · offset)).map (·.getLsbD p)) := by
  obtain ⟨data, rest, rfl⟩ := exists_cons_of_ne_nil hne
  cases op with
  | one =>
    rw [applyBitopWord, getLsbD_foldl_oneStep hp (n := 0) (by simp) (by simp), Nat.zero_add]
    rfl
  | _ =>
    simp [applyBitopWord, BitOp.holds, getLsbD_foldl_and, getLsbD_foldl_or, getLsbD_foldl_xor, hp,
      -BitVec.getLsbD_eq_getElem, Bool.and_comm, Function.comp_def]

/-! ## The bytes of the result -/

theorem length_toNeBytes (word : BitVec 64) : (toNeBytes word).length = 8 := by
  simp [toNeBytes]

theorem length_applyBitop : (applyBitop op sources left offset).length = left := by
  fun_induction applyBitop op sources left offset with
  | case1 left offset hw ih =>
    rw [length_append, ih, length_toNeBytes]
    omega
  | case2 left offset hw =>
    rw [length_take, length_toNeBytes]
    omega

theorem getLsbD_toNeBytes (hk : k < 8) (hr : r < 8) (hne : sources ≠ []) :
    ((toNeBytes (applyBitopWord op sources offset)).getD k 0).toBitVec.getLsbD r =
      op.holds (sources.map fun data => (data.getD (offset + k) 0).toBitVec.getLsbD r) := by
  have hbit (word : BitVec 64) :
      ((toNeBytes word).getD k 0).toBitVec.getLsbD r = word.getLsbD (8 * k + r) := by
    simp [toNeBytes, getElem?_range hk, hr]
  rw [hbit, getLsbD_applyBitopWord (by omega) hne, map_map]
  congr 1
  exact map_congr_left fun data _ => getLsbD_paddedWord hk hr

/-- **The loop over the words**: a byte of the result is read off the same byte of the sources. -/
theorem getLsbD_applyBitop (hk : k < left) (hr : r < 8) (hne : sources ≠ []) :
    ((applyBitop op sources left offset).getD k 0).toBitVec.getLsbD r =
      op.holds (sources.map fun data => (data.getD (offset + k) 0).toBitVec.getLsbD r) := by
  fun_induction applyBitop op sources left offset generalizing k with
  | case1 left offset hw ih =>
    rcases Nat.lt_or_ge k 8 with h8 | h8
    · rw [← getLsbD_toNeBytes h8 hr hne, getD_eq_getElem?_getD,
        getElem?_append_left (by rwa [length_toNeBytes]), getD_eq_getElem?_getD]
    · rw [show offset + k = offset + 8 + (k - 8) by omega, ← ih (by omega), getD_eq_getElem?_getD,
        getElem?_append_right (by rwa [length_toNeBytes]), length_toNeBytes, getD_eq_getElem?_getD]
  | case2 left offset hw =>
    rw [← getLsbD_toNeBytes (by omega) hr hne, getD_eq_getElem?_getD, getElem?_take_of_lt hk,
      getD_eq_getElem?_getD]

/-- **`BITOP` stores the operation's bits**: the result is as long as the longest source, and each
of its bits is what the operation says of that bit of every source, zero past the end of one. -/
theorem bitop_exact (op : BitOp) (sources : List Bytes) :
    (bitop op sources).length = (sources.map length).foldl max 0 ∧
      ∀ i < 8 * (bitop op sources).length,
        bitAt (bitop op sources) i = op.holds (sources.map (bitAt · i)) := by
  refine ⟨length_applyBitop, fun i hi => ?_⟩
  rw [bitop, length_applyBitop] at hi
  have hne : sources ≠ [] := by
    rintro rfl
    simp at hi
  have hk : i / 8 < (sources.map length).foldl max 0 := by omega
  have hr : 7 - i % 8 < 8 := by omega
  have h : ((applyBitop op sources _ 0).getD (i / 8) 0).toBitVec.getLsbD (7 - i % 8) = _ :=
    getLsbD_applyBitop hk hr hne
  simpa [bitAt, bitop, BitVec.getMsbD, Nat.mod_lt] using h

end Senko.Bitmap
