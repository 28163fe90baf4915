import Senko.Lib.Bytes

/-!
# Senko — the first bit of a string (`commands/bitmap.rs`)

`BITPOS` searches a range of a string for a bit. The search is cut into the first byte, whole words
and bytes, and the last byte; each piece returns the first position it finds, counted from a base of
its own. A piece is therefore stated as the first position of a range of bits that satisfies a
predicate, shifted by the base, and the pieces are put together by splitting the range.

A range that starts and ends in one byte takes its first position as the base and not the first
position of the byte: what is found there is off by the position of the start in its byte.
-/

namespace Senko.Bitmap

open List Option

inductive RangeUnit where
  | byte
  | bit
  deriving DecidableEq

/-! ## The first position of a range -/

/-- The first of `n` positions from `a` on that satisfies a predicate. -/
def firstFrom (p : Nat → Bool) (a n : Nat) : Option Nat := (List.range' a n).find? p

section FirstFrom

variable {p q : Nat → Bool} {a n : Nat}

theorem firstFrom_eq_none : firstFrom p a n = none ↔ ∀ i, a ≤ i → i < a + n → p i = false := by
  simp [firstFrom]

theorem firstFrom_add (p : Nat → Bool) (a m n : Nat) :
    firstFrom p a (m + n) = (firstFrom p a m).or (firstFrom p (a + m) n) := by
  rw [firstFrom, ← range'_append_1, find?_append]
  rfl

theorem firstFrom_shift (p : Nat → Bool) (base a n : Nat) :
    firstFrom p (base + a) n = (firstFrom (fun i => p (base + i)) a n).map (base + ·) := by
  rw [firstFrom, ← map_add_range', find?_map]
  rfl

theorem firstFrom_congr (h : ∀ i, a ≤ i → i < a + n → p i = q i) :
    firstFrom p a n = firstFrom q a n := by
  cases hq : firstFrom q a n with
  | none =>
    rw [firstFrom_eq_none] at hq ⊢
    intro i hle hlt
    rw [h i hle hlt, hq i hle hlt]
  | some i =>
    rw [firstFrom, find?_range'_eq_some] at hq ⊢
    have hmem := mem_range'_1.1 hq.2.1
    refine ⟨(h i hmem.1 hmem.2).trans hq.1, hq.2.1, fun j hle hlt => ?_⟩
    rw [h j hle (by omega)]
    exact hq.2.2 j hle hlt

/-- Only the positions inside of a range can be found. -/
theorem firstFrom_inside {s e : Nat} (hse : s ≤ e) (he : e < n)
    (h : ∀ i, i < n → p i = (decide (s ≤ i ∧ i ≤ e) && q i)) :
    firstFrom p 0 n = firstFrom q s (e + 1 - s) := by
  rw [show n = s + ((e + 1 - s) + (n - 1 - e)) by omega, firstFrom_add, firstFrom_add,
    Nat.zero_add, firstFrom_eq_none.2, firstFrom_eq_none (n := n - 1 - e) |>.2, or_none]
  · apply firstFrom_congr
    intro i hle hlt
    rw [h i (by omega), decide_eq_true (by omega), Bool.true_and]
  · intro i hle hlt
    rw [h i (by omega), decide_eq_false (by omega), Bool.false_and]
  · intro i hle hlt
    rw [h i (by omega), decide_eq_false (by omega), Bool.false_and]

end FirstFrom

/-! ## Bytes -/

/-- The mask loop of `masked_byte`: `n` bits from bit `start` on, the highest bit being bit 0. -/
def bitMask (start : Nat) : Nat → BitVec 8
  | 0 => 0#8
  | n + 1 => bitMask start n ||| 1#8 <<< (7 - (start + n))

def maskedByte (byte : BitVec 8) (startBitInByte endBitInByte : Nat) : BitVec 8 :=
  byte &&& bitMask startBitInByte (endBitInByte + 1 - startBitInByte)

/-- `u8::leading_zeros`. -/
def leadingZeros (byte : BitVec 8) : Nat := (firstFrom byte.getMsbD 0 8).getD 8

/-- A position, or `-1`. -/
def position : Option Nat → Int
  | none => -1
  | some i => i

def scanByteRange (byte : BitVec 8) (target : Bool) (startBitInByte endBitInByte baseBit : Nat) :
    Int :=
  let relevant := maskedByte byte startBitInByte endBitInByte
  let candidate := if target then relevant else ~~~relevant
  let mask := maskedByte 0xFF#8 startBitInByte endBitInByte
  let candidate := candidate &&& mask
  if candidate = 0#8 then -1 else (baseBit + leadingZeros candidate : Nat)

/-- The bits of a byte that equal the target. -/
def candidate (target : Bool) (byte : UInt8) : BitVec 8 :=
  if target then byte.toBitVec else ~~~byte.toBitVec

/-- `scan_full_bytes` on what follows the offset, with the index of its first bit: whole words, and
then the bytes that do not fill a word. A word is its eight bytes, since it is read and taken apart
in the byte order of the machine. -/
def scanFullBytes (target : Bool) : Bytes → Nat → Int
  | b0 :: b1 :: b2 :: b3 :: b4 :: b5 :: b6 :: b7 :: rest, baseBit =>
    let word := [b0, b1, b2, b3, b4, b5, b6, b7].map (candidate target)
    match word.findIdx? (· ≠ 0#8) with
    | some byteIndex => (baseBit + byteIndex * 8 + leadingZeros (word.getD byteIndex 0#8) : Nat)
    | none => scanFullBytes target rest (baseBit + 64)
  | byte :: rest, baseBit =>
    let found := scanByteRange byte.toBitVec target 0 7 baseBit
    if 0 ≤ found then found else scanFullBytes target rest (baseBit + 8)
  | [], _ => -1

def findFirstInBitRange (data : Bytes) (target : Bool) (bitStart bitEnd : Nat) : Int :=
  let startByte := bitStart / 8
  let endByte := bitEnd / 8
  let byteAt (i : Nat) := (data.getD i 0).toBitVec
  if startByte = endByte then
    scanByteRange (byteAt startByte) target (bitStart % 8) (bitEnd % 8) bitStart
  else
    let first := maskedByte (byteAt startByte) (bitStart % 8) 7
    let found := scanByteRange first target (bitStart % 8) 7 (startByte * 8)
    if 0 ≤ found then found
    else
      let middle := (data.take endByte).drop (startByte + 1)
      let found := if endByte > startByte + 1
        then scanFullBytes target middle ((startByte + 1) * 8) else -1
      if 0 ≤ found then found
      else
        let last := maskedByte (byteAt endByte) 0 (bitEnd % 8)
        scanByteRange last target 0 (bitEnd % 8) (endByte * 8)

def normaliseRange (start stop : Int) (len : Nat) (unit : RangeUnit) : Option (Nat × Nat) :=
  let len : Int := match unit with
    | .byte => len
    | .bit => len * 8
  if len = 0 then none
  else
    let start := if start < 0 then len + start else start
    let stop := if stop < 0 then len + stop else stop
    let start := if start < 0 then 0 else start
    let stop := if stop < 0 then 0 else stop
    if start ≥ len then none
    else
      let stop := if stop ≥ len then len - 1 else stop
      if start > stop then none else some (start.toNat, stop.toNat)

/-- The end of the search: the last unit of the string if none is given. -/
def searchEnd (data : Bytes) (stop : Option Int) (unit : RangeUnit) : Int :=
  stop.getD (match unit with
    | .byte => (data.length - 1 : Nat)
    | .bit => (data.length * 8 - 1 : Nat))

/-- The normalised range in bits. -/
def bitRange (unit : RangeUnit) (range : Nat × Nat) : Nat × Nat :=
  match unit with
  | .byte => (range.1 * 8, range.2 * 8 + 7)
  | .bit => range

def findFirstBit (data : Bytes) (target : Bool) (start : Int) (stop : Option Int)
    (unit : RangeUnit) : Int :=
  if data.isEmpty then if target then -1 else 0
  else
    match normaliseRange start (searchEnd data stop unit) data.length unit with
    | none => -1
    | some range =>
      let bits := bitRange unit range
      let found := findFirstInBitRange data target bits.1 bits.2
      if 0 ≤ found then found
      else if target = false ∧ stop.isNone then (data.length * 8 : Nat) else -1

/-! ## The pieces -/

theorem getMsbD_bitMask {start n i : Nat} (h : start + n ≤ 8) :
    (bitMask start n).getMsbD i = decide (start ≤ i ∧ i < start + n) := by
  induction n with
  | zero =>
    rw [bitMask, BitVec.getMsbD_zero]
    simp
  | succ n ih =>
    rw [bitMask, BitVec.getMsbD_or, ih (by omega), BitVec.getMsbD_shiftLeft, BitVec.getMsbD_one]
    grind

theorem getMsbD_maskedByte {byte : BitVec 8} {s e i : Nat} (he : e < 8) (hse : s ≤ e) :
    (maskedByte byte s e).getMsbD i = (byte.getMsbD i && decide (s ≤ i ∧ i ≤ e)) := by
  rw [maskedByte, BitVec.getMsbD_and, getMsbD_bitMask (by omega)]
  congr 2
  apply propext
  omega

/-- The leading zeros of a byte that is not zero count the bits before its first one. -/
theorem firstFrom_getMsbD (byte : BitVec 8) :
    firstFrom byte.getMsbD 0 8 = if byte = 0#8 then none else some (leadingZeros byte) := by
  by_cases h : byte = 0#8
  · rw [if_pos h, firstFrom_eq_none, h]
    exact fun i _ _ => BitVec.getMsbD_zero
  rw [if_neg h, leadingZeros]
  cases hfirst : firstFrom byte.getMsbD 0 8 with
  | some i => rfl
  | none =>
    refine absurd (BitVec.eq_of_getMsbD_eq fun i hi => ?_) h
    rw [firstFrom_eq_none.1 hfirst i (Nat.zero_le i) (by omega), BitVec.getMsbD_zero]

/-- The bits outside of the mask are no candidates, so only the masked ones are searched. -/
theorem scanByteRange_eq {byte : BitVec 8} {target : Bool} {s e base : Nat} (he : e < 8)
    (hse : s ≤ e) : scanByteRange byte target s e base =
      position ((firstFrom (fun i => byte.getMsbD i == target) s (e + 1 - s)).map (base + ·)) := by
  unfold scanByteRange
  extract_lets relevant candidate mask found
  have hbit : ∀ i, i < 8 → found.getMsbD i =
      (decide (s ≤ i ∧ i ≤ e) && (byte.getMsbD i == target)) := by
    intro i hi
    show (candidate &&& maskedByte 0xFF#8 s e).getMsbD i = _
    rw [BitVec.getMsbD_and, getMsbD_maskedByte he hse]
    have hones : (0xFF#8).getMsbD i = true := by
      rw [show 0xFF#8 = BitVec.allOnes 8 from rfl, BitVec.getMsbD_allOnes, decide_eq_true hi]
    have hcandidate : candidate.getMsbD i = if target then relevant.getMsbD i
        else !relevant.getMsbD i := by
      cases target
      · show (~~~relevant).getMsbD i = _
        simp [hi]
      · rfl
    rw [hones, hcandidate, getMsbD_maskedByte he hse]
    cases target <;> cases byte.getMsbD i <;> cases decide (s ≤ i ∧ i ≤ e) <;> rfl
  rw [← firstFrom_inside hse he hbit, firstFrom_getMsbD]
  split <;> rfl

/-- **Trying one piece after the other**: the second one is asked if the first one finds nothing. -/
theorem position_or (o o' : Option Nat) :
    (if 0 ≤ position o then position o else position o') = position (o.or o') := by
  cases o with
  | none => rfl
  | some i => exact if_pos (Int.natCast_nonneg i)

/-! ## Whole bytes -/

/-- The bit of a string at an index. -/
def bitAt (data : Bytes) (i : Nat) : Bool := (data.getD (i / 8) 0).toBitVec.getMsbD (i % 8)

/-- The first bit of a string that equals the target. -/
def firstBit (target : Bool) (data : Bytes) : Option Nat :=
  firstFrom (fun i => bitAt data i == target) 0 (data.length * 8)

variable (target : Bool)

/-- The bits of one byte of a string. -/
theorem firstFrom_byte (data : Bytes) (k s n : Nat) (hn : s + n ≤ 8) :
    firstFrom (fun i => bitAt data i == target) (k * 8 + s) n =
      (firstFrom (fun i => (data.getD k 0).toBitVec.getMsbD i == target) s n).map (k * 8 + ·) := by
  rw [firstFrom_shift]
  congr 1
  apply firstFrom_congr
  intro i _ hlt
  rw [bitAt, show (k * 8 + i) / 8 = k by omega, show (k * 8 + i) % 8 = i by omega]

theorem firstFrom_candidate (byte : UInt8) :
    firstFrom (fun i => byte.toBitVec.getMsbD i == target) 0 8 =
      if candidate target byte = 0#8 then none
      else some (leadingZeros (candidate target byte)) := by
  rw [← firstFrom_getMsbD]
  apply firstFrom_congr
  intro i _ hlt
  rw [candidate]
  cases target <;> simp [show i < 8 by omega]

theorem firstBit_cons (byte : UInt8) (rest : Bytes) : firstBit target (byte :: rest) =
      (firstFrom (fun i => byte.toBitVec.getMsbD i == target) 0 8).or
        ((firstBit target rest).map (8 + ·)) := by
  have hfirst := firstFrom_byte target (byte :: rest) 0 0 8 le_rfl
  have hrest : firstFrom (fun i => bitAt (byte :: rest) i == target) (8 + 0) (rest.length * 8) =
      (firstBit target rest).map (8 + ·) := by
    rw [firstFrom_shift, firstBit]
    congr 1
    apply firstFrom_congr
    intro i _ _
    rw [bitAt, bitAt, show (8 + i) / 8 = i / 8 + 1 by omega, getD_cons_succ,
      show (8 + i) % 8 = i % 8 by omega]
  rw [firstBit, length_cons, Nat.succ_mul, Nat.add_comm _ 8, firstFrom_add, ← hrest]
  simpa using congrArg (Option.or · _) hfirst

/-- **Bytes before the first candidate** are skipped, as the words without a candidate are. -/
theorem firstBit_append (word rest : Bytes) : firstBit target (word ++ rest) =
      match (word.map (candidate target)).findIdx? (· ≠ 0#8) with
      | some i => some (i * 8 + leadingZeros ((word.map (candidate target)).getD i 0#8))
      | none => (firstBit target rest).map (word.length * 8 + ·) := by
  induction word with
  | nil => simp
  | cons byte word ih =>
    rw [cons_append, firstBit_cons, ih, firstFrom_candidate, map_cons, findIdx?_cons]
    by_cases hzero : candidate target byte = 0#8
    · rw [if_pos hzero, none_or, if_neg (by simpa using hzero)]
      cases hidx : (word.map (candidate target)).findIdx? (· ≠ 0#8) with
      | none =>
        simp only [Option.map_map]
        congr 1
        funext i
        show 8 + (word.length * 8 + i) = (word.length + 1) * 8 + i
        omega
      | some i =>
        simp only [map_some, getD_cons_succ]
        congr 1
        omega
    · rw [if_neg hzero, if_pos (by simpa using hzero)]
      simp

theorem scanFullBytes_eq (data : Bytes) (base : Nat) :
    scanFullBytes target data base = position ((firstBit target data).map (base + ·)) := by
  fun_induction scanFullBytes target data base with
  | case1 b0 b1 b2 b3 b4 b5 b6 b7 rest base word index hindex =>
    have hfirst := firstBit_append target [b0, b1, b2, b3, b4, b5, b6, b7] rest
    rw [show (List.map _ _).findIdx? _ = some index from hindex] at hfirst
    simp only [cons_append, nil_append] at hfirst
    rw [hfirst, Nat.add_assoc]
    rfl
  | case2 b0 b1 b2 b3 b4 b5 b6 b7 rest base word hindex ih =>
    have hfirst := firstBit_append target [b0, b1, b2, b3, b4, b5, b6, b7] rest
    rw [show (List.map _ _).findIdx? _ = none from hindex] at hfirst
    simp only [cons_append, nil_append] at hfirst
    rw [hfirst, ih, Option.map_map]
    congr 2
    funext i
    exact Nat.add_assoc base 64 i
  | case3 byte rest base _ found hfound =>
    have hbyte : found = _ := scanByteRange_eq (by decide) (Nat.zero_le 7)
    rw [firstBit_cons, map_or, ← position_or, ← hbyte, if_pos hfound]
  | case4 byte rest base _ found hfound ih =>
    have hbyte : found = _ := scanByteRange_eq (by decide) (Nat.zero_le 7)
    rw [firstBit_cons, map_or, ← position_or, ← hbyte, if_neg hfound, ih, Option.map_map]
    congr 2
    funext i
    exact Nat.add_assoc base 8 i
  | case5 base => rfl

/-! ## The range -/

/-- The first and the last byte of a range are masked and then searched from their own start. -/
theorem scanByteRange_maskedByte (data : Bytes) (k : Nat) {s e : Nat} (he : e < 8) (hse : s ≤ e) :
    scanByteRange (maskedByte (data.getD k 0).toBitVec s e) target s e (k * 8) =
      position (firstFrom (fun i => bitAt data i == target) (k * 8 + s) (e + 1 - s)) := by
  rw [scanByteRange_eq he hse, firstFrom_byte target data k s (e + 1 - s) (by omega)]
  congr 2
  apply firstFrom_congr
  intro i hle hlt
  rw [getMsbD_maskedByte he hse, decide_eq_true (by omega), Bool.and_true]

theorem firstBit_slice {data : Bytes} {a b : Nat} (hb : b ≤ data.length) :
    (firstBit target ((data.take b).drop a)).map (a * 8 + ·) =
      firstFrom (fun i => bitAt data i == target) (a * 8) ((b - a) * 8) := by
  have hlen : ((data.take b).drop a).length = b - a := by
    rw [length_drop, length_take]
    omega
  rw [firstBit, hlen, ← Nat.add_zero (a * 8), firstFrom_shift]
  congr 1
  apply firstFrom_congr
  intro i _ hlt
  have hbyte : ((data.take b).drop a).getD (i / 8) 0 = data.getD (a + i / 8) 0 := by
    rw [getD_eq_getElem?_getD, getElem?_drop, getElem?_take,
      if_pos (by omega), ← getD_eq_getElem?_getD]
  rw [bitAt, bitAt, hbyte, show (a * 8 + i) / 8 = a + i / 8 by omega,
    show (a * 8 + i) % 8 = i % 8 by omega]

/-- **The search of a range.** A range within one byte adds the position of its start in the byte
to what it finds. -/
theorem findFirstInBitRange_eq {data : Bytes} {s e : Nat} (hse : s ≤ e)
    (hlen : e / 8 < data.length) :
    findFirstInBitRange data target s e =
      position ((firstFrom (fun i => bitAt data i == target) s (e + 1 - s)).map
        ((if s / 8 = e / 8 then s % 8 else 0) + ·)) := by
  unfold findFirstInBitRange
  extract_lets startByte endByte byteAt first foundFirst middle found last
  by_cases hsame : startByte = endByte
  · rw [if_pos hsame, if_pos hsame, scanByteRange_eq (by omega) (by omega)]
    have hbyte := firstFrom_byte target data startByte (s % 8) (e % 8 + 1 - s % 8) (by omega)
    rw [show startByte * 8 + s % 8 = s by omega,
      show e % 8 + 1 - s % 8 = e + 1 - s by omega] at hbyte
    rw [hbyte, Option.map_map, show e % 8 + 1 - s % 8 = e + 1 - s by omega]
    congr 2
    funext i
    show s + i = s % 8 + (startByte * 8 + i)
    omega
  have hfirst : foundFirst = _ := scanByteRange_maskedByte target data _ (by decide) (by omega)
  have hmiddle : found = position (firstFrom (fun i => bitAt data i == target)
      ((startByte + 1) * 8) ((endByte - (startByte + 1)) * 8)) := by
    by_cases hmore : endByte > startByte + 1
    · rw [← firstBit_slice target (le_of_lt hlen), ← scanFullBytes_eq]
      exact if_pos hmore
    · rw [show endByte - (startByte + 1) = 0 by omega]
      exact if_neg hmore
  have hlast := scanByteRange_maskedByte target data endByte (show e % 8 < 8 by omega)
    (Nat.zero_le (e % 8))
  rw [if_neg hsame, if_neg hsame, hlast, hfirst, hmiddle, position_or, position_or,
    show e + 1 - s = (7 + 1 - s % 8) + ((endByte - (startByte + 1)) * 8 + (e % 8 + 1 - 0)) by
      omega, firstFrom_add, firstFrom_add]
  rw [show startByte * 8 + s % 8 = s by omega,
    show s + (7 + 1 - s % 8) = (startByte + 1) * 8 by omega,
    show (startByte + 1) * 8 + (endByte - (startByte + 1)) * 8 = endByte * 8 + 0 by omega]
  simp

/-! ## BITPOS -/

theorem normaliseRange_le {start stop : Int} {len : Nat} {unit : RangeUnit} {range : Nat × Nat}
    (h : normaliseRange start stop len unit = some range) :
    (bitRange unit range).1 ≤ (bitRange unit range).2 ∧ (bitRange unit range).2 / 8 < len := by
  unfold normaliseRange at h
  cases unit <;> grind [bitRange]

/-- **What `BITPOS` is for**: the least index in the normalised range whose bit is the target. -/
def bitpos (data : Bytes) (target : Bool) (start : Int) (stop : Option Int) (unit : RangeUnit) :
    Int :=
  if data = [] then if target then -1 else 0
  else
    match normaliseRange start (searchEnd data stop unit) data.length unit with
    | none => -1
    | some range =>
      let bits := bitRange unit range
      match firstFrom (fun i => bitAt data i == target) bits.1 (bits.2 + 1 - bits.1) with
      | some i => i
      | none => if target = false ∧ stop = none then (data.length * 8 : Nat) else -1

/-- The normalised range lies in one byte, does not start at its first bit, and has the target. -/
def OffsetInByte (data : Bytes) (target : Bool) (start : Int) (stop : Option Int)
    (unit : RangeUnit) : Prop :=
  ∃ range, normaliseRange start (searchEnd data stop unit) data.length unit = some range ∧
    let bits := bitRange unit range
    bits.1 / 8 = bits.2 / 8 ∧ bits.1 % 8 ≠ 0 ∧ ∃ i, bits.1 ≤ i ∧ i ≤ bits.2 ∧ bitAt data i = target

/-- **`BITPOS` returns the first matching bit** exactly if the range is not in the middle of one
byte, or has no such bit. -/
theorem find_first_bit_exact (data : Bytes) (target : Bool) (start : Int) (stop : Option Int)
    (unit : RangeUnit) :
    findFirstBit data target start stop unit = bitpos data target start stop unit ↔
      ¬ OffsetInByte data target start stop unit := by
  by_cases hdata : data = []
  · -- no bits: the range is empty
    subst hdata
    have hnone : normaliseRange start (searchEnd [] stop unit) 0 unit = none := by
      cases unit <;> rfl
    simp [findFirstBit, bitpos, OffsetInByte, hnone]
  rw [findFirstBit, if_neg (by simpa using hdata), bitpos, if_neg hdata, OffsetInByte]
  rcases hrange : normaliseRange start (searchEnd data stop unit) data.length unit with _ | range
  · simp
  obtain ⟨hle, hlen⟩ := normaliseRange_le hrange
  simp only [Option.some.injEq, exists_eq_left']
  rw [findFirstInBitRange_eq target hle hlen]
  generalize bitRange unit range = bits at hle
  rcases hfirst : firstFrom (fun i => bitAt data i == target) bits.1 (bits.2 + 1 - bits.1) with
    _ | i
  · refine iff_of_true (by simp [position]) ?_
    rintro ⟨-, -, i, hle, hlt, hbit⟩
    have hnot := firstFrom_eq_none.1 hfirst i hle (by omega)
    simp [hbit] at hnot
  obtain ⟨hbit, hmem, -⟩ := find?_range'_eq_some.1 hfirst
  rw [mem_range'_1] at hmem
  have htarget : ∃ i, bits.1 ≤ i ∧ i ≤ bits.2 ∧ bitAt data i = target :=
    ⟨i, hmem.1, by omega, by simpa using hbit⟩
  rw [map_some, position, if_pos (Int.natCast_nonneg _)]
  simp only [htarget, Int.natCast_inj]
  by_cases hsame : bits.1 / 8 = bits.2 / 8 <;> simp [hsame]

theorem find_first_bit_exact_fails :
    ¬ ∀ (data : Bytes) (target : Bool) (start : Int) (stop : Option Int) (unit : RangeUnit),
      findFirstBit data target start stop unit = bitpos data target start stop unit := by
  intro h
  exact absurd (h [0xFF] true 1 (some 2) .bit) (by decide)

end Senko.Bitmap
