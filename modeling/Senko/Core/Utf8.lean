import Senko.Lib.Bytes

/-!
# Senko — UTF-8 validation and lossy decoding

Keys, hash fields and sorted-set members are `CompactString`s: byte strings that are known to be
UTF-8. They enter the store through `std::str::from_utf8`, which refuses other bytes, or through
`String::from_utf8_lossy`, which replaces every maximal invalid run by U+FFFD.

Both scan the input one character at a time (`utf8Char`). The two facts the rest of the
development needs are that lossy decoding is the identity on valid input (`fromUtf8Lossy_of_valid`)
and that its output is valid (`validUtf8_fromUtf8Lossy`).
-/

namespace Senko

open List

/-! ## One character -/

/-- A lead byte: how many continuation bytes it owes, and the range of the first of them. -/
def utf8Lead (b : UInt8) : Option (Nat × UInt8 × UInt8) :=
  if b < 0x80 then some (0, 0x80, 0xBF)
  else if b < 0xC2 then none
  else if b < 0xE0 then some (1, 0x80, 0xBF)
  else if b < 0xF0 then
    -- no overlong forms after 0xE0, no surrogates after 0xED
    some (2, if b = 0xE0 then 0xA0 else 0x80, if b = 0xED then 0x9F else 0xBF)
  else if b < 0xF5 then
    -- no overlong forms after 0xF0, nothing above U+10FFFF after 0xF4
    some (3, if b = 0xF0 then 0x90 else 0x80, if b = 0xF4 then 0x8F else 0xBF)
  else none

/-- How many of the next `k` bytes continue the character; the first has its own range. -/
def utf8Tail : Nat → UInt8 → UInt8 → Bytes → Nat
  | k + 1, lo, hi, b :: bs => if lo ≤ b ∧ b ≤ hi then utf8Tail k 0x80 0xBF bs + 1 else 0
  | _, _, _, _ => 0

/-- Scan one character that starts with `b`: whether it is complete, and how many of the bytes
after `b` belong to it (or to the invalid run `b` starts). -/
def utf8Char (b : UInt8) (bs : Bytes) : Bool × Nat :=
  match utf8Lead b with
  | none => (false, 0)
  | some (k, lo, hi) => (utf8Tail k lo hi bs == k, utf8Tail k lo hi bs)

theorem utf8Tail_le_length (k : Nat) (lo hi : UInt8) (bs : Bytes) :
    utf8Tail k lo hi bs ≤ bs.length := by
  induction bs generalizing k lo hi with
  | nil => cases k <;> simp [utf8Tail]
  | cons b bs ih =>
    rcases k with _ | k
    · simp [utf8Tail]
    unfold utf8Tail
    split
    · have := ih k 0x80 0xBF
      simp only [length_cons]
      omega
    · simp

theorem utf8Char_le_length (b : UInt8) (bs : Bytes) : (utf8Char b bs).2 ≤ bs.length := by
  unfold utf8Char
  cases utf8Lead b with
  | none => simp
  | some r => exact utf8Tail_le_length r.1 r.2.1 r.2.2 bs

/-- A complete tail is read from its own bytes, whatever follows. -/
theorem utf8Tail_take (k : Nat) (lo hi : UInt8) (bs rest : Bytes)
    (h : utf8Tail k lo hi bs = k) : utf8Tail k lo hi (bs.take k ++ rest) = k := by
  induction bs generalizing k lo hi with
  | nil => cases k <;> simp_all [utf8Tail]
  | cons b bs ih =>
    rcases k with _ | k
    · cases rest <;> simp [utf8Tail]
    unfold utf8Tail at h
    split at h
    · rename_i hb
      simp only [take_succ_cons, cons_append, utf8Tail, hb, and_self, ↓reduceIte]
      rw [ih k 0x80 0xBF (by omega)]
    · omega

variable {bs : Bytes}

/-- **A complete character is read from its own bytes**, whatever follows. -/
theorem utf8Char_take {b : UInt8} {n : Nat} (h : utf8Char b bs = (true, n))
    (rest : Bytes) : utf8Char b (bs.take n ++ rest) = (true, n) := by
  unfold utf8Char at h ⊢
  rcases hlead : utf8Lead b with _ | r
  · simp [hlead] at h
  obtain ⟨k, lo, hi⟩ := r
  simp only [hlead, Prod.mk.injEq, beq_iff_eq] at h
  obtain ⟨hk, rfl⟩ := h
  simp only [hk, utf8Tail_take k lo hi bs rest hk, beq_self_eq_true]

/-! ## Whole inputs -/

def validUtf8Loop : Nat → Bytes → Bool
  | _, [] => true
  | 0, _ => false
  | fuel + 1, b :: bs =>
    (utf8Char b bs).1 && validUtf8Loop fuel (bs.drop (utf8Char b bs).2)

/-- `std::str::from_utf8(..).is_ok()`. -/
def validUtf8 (bs : Bytes) : Bool := validUtf8Loop bs.length bs

/-- U+FFFD. -/
def replacementChar : Bytes := [0xEF, 0xBF, 0xBD]

def fromUtf8LossyLoop : Nat → Bytes → Bytes
  | 0, _ => []
  | _, [] => []
  | fuel + 1, b :: bs =>
    (if (utf8Char b bs).1 then b :: bs.take (utf8Char b bs).2 else replacementChar) ++
      fromUtf8LossyLoop fuel (bs.drop (utf8Char b bs).2)

/-- `String::from_utf8_lossy`. -/
def fromUtf8Lossy (bs : Bytes) : Bytes := fromUtf8LossyLoop bs.length bs

/-- The scan needs no more fuel than there are bytes. -/
theorem validUtf8Loop_eq {fuel : Nat} (h : bs.length ≤ fuel) :
    validUtf8Loop fuel bs = validUtf8 bs := by
  have hsucc : ∀ fuel (bs : Bytes), bs.length ≤ fuel →
      validUtf8Loop (fuel + 1) bs = validUtf8Loop fuel bs := by
    intro fuel
    induction fuel with
    | zero =>
      intro bs hlen
      rw [length_eq_zero_iff.1 (Nat.le_zero.1 hlen)]
      rfl
    | succ fuel ih =>
      intro bs hlen
      cases bs with
      | nil => rfl
      | cons b bs =>
        simp only [length_cons] at hlen
        rw [validUtf8Loop, ih _ (by simp only [length_drop]; omega), validUtf8Loop]
  exact Nat.le_induction rfl (fun fuel hle ih => (hsucc fuel bs hle).trans ih) fuel h

/-- Validity one character at a time. -/
theorem validUtf8_cons (b : UInt8) (bs : Bytes) :
    validUtf8 (b :: bs) = ((utf8Char b bs).1 && validUtf8 (bs.drop (utf8Char b bs).2)) := by
  show validUtf8Loop (bs.length + 1) (b :: bs) = _
  unfold validUtf8Loop
  rw [validUtf8Loop_eq (by simp)]

/-- A complete character in front of valid text is valid text. -/
theorem validUtf8_char_append {b : UInt8} {n : Nat} (h : utf8Char b bs = (true, n)) (rest : Bytes) :
    validUtf8 (b :: bs.take n ++ rest) = validUtf8 rest := by
  have hn : n ≤ bs.length := by
    have := utf8Char_le_length b bs
    rwa [h] at this
  rw [cons_append, validUtf8_cons, utf8Char_take h rest]
  have hlen : (bs.take n).length = n := by simp [hn]
  simp [hlen]

/-- ASCII is valid. -/
theorem validUtf8_of_ascii (h : ∀ b ∈ bs, b < 0x80) : validUtf8 bs = true := by
  induction bs with
  | nil => rfl
  | cons b bs ih =>
    have hchar : utf8Char b bs = (true, 0) := by
      have hlead : utf8Lead b = some (0, 0x80, 0xBF) := if_pos (h b (by simp))
      rw [utf8Char, hlead]
      cases bs <;> rfl
    rw [validUtf8_cons, hchar]
    exact ih fun c hc => h c (by simp [hc])

/-- **Lossy decoding yields valid text.** -/
theorem validUtf8_fromUtf8Lossy (bs : Bytes) : validUtf8 (fromUtf8Lossy bs) = true := by
  suffices hloop : ∀ fuel (bs : Bytes), validUtf8 (fromUtf8LossyLoop fuel bs) = true from
    hloop _ bs
  intro fuel
  induction fuel with
  | zero => intro bs; rfl
  | succ fuel ih =>
    intro bs
    rcases bs with _ | ⟨b, bs⟩
    · rfl
    unfold fromUtf8LossyLoop
    split
    · rename_i hok
      have hchar : utf8Char b bs = (true, (utf8Char b bs).2) := by rw [← hok]
      rw [validUtf8_char_append hchar]
      exact ih _
    · -- U+FFFD is itself a complete three-byte character
      show validUtf8 (0xEF :: List.take 2 [0xBF, 0xBD] ++ _) = true
      rw [validUtf8_char_append (n := 2) (by decide)]
      exact ih _

/-- Lossy decoding keeps the text, or replaces a part of it that is not valid. -/
theorem fromUtf8Lossy_cases (bs : Bytes) :
    fromUtf8Lossy bs = bs ∨ 0xEF ∈ fromUtf8Lossy bs ∧ validUtf8 bs = false := by
  suffices hloop : ∀ fuel (bs : Bytes), bs.length ≤ fuel → fromUtf8LossyLoop fuel bs = bs ∨
      0xEF ∈ fromUtf8LossyLoop fuel bs ∧ validUtf8 bs = false from hloop _ bs le_rfl
  intro fuel
  induction fuel with
  | zero =>
    intro bs hlen
    exact .inl (length_eq_zero_iff.1 (Nat.le_zero.1 hlen)).symm
  | succ fuel ih =>
    intro bs hlen
    rcases bs with _ | ⟨b, bs⟩
    · exact .inl rfl
    simp only [length_cons] at hlen
    rw [validUtf8_cons]
    unfold fromUtf8LossyLoop
    split
    · rcases ih (bs.drop (utf8Char b bs).2) (by simp only [length_drop]; omega) with
        hsame | ⟨hmem, hbad⟩
      · rw [hsame, cons_append, take_append_drop]
        exact .inl rfl
      · exact .inr ⟨mem_append_right _ hmem, by rw [hbad, Bool.and_false]⟩
    · exact .inr ⟨by simp [replacementChar], by simp [*]⟩

/-- Lossy decoding keeps valid text. -/
theorem fromUtf8Lossy_of_valid (h : validUtf8 bs = true) : fromUtf8Lossy bs = bs :=
  (fromUtf8Lossy_cases bs).resolve_right fun hbad => by simp [h] at hbad

/-- Only ASCII decodes to ASCII. -/
theorem eq_of_fromUtf8Lossy_ascii (h : ∀ b ∈ fromUtf8Lossy bs, b < 0x80) : fromUtf8Lossy bs = bs :=
  (fromUtf8Lossy_cases bs).resolve_right fun hbad => absurd (h _ hbad.1) (by decide)

/-! ## Compact strings -/

/-- An owned UTF-8 string, by its bytes. -/
structure CompactString where
  bytes : Bytes
  valid : validUtf8 bytes = true
deriving DecidableEq

namespace CompactString

@[ext] theorem ext {s t : CompactString} (h : s.bytes = t.bytes) : s = t := by
  cases s
  cases t
  cases h
  rfl

/-- `std::str::from_utf8(bytes).ok()`, as a `CompactString`. -/
def fromUtf8 (bs : Bytes) : Option CompactString :=
  if h : validUtf8 bs = true then some ⟨bs, h⟩ else none

/-- `CompactString::from_utf8_lossy`. -/
def ofUtf8Lossy (bs : Bytes) : CompactString := ⟨fromUtf8Lossy bs, validUtf8_fromUtf8Lossy bs⟩

@[simp] theorem fromUtf8_bytes (s : CompactString) : fromUtf8 s.bytes = some s := by
  simp [fromUtf8, s.valid]

theorem fromUtf8_eq_some {bs : Bytes} {s : CompactString} (h : fromUtf8 bs = some s) :
    s.bytes = bs := by
  unfold fromUtf8 at h
  split at h
  · cases h
    rfl
  · cases h

@[simp] theorem ofUtf8Lossy_bytes (s : CompactString) : ofUtf8Lossy s.bytes = s :=
  ext (fromUtf8Lossy_of_valid s.valid)

end CompactString

end Senko
