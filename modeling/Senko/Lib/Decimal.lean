import Senko.Lib.Bytes
import Mathlib.Data.Nat.Digits.Lemmas

/-!
# Decimal numerals

Reading and writing of natural numbers and of 64-bit integers in ASCII decimal. A numeral has one
plain spelling: no `+`, no leading zero and no `-0`. The plain spellings are exactly those that are
written back as they were read.
-/

namespace Senko

open List Option

/-! ## Natural numbers -/

def isDigit (b : UInt8) : Bool := 0x30 ≤ b.toNat && b.toNat ≤ 0x39

def digitValue (b : UInt8) : Nat := b.toNat - 0x30

def digitByte (d : Nat) : UInt8 := UInt8.ofNat (0x30 + d)

/-- The value of a digit string, most significant digit first. -/
def ofDecimal (ds : Bytes) : Nat := ds.foldl (fun n b => 10 * n + digitValue b) 0

/-- The digits of a number, most significant digit first. -/
def toDecimal (n : Nat) : Bytes :=
  if n = 0 then [0x30] else ((Nat.digits 10 n).map digitByte).reverse

theorem digitValue_digitByte {d : Nat} (h : d < 10) : digitValue (digitByte d) = d := by
  rw [digitValue, digitByte, UInt8.toNat_ofNat']
  omega

variable {b : UInt8} {n : Nat} {text : Bytes} {i : Int}

theorem digitByte_digitValue (h : isDigit b = true) : digitByte (digitValue b) = b := by
  rw [isDigit, Bool.and_eq_true, decide_eq_true_eq, decide_eq_true_eq] at h
  apply UInt8.toNat_inj.1
  rw [digitByte, digitValue, UInt8.toNat_ofNat']
  omega

theorem digitValue_lt (h : isDigit b = true) : digitValue b < 10 := by
  rw [isDigit, Bool.and_eq_true, decide_eq_true_eq, decide_eq_true_eq] at h
  rw [digitValue]
  omega

theorem ofDecimal_eq_ofDigits (ds : Bytes) :
    ofDecimal ds = Nat.ofDigits 10 (ds.map digitValue).reverse := by
  induction ds using List.reverseRecOn with
  | nil => rfl
  | append_singleton ds b ih =>
    rw [ofDecimal, foldl_append, ← ofDecimal, ih]
    simp [Nat.ofDigits_cons, Nat.add_comm]

/-- A number other than zero is written without a leading zero. -/
theorem head?_toDecimal_ne (hn : n ≠ 0) : (toDecimal n).head? ≠ some 0x30 := by
  have hdig : Nat.digits 10 n ≠ [] := Nat.digits_ne_nil_iff_ne_zero.2 hn
  have hlt : (Nat.digits 10 n).getLast hdig < 10 :=
    Nat.digits_lt_base (by norm_num) (getLast_mem hdig)
  rw [toDecimal, if_neg hn, head?_reverse, getLast?_map, getLast?_eq_getLast_of_ne_nil hdig]
  intro hhead
  have hvalue := digitValue_digitByte hlt
  rw [Option.some.inj hhead] at hvalue
  exact Nat.getLast_digit_ne_zero 10 hn hvalue.symm

/-- **A digit string is written back** unless it has a leading zero. -/
theorem toDecimal_ofDecimal {ds : Bytes} (hdigits : ∀ b ∈ ds, isDigit b = true) (hne : ds ≠ []) :
    toDecimal (ofDecimal ds) = ds ↔ ds = [0x30] ∨ ds.head? ≠ some 0x30 := by
  constructor
  · intro h
    by_cases hzero : ofDecimal ds = 0
    · rw [hzero, toDecimal, if_pos rfl] at h
      exact .inl h.symm
    · have hhead := head?_toDecimal_ne hzero
      rw [h] at hhead
      exact .inr hhead
  · intro h
    rcases h with rfl | hhead
    · rfl
    obtain ⟨b, rest, rfl⟩ := exists_cons_of_ne_nil hne
    have hb := hdigits b (by simp)
    have hvalue : digitValue b ≠ 0 := by
      intro h0
      have := digitByte_digitValue hb
      rw [h0] at this
      exact hhead (by rw [← this]; rfl)
    have hdig : Nat.digits 10 (ofDecimal (b :: rest)) = ((b :: rest).map digitValue).reverse := by
      rw [ofDecimal_eq_ofDigits]
      apply Nat.digits_ofDigits 10 (by norm_num)
      · intro d hd
        rw [mem_reverse, List.mem_map] at hd
        obtain ⟨c, hc, rfl⟩ := hd
        exact digitValue_lt (hdigits c hc)
      · simpa using hvalue
    have hpos : ofDecimal (b :: rest) ≠ 0 := by
      rw [← Nat.digits_ne_nil_iff_ne_zero (b := 10), hdig]
      simp
    rw [toDecimal, if_neg hpos, hdig, map_reverse, reverse_reverse, List.map_map]
    calc (b :: rest).map (digitByte ∘ digitValue)
        = (b :: rest).map id :=
          map_congr_left fun c hc => digitByte_digitValue (hdigits c hc)
      _ = b :: rest := List.map_id _

/-- What is written is all digits. -/
theorem isDigit_of_mem_toDecimal (h : b ∈ toDecimal n) : isDigit b = true := by
  rw [toDecimal] at h
  split at h
  · obtain rfl := mem_singleton.1 h
    rfl
  rw [mem_reverse, List.mem_map] at h
  obtain ⟨d, hd, rfl⟩ := h
  have hlt : d < 10 := Nat.digits_lt_base (by norm_num) hd
  rw [isDigit, digitByte, UInt8.toNat_ofNat', Bool.and_eq_true, decide_eq_true_eq,
    decide_eq_true_eq]
  omega

theorem toDecimal_ne_nil (n : Nat) : toDecimal n ≠ [] := by
  rw [toDecimal]
  split
  · simp
  · rename_i hn
    simpa [Nat.digits_eq_nil_iff_eq_zero] using hn

/-- **A number is read back as it was written.** -/
theorem ofDecimal_toDecimal (n : Nat) : ofDecimal (toDecimal n) = n := by
  rw [ofDecimal_eq_ofDigits, toDecimal]
  split
  · rename_i hn
    rw [hn]
    rfl
  · have hdigits : (Nat.digits 10 n).map (digitValue ∘ digitByte) = Nat.digits 10 n := by
      conv_rhs => rw [← List.map_id (Nat.digits 10 n)]
      exact map_congr_left fun d hd =>
        digitValue_digitByte (Nat.digits_lt_base (by norm_num) hd)
    rw [map_reverse, reverse_reverse, List.map_map, hdigits, Nat.ofDigits_digits]

/-! ## Signed 64-bit integers -/

/-- A nonempty string of digits. -/
def parseDigits (ds : Bytes) : Option Nat :=
  if ds ≠ [] ∧ ∀ b ∈ ds, isDigit b = true then some (ofDecimal ds) else none

/-- `str::parse::<i64>`: an optional sign and digits, within range. -/
def parseI64 : Bytes → Option Int
  | [] => none
  | b :: ds =>
    if b = 0x2d then (parseDigits ds).bind fun n => if n ≤ 2 ^ 63 then some (-n) else none
    else if b = 0x2b then (parseDigits ds).bind fun n => if n < 2 ^ 63 then some n else none
    else (parseDigits (b :: ds)).bind fun n => if n < 2 ^ 63 then some n else none

/-- `i64::to_string`. -/
def printI64 (i : Int) : Bytes :=
  if i < 0 then 0x2d :: toDecimal i.natAbs else toDecimal i.toNat

/-- No `+`, no leading zero and no `-0`. -/
def plainSpelling : Bytes → Bool
  | [] => false
  | b :: ds =>
    if b = 0x2d then ds.head? ≠ some 0x30
    else if b = 0x2b then false
    else b ≠ 0x30 || ds.isEmpty

theorem parseDigits_eq_some {ds : Bytes} (h : parseDigits ds = some n) :
    ds ≠ [] ∧ (∀ b ∈ ds, isDigit b = true) ∧ n = ofDecimal ds := by
  rw [parseDigits] at h
  split at h
  · rename_i hds
    exact ⟨hds.1, hds.2, (Option.some.inj h).symm⟩
  · cases h

theorem toDecimal_ne_cons (hb : isDigit b = false) (ds : Bytes) : toDecimal n ≠ b :: ds := by
  intro h
  have hmem : isDigit b = true := isDigit_of_mem_toDecimal (n := n) (by rw [h]; simp)
  rw [hb] at hmem
  cases hmem

/-- What parses is digits, maybe after a sign. -/
theorem parseI64_eq_some (h : parseI64 text = some i) : ∃ ds n, parseDigits ds = some n ∧
    (text = 0x2d :: ds ∧ n ≤ 2 ^ 63 ∧ i = -n ∨
      (text = 0x2b :: ds ∨ text = ds) ∧ n < 2 ^ 63 ∧ i = n) := by
  rcases text with _ | ⟨b, ds⟩
  · cases h
  rw [parseI64] at h
  split_ifs at h with hminus hplus
  all_goals obtain ⟨n, hn, hrange⟩ := bind_eq_some_iff.1 h
  · exact ⟨ds, n, hn, .inl (by simpa [hminus, eq_comm] using hrange)⟩
  · exact ⟨ds, n, hn, .inr (by simpa [hplus, eq_comm] using hrange)⟩
  · exact ⟨b :: ds, n, hn, .inr (by simpa [eq_comm] using hrange)⟩

/-- **An integer is written back as it was read** if and only if it was spelled plainly. -/
theorem printI64_of_parseI64 (h : parseI64 text = some i) :
    printI64 i = text ↔ plainSpelling text = true := by
  obtain ⟨ds, n, hn, hcase⟩ := parseI64_eq_some h
  obtain ⟨hne, hdigits, rfl⟩ := parseDigits_eq_some hn
  have hback := toDecimal_ofDecimal hdigits hne
  rcases hcase with ⟨rfl, -, rfl⟩ | ⟨rfl | rfl, -, rfl⟩
  · -- a negative number, or a zero with a sign
    rw [plainSpelling, if_pos rfl, decide_eq_true_iff]
    by_cases hzero : ofDecimal ds = 0
    · have hleft : printI64 (-(ofDecimal ds : Int)) ≠ 0x2d :: ds := by
        rw [hzero]
        exact toDecimal_ne_cons (n := 0) (by decide) ds
      refine ⟨fun h => absurd h hleft, fun hhead => ?_⟩
      -- a digit string of value zero starts with a zero
      rw [hzero] at hback
      have hds : ds = [0x30] := (hback.2 (.inr hhead)).symm
      simp [hds] at hhead
    · have hprint : printI64 (-(ofDecimal ds : Int)) = 0x2d :: toDecimal (ofDecimal ds) := by
        rw [printI64, if_pos (by omega), Int.natAbs_neg, Int.natAbs_natCast]
      rw [hprint, List.cons.injEq, hback]
      refine ⟨fun h => h.2.resolve_left ?_, fun hhead => ⟨rfl, .inr hhead⟩⟩
      rintro rfl
      exact hzero rfl
  · refine ⟨fun h => ?_, fun h => by cases h⟩
    rw [printI64, if_neg (by omega)] at h
    exact absurd h (toDecimal_ne_cons (by decide) ds)
  · rw [printI64, if_neg (by omega), Int.toNat_natCast, hback]
    obtain ⟨b, ds, rfl⟩ := exists_cons_of_ne_nil hne
    have hb := hdigits b mem_cons_self
    rw [plainSpelling, if_neg (by rintro rfl; cases hb), if_neg (by rintro rfl; cases hb)]
    cases ds with
    | nil => simp [em]
    | cons c ds => simp

/-- The range of `i64`. -/
def InI64 (i : Int) : Prop := -2 ^ 63 ≤ i ∧ i < 2 ^ 63
deriving Decidable

theorem inI64_of_parseI64 (h : parseI64 text = some i) : InI64 i := by
  obtain ⟨ds, n, -, ⟨-, hn, rfl⟩ | ⟨-, hn, rfl⟩⟩ := parseI64_eq_some h
  all_goals constructor <;> omega

theorem parseDigits_toDecimal (n : Nat) : parseDigits (toDecimal n) = some n := by
  rw [parseDigits, if_pos ⟨toDecimal_ne_nil n, fun b hb => isDigit_of_mem_toDecimal hb⟩,
    ofDecimal_toDecimal]

/-- **An integer is read back as it was written.** -/
theorem parseI64_printI64 (h : InI64 i) : parseI64 (printI64 i) = some i := by
  obtain ⟨hlow, hhigh⟩ := h
  rw [printI64]
  split
  · have hnat : i.natAbs ≤ 2 ^ 63 := by omega
    have hback : -(i.natAbs : Int) = i := by omega
    rw [parseI64, if_pos rfl, parseDigits_toDecimal, bind_some, if_pos hnat, hback]
  obtain ⟨b, ds, hdec⟩ := exists_cons_of_ne_nil (toDecimal_ne_nil i.toNat)
  have hb : isDigit b = true := isDigit_of_mem_toDecimal (n := i.toNat) (by rw [hdec]; simp)
  have hminus : b ≠ 0x2d := by rintro rfl; exact absurd hb (by decide)
  have hplus : b ≠ 0x2b := by rintro rfl; exact absurd hb (by decide)
  have hnat : i.toNat < 2 ^ 63 := by omega
  have hback : (i.toNat : Int) = i := by omega
  rw [hdec, parseI64, if_neg hminus, if_neg hplus, ← hdec, parseDigits_toDecimal,
    bind_some, if_pos hnat, hback]

theorem lt_of_isDigit (h : isDigit b = true) : b < 0x80 := by
  rw [isDigit, Bool.and_eq_true, decide_eq_true_eq, decide_eq_true_eq] at h
  rw [UInt8.lt_iff_toNat_lt]
  exact Nat.lt_of_le_of_lt h.2 (by decide)

/-- An integer is written in ASCII. -/
theorem lt_of_mem_printI64 (h : b ∈ printI64 i) : b < 0x80 := by
  rw [printI64] at h
  split at h
  · rcases mem_cons.1 h with rfl | h
    · decide
    · exact lt_of_isDigit (isDigit_of_mem_toDecimal h)
  · exact lt_of_isDigit (isDigit_of_mem_toDecimal h)

/-- What parses as an integer is ASCII. -/
theorem lt_of_mem_of_parseI64 {c : UInt8} (h : parseI64 text = some i)
    (hc : c ∈ text) : c < 0x80 := by
  obtain ⟨ds, n, hn, hcase⟩ := parseI64_eq_some h
  have hdigits : ∀ c ∈ ds, c < 0x80 := fun c hc => lt_of_isDigit ((parseDigits_eq_some hn).2.1 c hc)
  rcases hcase with ⟨rfl, -⟩ | ⟨rfl | rfl, -⟩
  · exact forall_mem_cons.2 ⟨by decide, hdigits⟩ c hc
  · exact forall_mem_cons.2 ⟨by decide, hdigits⟩ c hc
  · exact hdigits c hc

theorem plainSpelling_printI64 (h : InI64 i) : plainSpelling (printI64 i) = true :=
  (printI64_of_parseI64 (parseI64_printI64 h)).1 rfl

end Senko
