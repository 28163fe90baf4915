import Senko.Lib.Bytes

/-!
# Senko — hash slots (`senko-cluster/src/slot.rs`)

The slot of a key is the CRC16 of the key, or of the part of it between the first braces.
-/

namespace Senko.Cluster

def slotCount : Nat := 16384

/-- The part of a key that is hashed. -/
def hashTag (key : Bytes) : Bytes :=
  match key.idxOf? 0x7b with
  | none => key
  | some start =>
    let rest := key.drop (start + 1)
    match rest.idxOf? 0x7d with
    | none => key
    | some close => if 0 < close then rest.take close else key

/-- One of the eight rounds for an entry of the table. -/
def crc16Round (crc : BitVec 16) : BitVec 16 :=
  if crc &&& 0x8000#16 ≠ 0#16 then (crc <<< 1) ^^^ 0x1021#16 else crc <<< 1

/-- `CRC16_CCITT_TABLE[index]`. -/
def crc16CcittTable (index : Nat) : BitVec 16 :=
  (List.range 8).foldl (fun crc _ => crc16Round crc) (BitVec.ofNat 16 index <<< 8)

def crc16Ccitt (input : Bytes) : BitVec 16 :=
  input.foldl (fun crc byte =>
    (crc <<< 8) ^^^ crc16CcittTable ((crc >>> 8).toNat ^^^ byte.toNat)) 0#16

def crc16Slot (key : Bytes) : Nat := (crc16Ccitt (hashTag key) &&& 0x3fff#16).toNat

/-- The slot of `foo`, and of a key with `foo` in braces. -/
example : crc16Slot [0x66, 0x6f, 0x6f] = 12182 ∧
    crc16Slot [0x7b, 0x66, 0x6f, 0x6f, 0x7d, 0x2e] = 12182 := by decide +kernel

/-! ## Without the table -/

/-- A number of rounds. -/
def crc16Rounds : Nat → BitVec 16 → BitVec 16
  | 0, crc => crc
  | n + 1, crc => crc16Rounds n (crc16Round crc)

/-- CRC16/XMODEM as a shift register: a byte is added at the top, and every bit of it is a round. -/
def crc16Register (input : Bytes) : BitVec 16 :=
  input.foldl (fun (crc : BitVec 16) (byte : UInt8) =>
    crc16Rounds 8 (crc ^^^ byte.toBitVec.setWidth 16 <<< 8)) 0#16

theorem crc16Round_xor (a b : BitVec 16) :
    crc16Round (a ^^^ b) = crc16Round a ^^^ crc16Round b := by
  have hround : ∀ x : BitVec 16,
      crc16Round x = x <<< 1 ^^^ if x.getLsbD 15 then 0x1021#16 else 0#16 := by
    intro x
    have htop : x &&& 0x8000#16 = if x.getLsbD 15 then 0x8000#16 else 0#16 :=
      BitVec.and_twoPow x 15
    rw [crc16Round, htop]
    cases x.getLsbD 15
    · exact BitVec.xor_zero.symm
    · rfl
  rw [hround, hround, hround, BitVec.shiftLeft_xor_distrib, BitVec.getLsbD_xor]
  generalize a.getLsbD 15 = p
  generalize b.getLsbD 15 = q
  ext i hi
  cases p <;> cases q <;> simp <;> grind

theorem crc16Rounds_xor (n : Nat) (a b : BitVec 16) :
    crc16Rounds n (a ^^^ b) = crc16Rounds n a ^^^ crc16Rounds n b := by
  induction n generalizing a b with
  | zero => rfl
  | succ n ih => rw [crc16Rounds, crc16Round_xor, ih, crc16Rounds, crc16Rounds]

/-- A byte that is looked up is a byte that goes through the register. -/
theorem crc16Rounds_step (crc : BitVec 16) (byte : UInt8) :
    crc16Rounds 8 (crc ^^^ byte.toBitVec.setWidth 16 <<< 8) =
      (crc <<< 8) ^^^ crc16CcittTable ((crc >>> 8).toNat ^^^ byte.toNat) := by
  have hindex : BitVec.ofNat 16 ((crc >>> 8).toNat ^^^ byte.toNat) =
      crc >>> 8 ^^^ byte.toBitVec.setWidth 16 := by
    rw [BitVec.ofNat_xor, BitVec.ofNat_toNat, BitVec.setWidth_eq]
    exact congrArg _ (BitVec.ofNat_toNat ..)
  -- the upper half of the register meets the byte, the lower half moves up
  have hsplit : crc ^^^ byte.toBitVec.setWidth 16 <<< 8 =
      (crc.setWidth 8).setWidth 16 ^^^ (crc >>> 8 ^^^ byte.toBitVec.setWidth 16) <<< 8 := by
    ext i hi
    rcases Nat.lt_or_ge i 8 with hlow | hhigh
    · simp [hlow, BitVec.getLsbD_eq_getElem hi]
    · obtain ⟨j, rfl⟩ := Nat.exists_eq_add_of_le hhigh
      simp [BitVec.getLsbD_eq_getElem hi]
  have hlower : ∀ low : BitVec 8, crc16Rounds 8 (low.setWidth 16) = low.setWidth 16 <<< 8 := by
    decide +kernel
  have hmoved : (crc.setWidth 8).setWidth 16 <<< 8 = crc <<< 8 := by bv_omega
  rw [hsplit, crc16Rounds_xor, hlower, hmoved, ← hindex]
  rfl

/-- **The slot of a key** is the CRC16/XMODEM of its hash tag, modulo the number of slots. -/
theorem crc16Slot_eq_register (key : Bytes) :
    crc16Slot key = (crc16Register (hashTag key)).toNat % slotCount := by
  have hcrc : ∀ input, crc16Register input = crc16Ccitt input := by
    intro input
    unfold crc16Register crc16Ccitt
    simp only [crc16Rounds_step]
  rw [hcrc, crc16Slot, BitVec.toNat_and]
  exact Nat.and_two_pow_sub_one_eq_mod _ 14

end Senko.Cluster
