import Senko.Core.Listpack
import Mathlib.Data.List.InsertIdx
import Mathlib.Data.List.DropRight

/-!
# Senko — listpack round trip

The codec of `Senko.Core.Listpack` is a round trip for every list in which each entry but the last
encodes to at most 255 bytes (`BacklenFits`): the walk then lands on every entry. A longer entry
clamps its back-length byte, the walk lands inside the entry, and the rest of the list is lost or
replaced by whatever those bytes happen to decode to.

The proof goes bottom-up. A varint, a header and an entry each decode in place, between any bytes
before and after (`readVarint_writeVarint`, `readStringHeader_writeStringHeader`,
`decodeEntryAt_encodeEntry`); the walk is then an induction on the list.
-/

namespace Senko

open List Option

/-! ## Bit arithmetic of one byte -/

variable (b : UInt8) (fuel : Nat) (pre element : Bytes) (node : ListpackNode) (v : Nat)
  (post : Bytes)

theorem toNat_and_low7 : (b &&& 0x7f).toNat = b.toNat % 128 := by
  rw [UInt8.toNat_and]
  exact Nat.and_two_pow_sub_one_eq_mod b.toNat 7

theorem toNat_or_high (h : b.toNat < 128) : (b ||| 0x80).toNat = b.toNat + 128 := by
  rw [UInt8.toNat_or]
  have hor := Nat.two_pow_add_eq_or_of_lt (i := 7) (b := b.toNat) (by simpa using h) 1
  have h80 : UInt8.toNat 0x80 = 2 ^ 7 * 1 := rfl
  rw [h80, Nat.or_comm]
  omega

set_option maxRecDepth 4096 in
/-- The continuation bit is clear exactly for the bytes below 128. -/
theorem and_high_eq_zero_iff : b &&& 0x80 = 0 ↔ b.toNat < 128 := by
  revert b
  exact forall_byte (by decide)

theorem toNat_ofNat_low7 : (UInt8.ofNat (v &&& 0x7f)).toNat = v % 128 := by
  have h7 : v &&& 0x7f = v % 128 := Nat.and_two_pow_sub_one_eq_mod v 7
  rw [UInt8.toNat_ofNat']
  omega

/-! ## Varints -/

/-- One round of the writer, in arithmetic. -/
theorem writeVarintLoop_succ : writeVarintLoop (fuel + 1) v =
      if v < 128 then [UInt8.ofNat (v &&& 0x7f)]
      else (UInt8.ofNat (v &&& 0x7f) ||| 0x80) :: writeVarintLoop fuel (v / 128) := by
  have hshift : v >>> 7 = v / 128 := Nat.shiftRight_eq_div_pow v 7
  simp only [writeVarintLoop, hshift]
  by_cases hv : v < 128
  · rw [if_pos hv, if_neg (by omega)]
  · rw [if_neg hv, if_pos (by omega)]

theorem or_shiftLeft_eq {value x shift : Nat} (hvalue : value < 2 ^ shift)
    (hx : x * 2 ^ shift < 2 ^ 64) :
    value ||| (x <<< shift) % 2 ^ 64 = value + x * 2 ^ shift := by
  rw [Nat.shiftLeft_eq, Nat.mod_eq_of_lt hx, Nat.or_comm, mul_comm,
    ← Nat.two_pow_add_eq_or_of_lt hvalue, Nat.add_comm]

/-- The reader follows the writer round by round: what is left to write, shifted into place, is
what is left to add to the accumulated value. -/
theorem readVarintLoop_writeVarintLoop :
    ∀ fuel v value shift, shift + 7 * fuel = 70 → v < 2 ^ (7 * fuel) → 0 < fuel →
      value < 2 ^ shift → v * 2 ^ shift < 2 ^ 64 →
      readVarintLoop (pre ++ writeVarintLoop fuel v ++ post) fuel pre.length value shift =
        some (value + v * 2 ^ shift, pre.length + (writeVarintLoop fuel v).length) := by
  intro fuel
  induction fuel generalizing pre with
  | zero => intro _ _ _ _ _ h; omega
  | succ fuel ih =>
    intro v value shift hshift hv _ hvalue hfit
    have hlow := toNat_ofNat_low7 v
    rw [writeVarintLoop_succ]
    by_cases hlast : v < 128
    · -- the last byte carries no continuation bit
      rw [if_pos hlast]
      have hmod : v % 128 = v := Nat.mod_eq_of_lt hlast
      have hbit : UInt8.ofNat (v &&& 0x7f) &&& 0x80 = 0 := by
        rw [and_high_eq_zero_iff]
        omega
      simp only [readVarintLoop, append_assoc, singleton_append, getElem?_append_cons,
        bind_eq_bind, bind_some, if_pos hbit, length_singleton]
      rw [toNat_and_low7, hlow, hmod, hmod, or_shiftLeft_eq hvalue hfit]
    rw [if_neg hlast]
    set byte := UInt8.ofNat (v &&& 0x7f) ||| 0x80 with hbyte
    have hbyteNat : byte.toNat = v % 128 + 128 := by
      rw [toNat_or_high _ (by omega), hlow]
    have hbit : ¬ byte &&& 0x80 = 0 := by
      rw [and_high_eq_zero_iff]
      omega
    have hsplit : v * 2 ^ shift = v % 128 * 2 ^ shift + v / 128 * 2 ^ (shift + 7) := by
      rw [pow_add, mul_comm (2 ^ shift), ← mul_assoc, ← add_mul]
      congr 1
      omega
    have hfuel : 0 < fuel := by
      by_contra h0
      have : fuel = 0 := by omega
      subst this
      omega
    have hpow : 2 ^ (7 * (fuel + 1)) = 128 * 2 ^ (7 * fuel) := by
      rw [Nat.mul_add, pow_add]
      omega
    have hacc : value ||| ((byte &&& 0x7f).toNat <<< shift) % 2 ^ 64 =
        value + v % 128 * 2 ^ shift := by
      rw [toNat_and_low7, hbyteNat, show (v % 128 + 128) % 128 = v % 128 by omega]
      exact or_shiftLeft_eq hvalue (by omega)
    have hacclt : value + v % 128 * 2 ^ shift < 2 ^ (shift + 7) := by
      have hmul : v % 128 * 2 ^ shift ≤ 127 * 2 ^ shift :=
        Nat.mul_le_mul_right _ (by omega)
      rw [pow_add]
      omega
    have hstep := ih (pre ++ [byte]) (v / 128) (value + v % 128 * 2 ^ shift) (shift + 7)
      (by omega) (by omega) hfuel hacclt (by omega)
    simp only [append_assoc, cons_append, nil_append, length_append, length_singleton] at hstep
    simp only [readVarintLoop, append_assoc, cons_append, getElem?_append_cons,
      bind_eq_bind, bind_some, if_neg hbit, hacc,
      if_neg (show ¬ shift + 7 > 63 by omega), hstep]
    rw [Nat.add_assoc value, ← hsplit, Nat.add_right_comm]
    rfl

/-- **A varint decodes in place.** -/
theorem readVarint_writeVarint {v : Nat} (hv : v < 2 ^ 64) :
    readVarint (pre ++ writeVarint v ++ post) pre.length =
      some (v, pre.length + (writeVarint v).length) := by
  have hmod : v % 2 ^ 64 = v := Nat.mod_eq_of_lt hv
  have h := readVarintLoop_writeVarintLoop pre post 10 v 0 0 (by omega) (by omega) (by omega)
    (by norm_num) (by simpa using hv)
  rw [readVarint, writeVarint, hmod, h]
  simp

theorem writeVarint_length_pos : 0 < (writeVarint v).length := by
  rw [writeVarint, writeVarintLoop_succ]
  split <;> simp

/-! ## Headers and entries -/

/-- The one-byte form keeps the length in its six low bits. -/
theorem shortHeader_bits : ∀ n : Fin 64,
    (0x80 ||| UInt8.ofNat n) &&& 0xc0 = 0x80 ∧ ((0x80 ||| UInt8.ofNat n) &&& 0x3f).toNat = n := by
  decide

/-- **A string header decodes to the length it was written for.** -/
theorem readStringHeader_writeStringHeader {len : Nat} (hlen : len < 2 ^ 32) :
    readStringHeader (writeStringHeader len ++ post) =
      some (len, (writeStringHeader len).length) := by
  unfold writeStringHeader
  split
  · obtain ⟨hmark, hval⟩ := shortHeader_bits ⟨len, by omega⟩
    simp only [readStringHeader, cons_append, getElem?_cons_zero, bind_eq_bind,
      bind_some, if_pos hmark, hval, length_singleton]
  split
  · rename_i h16
    have hrange : getRange ([0xe0] ++ toLeBytes 2 len ++ post) 1 3 = some (toLeBytes 2 len) :=
      getRange_append _ _ _ rfl (by simp)
    have hmark : ¬ (0xe0 : UInt8) &&& 0xc0 = 0x80 := by decide
    simp only [cons_append, nil_append] at hrange
    simp [readStringHeader, hmark, hrange, fromLeBytes_toLeBytes_of_lt (k := 2) h16]
  · have hrange : getRange ([0xf0] ++ toLeBytes 4 len ++ post) 1 5 = some (toLeBytes 4 len) :=
      getRange_append _ _ _ rfl (by simp)
    have hmark : ¬ (0xf0 : UInt8) &&& 0xc0 = 0x80 := by decide
    simp only [cons_append, nil_append] at hrange
    simp [readStringHeader, hmark, hrange, fromLeBytes_toLeBytes_of_lt (k := 4) hlen]

@[simp] theorem length_encodeEntry (prevLen : Nat) :
    (encodeEntry element prevLen).length = (entryBody element prevLen).length + 1 := by
  simp [encodeEntry]

/-- Where the payload starts within its encoded entry. -/
def payloadStart (element : Bytes) (prevLen : Nat) : Nat :=
  (writeVarint prevLen).length + (writeStringHeader element.length).length

theorem length_entryBody (prevLen : Nat) :
    (entryBody element prevLen).length = payloadStart element prevLen + element.length := by
  simp [entryBody, payloadStart, Nat.add_assoc]

variable {prevLen : Nat} {entries chunk : List Bytes}

/-- **An entry decodes in place**: its payload, and an advance by the clamped back-length. -/
theorem decodeEntryAt_encodeEntry {element : Bytes} (helem : element.length < 2 ^ 32)
    (hprev : prevLen < 2 ^ 64) :
    decodeEntryAt (pre ++ encodeEntry element prevLen ++ post) pre.length =
      some (⟨pre.length + payloadStart element prevLen, element⟩,
        pre.length + min (encodeEntry element prevLen).length 255) := by
  set varint := writeVarint prevLen with hvarint
  set header := writeStringHeader element.length with hheader
  set back := UInt8.ofNat (min ((entryBody element prevLen).length + 1) 255) with hback
  obtain ⟨data, hdata⟩ : ∃ data, data = pre ++ varint ++ header ++ element ++ back :: post :=
    ⟨_, rfl⟩
  have hsplit : pre ++ encodeEntry element prevLen ++ post = data := by
    simp [hdata, encodeEntry, entryBody, hvarint, hheader, hback]
  have hin : ¬ pre.length ≥ data.length := by
    simp only [hdata, length_append, length_cons]
    omega
  have hread : readVarint data pre.length = some (prevLen, pre.length + varint.length) := by
    have h := readVarint_writeVarint pre (header ++ element ++ back :: post) hprev
    simpa only [hdata, append_assoc] using h
  have hfrom : getFrom data (pre.length + varint.length) =
      some (header ++ (element ++ back :: post)) := by
    have h := getFrom_append (pre ++ varint) (header ++ (element ++ back :: post))
    simpa only [hdata, append_assoc, length_append] using h
  have hhead := readStringHeader_writeStringHeader (element ++ back :: post) helem
  have hpayload : getRange data (pre.length + varint.length + header.length)
      (pre.length + varint.length + header.length + element.length) = some element :=
    hdata ▸ getRange_append (pre ++ varint ++ header) element (back :: post)
      (by simp [Nat.add_assoc]) (by simp [Nat.add_assoc])
  have hbyte : data[pre.length + varint.length + header.length + element.length]? = some back := by
    have h := getElem?_append_cons (pre ++ varint ++ header ++ element) back post
    simpa only [hdata, length_append] using h
  have hbacklen : back.toNat = min (encodeEntry element prevLen).length 255 := by
    rw [length_encodeEntry, UInt8.toNat_ofNat']
    omega
  rw [hsplit, decodeEntryAt, if_neg hin]
  rw [← hheader] at hhead
  simp only [hread, hfrom, hhead, hpayload, hbyte, bind_eq_bind, bind_some, hbacklen]
  rw [payloadStart, Nat.add_assoc]

theorem append_encodeEntries_cons (e : Bytes) (entries : List Bytes) (prevLen : Nat) :
    pre ++ encodeEntries prevLen (e :: entries) =
      pre ++ encodeEntry e prevLen ++ encodeEntries (encodeEntry e prevLen).length entries := by
  simp [encodeEntries]

/-- **An entry that fits its back-length leads to the next one.** -/
theorem decodeEntryAt_cons {e : Bytes} (entries : List Bytes) (hprev : prevLen < 2 ^ 64)
    (hfits : (encodeEntry e prevLen).length ≤ 255) :
    decodeEntryAt (pre ++ encodeEntries prevLen (e :: entries)) pre.length =
      some (⟨pre.length + payloadStart e prevLen, e⟩, (pre ++ encodeEntry e prevLen).length) := by
  have hlen : e.length < 2 ^ 32 := by
    rw [length_encodeEntry, length_entryBody] at hfits
    omega
  rw [append_encodeEntries_cons, decodeEntryAt_encodeEntry pre _ hlen hprev,
    Nat.min_eq_left hfits, length_append]

theorem lt_of_decodeEntryAt {data : Bytes} {offset : Nat} {found : Slice × Nat}
    (h : decodeEntryAt data offset = some found) : offset < data.length := by
  by_contra hout
  rw [decodeEntryAt, if_pos (not_lt.1 hout)] at h
  cases h

/-! ## Entry lengths -/

theorem writeVarintLoop_length_le : (writeVarintLoop fuel v).length ≤ fuel := by
  induction fuel generalizing v with
  | zero => simp [writeVarintLoop]
  | succ fuel ih =>
    rw [writeVarintLoop_succ]
    have := ih (v / 128)
    split <;> simp only [length_cons, length_nil] <;> omega

theorem writeStringHeader_length_le (len : Nat) : (writeStringHeader len).length ≤ 5 := by
  unfold writeStringHeader
  split_ifs <;> simp

/-- The encoded lengths of the entries of a node, in order. -/
def encodedLengths : Nat → List Bytes → List Nat
  | _, [] => []
  | prevLen, entry :: entries =>
    let len := (encodeEntry entry prevLen).length
    len :: encodedLengths len entries

/-- No entry but the last needs more than one byte of back-length. -/
def BacklenFits (prevLen : Nat) (entries : List Bytes) : Prop :=
  ∀ len ∈ (encodedLengths prevLen entries).dropLast, len ≤ 255
deriving Decidable

theorem encodedLengths_append (prevLen : Nat) (front rest : List Bytes) :
    ∃ q, encodedLengths prevLen (front ++ rest) =
        encodedLengths prevLen front ++ encodedLengths q rest ∧
      (q = prevLen ∨ q ∈ encodedLengths prevLen front) := by
  induction front generalizing prevLen with
  | nil => exact ⟨prevLen, rfl, .inl rfl⟩
  | cons e front ih =>
    obtain ⟨q, hlengths, hq⟩ := ih (encodeEntry e prevLen).length
    refine ⟨q, congrArg (List.cons _) hlengths, .inr ?_⟩
    rcases hq with rfl | hq
    · exact mem_cons_self
    · exact mem_cons_of_mem _ hq

theorem backlenFits_concat {front : List Bytes} {last : Bytes} :
    BacklenFits prevLen (front ++ [last]) ↔ ∀ len ∈ encodedLengths prevLen front, len ≤ 255 := by
  obtain ⟨q, hlengths, -⟩ := encodedLengths_append prevLen front [last]
  rw [BacklenFits, hlengths, encodedLengths, encodedLengths, dropLast_concat]

/-! ## The walk -/

/-- The payload slices of `entries` laid out from `offset` on. -/
def entrySlices : Nat → Nat → List Bytes → List Slice
  | _, _, [] => []
  | offset, prevLen, entry :: entries =>
    let len := (encodeEntry entry prevLen).length
    ⟨offset + payloadStart entry prevLen, entry⟩ :: entrySlices (offset + len) len entries

theorem entrySlices_bytes (offset prevLen : Nat) (entries : List Bytes) :
    (entrySlices offset prevLen entries).map Slice.bytes = entries := by
  induction entries generalizing offset prevLen with
  | nil => rfl
  | cons entry entries ih => simp [entrySlices, ih]

/-- **The walk passes the entries that fit**, and goes on right behind them. -/
theorem listpackIterFrom_front (front rest : List Bytes) (left : Nat) (hprev : prevLen < 2 ^ 64)
    (hfits : ∀ len ∈ encodedLengths prevLen front, len ≤ 255) :
    let data := pre ++ encodeEntries prevLen (front ++ rest)
    let passed := pre ++ encodeEntries prevLen front
    ∃ lastLen < 2 ^ 64, data = passed ++ encodeEntries lastLen rest ∧
      (listpackIterFrom data (front.length + left) pre.length).map Slice.bytes =
        front ++ (listpackIterFrom data left passed.length).map Slice.bytes := by
  induction front generalizing pre prevLen with
  | nil => exact ⟨prevLen, hprev, by simp [encodeEntries], by simp [encodeEntries]⟩
  | cons e front ih =>
    obtain ⟨hfit, hfits⟩ := forall_mem_cons.1 hfits
    obtain ⟨lastLen, hlast, hdata, hwalk⟩ := ih (pre ++ encodeEntry e prevLen) (by omega) hfits
    rw [← append_encodeEntries_cons, ← append_encodeEntries_cons] at hdata hwalk
    refine ⟨lastLen, hlast, hdata, ?_⟩
    rw [length_cons, Nat.succ_add, listpackIterFrom, cons_append,
      decodeEntryAt_cons pre _ hprev hfit]
    simp only [map_cons, hwalk, cons_append]

/-- Every node that `encode_node_entries` wrote from a list that fits decodes to that list. The only
entry whose back-length is not followed is the last one, which is why that one may be of any
length. -/
theorem lpIter_encodeNodeEntries (hcount : entries.length < 2 ^ 16)
    (hlen : ∀ e ∈ entries, e.length < 2 ^ 32) (hfits : BacklenFits 0 entries) :
    lpIter (encodeNodeEntries node entries) = entries := by
  rcases eq_nil_or_concat' entries with rfl | ⟨front, last, rfl⟩
  · rfl
  rw [lpIter, encodeNodeEntries, Nat.mod_eq_of_lt hcount]
  obtain ⟨lastLen, hlast, hdata, hwalk⟩ :=
    listpackIterFrom_front [] front [last] 1 (by norm_num) (backlenFits_concat.1 hfits)
  have hhead := decodeEntryAt_encodeEntry (encodeEntries 0 front) [] (hlen last (by simp)) hlast
  simp only [nil_append, append_nil, encodeEntries] at hdata hwalk hhead
  rw [length_append, length_singleton]
  refine hwalk.trans ?_
  rw [hdata, listpackIterFrom, hhead]
  rfl

/-- `lp_get` reads the element that iteration yields at that index, on any buffer. -/
theorem lpGetLoop_eq (data : Bytes) (index left offset current : Nat) (hcur : current ≤ index) :
    lpGetLoop data index left offset current =
      ((listpackIterFrom data left offset).map Slice.bytes)[index - current]? := by
  induction left generalizing offset current with
  | zero => simp [lpGetLoop, listpackIterFrom]
  | succ left ih =>
    simp only [lpGetLoop, listpackIterFrom]
    rcases hdec : decodeEntryAt data offset with _ | found
    · simp
    obtain ⟨payload, nextOffset⟩ := found
    by_cases hat : current = index
    · simp [hat]
    · have hnext : index - current = index - (current + 1) + 1 := by omega
      simp only [bind_eq_bind, bind_some, if_neg hat, map_cons, hnext, getElem?_cons_succ]
      exact ih nextOffset (current + 1) (by omega)

theorem lpGet_eq (index : Nat) : lpGet node index = (lpIter node)[index]? :=
  lpGetLoop_eq node.data index node.count 0 0 (Nat.zero_le _)

/-! ## Operations as list operations -/

/-- The node behaves as the list of its entries: every read of `list.rs` returns what the list
holds, and every update re-encodes the list the same update produces. -/
structure ActsAsList (node : ListpackNode) (entries : List Bytes) : Prop where
  decode : decodeAllEntries node = entries
  iter : lpIter node = entries
  len : lpLen node = entries.length
  get : ∀ index, lpGet node index = entries[index]?
  pushFront : ∀ x, lpPushFront node x = encodeNodeEntries node (x :: entries)
  pushBack : ∀ x, lpPushBack node x = encodeNodeEntries node (entries ++ [x])
  popFront : lpPopFront node = (entries.head?, encodeNodeEntries node entries.tail)
  popBack : lpPopBack node = (entries.getLast?, encodeNodeEntries node entries.dropLast)
  insertBefore : ∀ index x, lpInsertBefore node index x =
    encodeNodeEntries node (entries.insertIdx (min index entries.length) x)
  insertAfter : ∀ index x, lpInsertAfter node index x =
    encodeNodeEntries node (entries.insertIdx (min (index + 1) entries.length) x)
  set : ∀ index x, lpSet node index x = encodeNodeEntries node (entries.set index x)
  deleteAt : ∀ index, lpDeleteAt node index = encodeNodeEntries node (entries.eraseIdx index)

theorem encodeNodeEntries_encodeNodeEntries (entries entries' : List Bytes) :
    encodeNodeEntries (encodeNodeEntries node entries) entries' =
      encodeNodeEntries node entries' := rfl

/-- Decoding to the list, on a node that is that list's encoding, is all the operations need. -/
theorem actsAsList_of_lpIter {node : ListpackNode} (hcount : entries.length < 2 ^ 16)
    (hiter : lpIter (encodeNodeEntries node entries) = entries) :
    ActsAsList (encodeNodeEntries node entries) entries := by
  have hsame : encodeNodeEntries (encodeNodeEntries node entries) entries =
      encodeNodeEntries node entries := encodeNodeEntries_encodeNodeEntries node entries entries
  have hdecode : decodeAllEntries (encodeNodeEntries node entries) = entries := hiter
  constructor
  case decode => exact hiter
  case iter => exact hiter
  case len => exact Nat.mod_eq_of_lt hcount
  case get =>
    intro index
    rw [lpGet_eq, hiter]
  case pushFront =>
    intro x
    rw [lpPushFront, hdecode]
  case pushBack =>
    intro x
    rw [lpPushBack, hdecode]
  case popFront =>
    unfold lpPopFront
    cases entries with
    | nil => simp [hdecode, hsame]
    | cons e entries => simp [hdecode]
  case popBack =>
    unfold lpPopBack
    rw [hdecode]
    cases hlast : entries.getLast? with
    | none =>
      have hnil : entries = [] := getLast?_eq_none_iff.1 hlast
      subst hnil
      simp [hsame]
    | some value => rfl
  case insertBefore =>
    intro index x
    simp only [lpInsertBefore, hdecode]
  case insertAfter =>
    intro index x
    simp only [lpInsertAfter, hdecode]
  case set =>
    intro index x
    simp only [lpSet, hdecode]
    split
    · rw [set_eq_of_length_le (by omega), hsame]
    · rfl
  case deleteAt =>
    intro index
    simp only [lpDeleteAt, hdecode]
    split
    · rw [eraseIdx_of_length_le (by omega), hsame]
    · rfl

/-- **Listpack round trip.** A node filled from a list whose entries, the last apart, encode to at
most 255 bytes behaves as that list. -/
theorem listpack_roundTrip (node : ListpackNode) (entries : List Bytes)
    (hcount : entries.length ≤ 65535) (hlen : ∀ e ∈ entries, e.length < 2 ^ 32)
    (hfits : BacklenFits 0 entries) : ActsAsList (encodeNodeEntries node entries) entries :=
  actsAsList_of_lpIter (by omega) (lpIter_encodeNodeEntries node (by omega) hlen hfits)

theorem listpack_roundTrip_three_forms :
    BacklenFits 0 [[], List.replicate 64 7, List.replicate 300 1] ∧
      ActsAsList (encodeNodeEntries {} [[], List.replicate 64 7, List.replicate 300 1])
        [[], List.replicate 64 7, List.replicate 300 1] :=
  ⟨by decide +kernel, listpack_roundTrip {} _ (by decide) (by decide +kernel) (by decide +kernel)⟩

/-! ## Short entries -/

/-- The element encodes to at most 255 bytes after any entry that does. -/
def ShortElement (element : Bytes) : Prop := element.length ≤ 249
deriving Decidable

/-- What a node of short elements may hold: its count is a `u16`. -/
def ShortChunk (chunk : List Bytes) : Prop :=
  (∀ e ∈ chunk, ShortElement e) ∧ chunk.length < 2 ^ 16

theorem writeVarint_length_le_two {v : Nat} (hv : v ≤ 255) : (writeVarint v).length ≤ 2 := by
  rw [writeVarint, writeVarintLoop_succ]
  split
  · simp
  · rw [writeVarintLoop_succ, if_pos (by omega)]
    simp

theorem writeStringHeader_length_le_three {len : Nat} (hlen : len < 2 ^ 16) :
    (writeStringHeader len).length ≤ 3 := by
  unfold writeStringHeader
  split_ifs <;> simp

/-- A short element costs at most six bytes besides its payload. -/
theorem encodeEntry_length_of_short {e : Bytes} (he : ShortElement e)
    (hprev : prevLen ≤ 255) : (encodeEntry e prevLen).length ≤ 255 := by
  have hlen : e.length ≤ 249 := he
  have hvarint := writeVarint_length_le_two hprev
  have hheader : (writeStringHeader e.length).length ≤ 3 :=
    writeStringHeader_length_le_three (by omega)
  rw [length_encodeEntry, length_entryBody, payloadStart]
  omega

theorem encodedLengths_le_of_short (h : ∀ e ∈ chunk, ShortElement e) (hprev : prevLen ≤ 255) :
    ∀ len ∈ encodedLengths prevLen chunk, len ≤ 255 := by
  induction chunk generalizing prevLen with
  | nil => simp [encodedLengths]
  | cons e chunk ih =>
    have hshort := encodeEntry_length_of_short (h e (by simp)) hprev
    exact forall_mem_cons.2
      ⟨hshort, ih (fun x hx => h x (mem_cons_of_mem _ hx)) hshort⟩

theorem backlenFits_of_short (h : ∀ e ∈ chunk, ShortElement e) (hprev : prevLen ≤ 255) :
    BacklenFits prevLen chunk := fun len hlen =>
  encodedLengths_le_of_short h hprev len (dropLast_subset _ hlen)

theorem ShortChunk.nil : ShortChunk [] := ⟨by simp, by simp⟩

theorem ShortChunk.of_subset {chunk' : List Bytes} (h : ShortChunk chunk)
    (hsub : chunk' ⊆ chunk) (hlen : chunk'.length ≤ chunk.length) : ShortChunk chunk' :=
  ⟨fun e he => h.1 e (hsub he), Nat.lt_of_le_of_lt hlen h.2⟩

theorem ShortChunk.sublist {chunk' : List Bytes} (h : ShortChunk chunk)
    (hsub : chunk'.Sublist chunk) : ShortChunk chunk' :=
  h.of_subset hsub.subset hsub.length_le

/-- A short element added to a short chunk. -/
theorem ShortChunk.grow {e : Bytes} {chunk' : List Bytes} (he : ShortElement e)
    (hmem : ∀ x ∈ chunk', x = e ∨ x ∈ chunk) (h : ShortChunk chunk)
    (hlen : chunk'.length < 2 ^ 16) :
    ShortChunk chunk' :=
  ⟨fun x hx => (hmem x hx).elim (fun heq => heq ▸ he) (h.1 x), hlen⟩

/-! ## Chunks -/

theorem writeVarintLoop_length_mono {v w : Nat} (h : v ≤ w) :
    (writeVarintLoop fuel v).length ≤ (writeVarintLoop fuel w).length := by
  induction fuel generalizing v w with
  | zero => simp [writeVarintLoop]
  | succ fuel ih =>
    have hrest := ih (Nat.div_le_div_right (c := 128) h)
    rw [writeVarintLoop_succ, writeVarintLoop_succ]
    split <;> split <;> simp only [length_cons, length_nil] <;> omega

/-- Entries that fit behind a longer one fit behind a shorter one. -/
theorem encodedLengths_mono {prevLen' : Nat} (h : prevLen ≤ prevLen') (hprev : prevLen' ≤ 255)
    (hfits : ∀ len ∈ encodedLengths prevLen' chunk, len ≤ 255) :
    ∀ len ∈ encodedLengths prevLen chunk, len ≤ 255 := by
  induction chunk generalizing prevLen prevLen' with
  | nil => exact hfits
  | cons e chunk ih =>
    have hle : (encodeEntry e prevLen).length ≤ (encodeEntry e prevLen').length := by
      have hvarint := writeVarintLoop_length_mono 10 h
      rw [length_encodeEntry, length_encodeEntry, length_entryBody, length_entryBody, payloadStart,
        payloadStart, writeVarint, writeVarint, Nat.mod_eq_of_lt (by omega),
        Nat.mod_eq_of_lt (by omega)]
      omega
    obtain ⟨hfit, hrest⟩ := forall_mem_cons.1 hfits
    exact forall_mem_cons.2 ⟨hle.trans hfit, ih hle hfit hrest⟩

/-- Both parts of a list that fits do, the second one at the start of a node. -/
theorem BacklenFits.of_append {front rest : List Bytes} (h : BacklenFits 0 (front ++ rest)) :
    BacklenFits 0 front ∧ BacklenFits 0 rest := by
  rcases eq_nil_or_concat' rest with rfl | ⟨rest, last, rfl⟩
  · exact ⟨by simpa using h, by simp [BacklenFits, encodedLengths]⟩
  rw [← append_assoc, backlenFits_concat] at h
  obtain ⟨q, hlengths, hq⟩ := encodedLengths_append 0 front rest
  rw [hlengths] at h
  have hfront : ∀ len ∈ encodedLengths 0 front, len ≤ 255 := fun len hlen =>
    h len (mem_append_left _ hlen)
  have hq : q ≤ 255 := hq.elim (fun h0 => h0 ▸ Nat.zero_le _) (hfront q)
  exact ⟨fun len hlen => hfront len (dropLast_subset _ hlen),
    backlenFits_concat.2 (encodedLengths_mono (Nat.zero_le q) hq fun len hlen =>
      h len (mem_append_right _ hlen))⟩

/-- What a node may hold to be read back: all but its last entry fit. -/
def FitChunk (chunk : List Bytes) : Prop :=
  BacklenFits 0 chunk ∧ (∀ e ∈ chunk, e.length < 2 ^ 32) ∧ chunk.length < 2 ^ 16

/-- A list that fits in a node as far as the nodes reach: only its last element may be too long for
its back-length. -/
def FitList (l : List Bytes) : Prop := BacklenFits 0 l ∧ ∀ e ∈ l, e.length < 2 ^ 32

theorem FitList.fitChunk {l : List Bytes} (h : FitList l) (hchunk : chunk <:+: l)
    (hlen : chunk.length < 2 ^ 16) : FitChunk chunk := by
  obtain ⟨front, rest, rfl⟩ := hchunk
  exact ⟨h.1.of_append.1.of_append.2, fun e he => h.2 e (by simp [he]), hlen⟩

theorem FitChunk.actsAsList (h : FitChunk chunk) (node : ListpackNode) :
    ActsAsList (encodeNodeEntries node chunk) chunk :=
  actsAsList_of_lpIter h.2.2 (lpIter_encodeNodeEntries node h.2.2 h.2.1 h.1)

theorem ShortChunk.fit (h : ShortChunk chunk) : FitChunk chunk :=
  ⟨backlenFits_of_short h.1 (Nat.zero_le _),
    fun e he => Nat.lt_of_le_of_lt (h.1 e he) (by norm_num), h.2⟩

/-- A node filled from a short chunk behaves as that chunk. -/
theorem ShortChunk.actsAsList (h : ShortChunk chunk) (node : ListpackNode) :
    ActsAsList (encodeNodeEntries node chunk) chunk := h.fit.actsAsList node

/-- Pushing entries behind a chunk appends them to it. -/
theorem foldl_lpPushBack (front es : List Bytes) (h : FitChunk (front ++ es)) :
    es.foldl lpPushBack (encodeNodeEntries {} front) = encodeNodeEntries {} (front ++ es) := by
  induction es generalizing front with
  | nil => simp
  | cons e es ih =>
    rw [← singleton_append, ← append_assoc] at h ⊢
    have hfront : FitChunk front :=
      FitList.fitChunk ⟨h.1, h.2.1⟩ ⟨[], [e] ++ es, by simp⟩ (by have := h.2.2; grind)
    rw [singleton_append, foldl_cons, (hfront.actsAsList {}).pushBack,
      encodeNodeEntries_encodeNodeEntries, ih _ h]

/-- **Cloning a node** keeps the entries that can be read back. -/
theorem lpClone_eq {node : ListpackNode} (h : FitChunk (lpIter node)) :
    lpClone node = encodeNodeEntries {} (lpIter node) :=
  foldl_lpPushBack [] (lpIter node) h

theorem FitChunk.iter_lpClone {node : ListpackNode} (h : FitChunk (lpIter node)) :
    lpIter (lpClone node) = lpIter node := by
  rw [lpClone_eq h, (h.actsAsList {}).iter]

theorem lpClone_encodeNodeEntries (h : FitChunk chunk) :
    lpClone (encodeNodeEntries {} chunk) = encodeNodeEntries {} chunk := by
  have hiter := (h.actsAsList {}).iter
  rw [lpClone_eq (hiter.symm ▸ h), hiter]

/-- A kind of chunk that nodes hold faithfully, whole or cut in two. -/
class Holdable (P : List Bytes → Prop) : Prop where
  nil : P []
  fit {chunk : List Bytes} : P chunk → FitChunk chunk
  of_append {front rest : List Bytes} : P (front ++ rest) → P front ∧ P rest

instance : Holdable ShortChunk where
  nil := ShortChunk.nil
  fit h := h.fit
  of_append h := ⟨h.sublist (sublist_append_left _ _), h.sublist (sublist_append_right _ _)⟩

instance : Holdable FitChunk where
  nil := ShortChunk.nil.fit
  fit h := h
  of_append h := by
    obtain ⟨hfits, hlen, hcount⟩ := h
    rw [length_append] at hcount
    rw [forall_mem_append] at hlen
    exact ⟨⟨hfits.of_append.1, hlen.1, by omega⟩, hfits.of_append.2, hlen.2, by omega⟩

/-- A list of which every part may be in one node. -/
def Divisible (P : List Bytes → Prop) (l : List Bytes) : Prop :=
  ∀ chunk, chunk <:+: l → chunk.length < 2 ^ 16 → P chunk

theorem Divisible.of_infix {P : List Bytes → Prop} {l l' : List Bytes} (h : Divisible P l)
    (hsub : l' <:+: l) : Divisible P l' := fun chunk hchunk => h chunk (hchunk.trans hsub)

theorem divisible_of_short {l : List Bytes} (h : ∀ e ∈ l, ShortElement e) :
    Divisible ShortChunk l := fun _ hchunk hlen => ⟨fun e he => h e (hchunk.subset he), hlen⟩

theorem FitList.divisible {l : List Bytes} (h : FitList l) : Divisible FitChunk l :=
  fun _ hchunk hlen => h.fitChunk hchunk hlen

/-! ## What a clamped back-length costs -/

/-- Two zero bytes, or a zero byte before a clamped back-length, do not decode. -/
theorem decodeEntryAt_eq_none {data : Bytes} {offset : Nat} {h : UInt8}
    (hzero : data[offset]? = some 0) (hhead : data[offset + 1]? = some h)
    (hbad : h = 0 ∨ h = 255) : decodeEntryAt data offset = none := by
  have hvarint : readVarint data offset = some (0, offset + 1) := by
    rw [readVarint, readVarintLoop, hzero]
    rfl
  have hheader : readStringHeader (data.drop (offset + 1)) = none := by
    have h0 : (data.drop (offset + 1))[0]? = some h := by simpa using hhead
    rw [readStringHeader, h0]
    rcases hbad with rfl | rfl <;> rfl
  rw [decodeEntryAt]
  simp [hvarint, getFrom, hheader]

/-- Inside an entry of zero bytes that is too long for its back-length, the walk stops. -/
theorem decodeEntryAt_clamped {n : Nat}
    (hlong : 257 ≤ (encodeEntry (List.replicate n 0) prevLen).length) :
    decodeEntryAt (pre ++ encodeEntry (List.replicate n 0) prevLen ++ post) (pre.length + 255) =
      none := by
  set zeros : Bytes := List.replicate n 0 with hzeros
  have hstart : payloadStart zeros prevLen ≤ 15 := by
    have hvarint : (writeVarint prevLen).length ≤ 10 := writeVarintLoop_length_le 10 _
    have := writeStringHeader_length_le zeros.length
    rw [payloadStart]
    omega
  have hbody : 256 ≤ payloadStart zeros prevLen + n := by
    rw [length_encodeEntry, length_entryBody, length_replicate] at hlong
    exact Nat.le_of_succ_le_succ hlong
  -- from the payload's start on, the entry is zeros and then the clamped byte
  have hdata : pre ++ encodeEntry zeros prevLen ++ post =
      (pre ++ writeVarint prevLen ++ writeStringHeader zeros.length) ++ (zeros ++ 255 :: post) := by
    have hback : min ((entryBody zeros prevLen).length + 1) 255 = 255 := by
      rw [length_encodeEntry] at hlong
      omega
    rw [encodeEntry, hback, entryBody]
    simp only [append_assoc]
    rfl
  have hprelen : (pre ++ writeVarint prevLen ++ writeStringHeader zeros.length).length =
      pre.length + payloadStart zeros prevLen := by
    simp [payloadStart]
  have hat : ∀ k, payloadStart zeros prevLen ≤ k →
      (pre ++ encodeEntry zeros prevLen ++ post)[pre.length + k]? =
        (zeros ++ 255 :: post)[k - payloadStart zeros prevLen]? := by
    intro k hk
    rw [hdata, getElem?_append_right (by omega)]
    congr 1
    omega
  have hpayload : ∀ k, k < n → (zeros ++ 255 :: post)[k]? = some 0 := by
    intro k hk
    rw [getElem?_append_left (by simpa [hzeros] using hk), hzeros]
    simp [hk]
  have hzero := hat 255 (by omega)
  rw [hpayload _ (by omega)] at hzero
  by_cases hfirst : 256 - payloadStart zeros prevLen < n
  · refine decodeEntryAt_eq_none hzero ?_ (.inl rfl)
    rw [hat 256 (by omega), hpayload _ hfirst]
  · refine decodeEntryAt_eq_none hzero ?_ (.inr rfl)
    have hlen : zeros.length = n := length_replicate
    have hend : 256 - payloadStart zeros prevLen = zeros.length := by omega
    rw [hat 256 (by omega), hend, getElem?_append_cons]

/-- **A long entry hides the rest of its node.** Wherever an entry of zero bytes encodes to 257
bytes or more and is not the last, iteration stops right after it. -/
theorem listpackIterFrom_clamped (front : List Bytes) (n : Nat) (f : Bytes) (rest : List Bytes)
    (prevLen left : Nat) (hn : n < 2 ^ 32) (hprev : prevLen < 2 ^ 64)
    (hfits : BacklenFits prevLen (front ++ [List.replicate n 0]))
    (hlong : 257 ≤ n) (hleft : front.length < left) :
    (listpackIterFrom (pre ++ encodeEntries prevLen (front ++ List.replicate n 0 :: f :: rest))
        left pre.length).map Slice.bytes = front ++ [List.replicate n 0] := by
  obtain ⟨left, rfl⟩ : ∃ k, left = front.length + (k + 1) := ⟨left - front.length - 1, by omega⟩
  obtain ⟨lastLen, hlast, hdata, hwalk⟩ := listpackIterFrom_front pre front
    (List.replicate n 0 :: f :: rest) (left + 1) hprev (backlenFits_concat.1 hfits)
  set passed := pre ++ encodeEntries prevLen front
  set enc := encodeEntry (List.replicate n 0) lastLen with henc
  have henclen : 257 ≤ enc.length := by
    rw [length_encodeEntry, length_entryBody, length_replicate]
    omega
  have hhead := decodeEntryAt_encodeEntry passed (encodeEntries enc.length (f :: rest))
    (by simpa using hn : (List.replicate n (0 : UInt8)).length < 2 ^ 32) hlast
  have hstop := decodeEntryAt_clamped passed (encodeEntries enc.length (f :: rest)) henclen
  rw [← henc] at hhead hstop
  rw [hwalk, hdata, append_encodeEntries_cons, ← henc, listpackIterFrom, hhead,
    Nat.min_eq_right (by omega)]
  cases left with
  | zero => simp [listpackIterFrom]
  | succ left => simp only [listpackIterFrom, hstop, map_cons, map_nil]

/-- The node of a 300-byte entry and a one-byte entry iterates over the first one only. -/
theorem listpack_roundTrip_fails :
    ¬ ∀ (node : ListpackNode) (entries : List Bytes), entries.length ≤ 65535 →
      (∀ e ∈ entries, e.length < 2 ^ 32) →
      ActsAsList (encodeNodeEntries node entries) entries := by
  intro h
  have hacts := h {} [List.replicate 300 0, [1]] (by decide) (by decide +kernel)
  have hlost := listpackIterFrom_clamped [] [] 300 [1] [] 0 2 (by omega) (by omega)
    (backlenFits_concat.2 (by simp [encodedLengths])) (by omega) (by decide)
  have hiter := hacts.iter
  simp only [nil_append, length_nil] at hlost
  rw [lpIter] at hiter
  have hboth : [List.replicate 300 0, [1]] = [List.replicate 300 (0 : UInt8)] :=
    hiter.symm.trans hlost
  exact absurd (congrArg List.length hboth) (by decide)

end Senko
