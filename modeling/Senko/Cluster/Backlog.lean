import Senko.Cluster.ReplBuffer

/-!
# Senko — what the replication backlog retains

The ring of a backlog mirrors the bytes of the whole log from the tail on (`Logs`). While every
payload has a length that its header can spell, the tail is a record boundary and the records that
are kept are the longest end of the log that fits (`Holds`): eviction walks over headers that are
still intact. One append keeps that, so every sequence of appends does.
-/

namespace Senko.Cluster

open List hiding Vector

/-! ## Logs as bytes -/

/-- A record as it is written. -/
def entry (payload : Bytes) : Bytes := toBeBytes 4 payload.length ++ payload

/-- The bytes of a log. -/
def wire (log : List Bytes) : Bytes := log.flatMap entry

/-- The number of bytes of a log. -/
def logSize (log : List Bytes) : Nat := (log.map fun payload => 4 + payload.length).sum

@[simp] theorem logSize_nil : logSize [] = 0 := rfl

@[simp] theorem logSize_cons (payload : Bytes) (log : List Bytes) :
    logSize (payload :: log) = 4 + payload.length + logSize log := by
  simp [logSize]

@[simp] theorem logSize_append (front back : List Bytes) :
    logSize (front ++ back) = logSize front + logSize back := by
  simp [logSize]

theorem logSize_take_add_drop (log : List Bytes) (k : Nat) :
    logSize (log.take k) + logSize (log.drop k) = logSize log := by
  rw [← logSize_append, take_append_drop]

variable {log : List Bytes} {k capacity offset evicted : Nat} {payload bytes : Bytes}
  {b : ReplBuffer}

theorem logSize_take_succ (h : log[k]? = some payload) :
    logSize (log.take (k + 1)) = logSize (log.take k) + (4 + payload.length) := by
  rw [take_add_one, h, logSize_append]
  rfl

theorem logSize_take_le (log : List Bytes) (k : Nat) : logSize (log.take k) ≤ logSize log := by
  have h := logSize_take_add_drop log k
  omega

theorem logSize_take_mono (log : List Bytes) {j : Nat} (h : j ≤ k) :
    logSize (log.take j) ≤ logSize (log.take k) := by
  have hle := logSize_take_le (log.take k) j
  rwa [take_take, min_eq_left h] at hle

theorem logSize_take_lt {j : Nat} (h : j < k) (hk : k ≤ log.length) :
    logSize (log.take j) < logSize (log.take k) := by
  have hget : log[j]? = some log[j] := getElem?_eq_getElem (by omega)
  have hnext := logSize_take_succ hget
  have hmono := logSize_take_mono log (Nat.succ_le_of_lt h)
  rw [Nat.succ_eq_add_one] at hmono
  omega

theorem length_le_logSize (log : List Bytes) : log.length ≤ logSize log := by
  induction log with
  | nil => rfl
  | cons payload log ih =>
    rw [length_cons, logSize_cons]
    omega

@[simp] theorem length_entry (payload : Bytes) : (entry payload).length = 4 + payload.length := by
  rw [entry, length_append, length_toBeBytes]

theorem wire_append (front back : List Bytes) : wire (front ++ back) = wire front ++ wire back :=
  flatMap_append

theorem wire_singleton (payload : Bytes) : wire [payload] = entry payload := by
  simp [wire]

theorem length_wire (log : List Bytes) : (wire log).length = logSize log := by
  induction log with
  | nil => rfl
  | cons payload log ih =>
    rw [← singleton_append, wire_append, length_append, ih, wire_singleton, length_entry,
      logSize_append, logSize_cons, logSize_nil, Nat.add_zero]

/-- A record, in the middle of the log. -/
theorem wire_eq_at (h : log[k]? = some payload) :
    wire log = wire (log.take k) ++ (entry payload ++ wire (log.drop (k + 1))) := by
  obtain ⟨hk, hget⟩ := List.getElem?_eq_some_iff.1 h
  have hsplit : log = log.take k ++ ([payload] ++ log.drop (k + 1)) := by
    rw [singleton_append, ← hget, getElem_cons_drop, take_append_drop]
  conv_lhs => rw [hsplit]
  rw [wire_append, wire_append, wire_singleton]

/-- The header of a record spells the length of the payload modulo `2 ^ 32`. -/
theorem fromBeBytes_entry (payload back : Bytes) :
    fromBeBytes ((entry payload ++ back).take 4) = payload.length % 2 ^ 32 := by
  have hheader : (entry payload ++ back).take 4 = toBeBytes 4 payload.length := by
    rw [entry, append_assoc]
    exact take_left' (length_toBeBytes 4 payload.length)
  rw [hheader, fromBeBytes_toBeBytes]
  norm_num

namespace ReplBuffer

/-! ## The bytes in the ring -/

/-- **The ring has the bytes of the log** from the tail on, and the offsets do not wrap. -/
structure Logs (b : ReplBuffer) (bytes : Bytes) : Prop where
  base : b.baseOffset = 0
  head : b.head = bytes.length
  tail : b.tail ≤ b.head
  ring : Ring.Mirrors b.data bytes b.tail
  small : b.head + b.capacity < 2 ^ 64

theorem logs_withCapacity (h : max capacity 8 < 2 ^ 64) : Logs (withCapacity capacity) [] where
  base := rfl
  head := rfl
  tail := le_refl 0
  ring := ⟨Nat.zero_le _, fun i a _ hget => by simp at hget⟩
  small := by
    show 0 + max capacity 8 < 2 ^ 64
    omega

theorem writeBytes_eq (hbase : b.baseOffset = 0) {bytes : Bytes}
    (hsmall : offset + bytes.length ≤ 2 ^ 64) :
    b.writeBytes offset bytes = { b with data := Ring.write b.data offset bytes } := by
  -- the loop, begun at any index
  have hloop : ∀ (bytes : Bytes) (start : Nat) (data : Vector UInt8 b.capacity),
      offset + start + bytes.length ≤ 2 ^ 64 →
      (bytes.zipIdx start).foldl (fun data e =>
        Ring.put data (wrappingAdd (offset - b.baseOffset) e.2) e.1) data =
        Ring.write data (offset + start) bytes := by
    intro bytes
    induction bytes with
    | nil => intro start data _; rfl
    | cons byte rest ih =>
      intro start data hle
      rw [length_cons] at hle
      have hpos : wrappingAdd (offset - b.baseOffset) start = offset + start := by
        rw [hbase]
        exact wrappingAdd_of_lt (by omega)
      rw [zipIdx_cons, foldl_cons, Ring.write]
      show (rest.zipIdx (start + 1)).foldl _
        (Ring.put data (wrappingAdd (offset - b.baseOffset) start) byte) = _
      rw [hpos]
      exact ih (start + 1) _ (by omega)
  have hdata := hloop bytes 0 b.data (by omega)
  rw [writeBytes, hdata]
  rfl

theorem Logs.readBytes (h : Logs b bytes) {len : Nat} (htail : b.tail ≤ offset)
    (hlen : offset + len ≤ bytes.length) :
    b.readBytes offset len = (bytes.drop offset).take len := by
  have hsmall := h.small
  have hhead := h.head
  have hread : b.readBytes offset len = Ring.read b.data offset len := by
    apply map_congr_left
    intro index hindex
    have hlt := mem_range.1 hindex
    rw [h.base, Nat.sub_zero, wrappingAdd_of_lt (by omega)]
  rw [hread]
  exact h.ring.read htail hlen

theorem Logs.readU32 (h : Logs b bytes) (htail : b.tail ≤ offset)
    (hlen : offset + 4 ≤ bytes.length) :
    b.readU32 offset = .ok (fromBeBytes ((bytes.drop offset).take 4)) := by
  have hsmall := h.small
  have hhead := h.head
  have hbyte : ∀ index < 4, b.byteAt (wrappingAdd offset index) =
      some (Ring.get b.data (offset + index)) := by
    intro index hindex
    rw [wrappingAdd_of_lt (by omega), byteAt, h.base, if_neg (Nat.not_lt_zero _), Nat.sub_zero]
  have hread : (List.range 4).mapM (fun index => b.byteAt (wrappingAdd offset index)) =
      some (Ring.read b.data offset 4) := by
    show [0, 1, 2, 3].mapM (fun index => b.byteAt (wrappingAdd offset index)) = _
    simp [hbyte 0, hbyte 1, hbyte 2, hbyte 3, Ring.read, range_succ]
  rw [ReplBuffer.readU32, hread, h.ring.read htail hlen]

/-- **A record is read back** up to the length its header spells. -/
theorem Logs.readRecord {front back : Bytes}
    (h : Logs b (front ++ (entry payload ++ back))) (htail : b.tail ≤ front.length) :
    b.readRecord front.length = .ok ⟨front.length, front.length + (4 + payload.length % 2 ^ 32),
      payload.take (payload.length % 2 ^ 32)⟩ := by
  have hle : payload.length % 2 ^ 32 ≤ payload.length := Nat.mod_le _ _
  have hlength : (front ++ (entry payload ++ back)).length =
      front.length + (4 + payload.length + back.length) := by
    rw [length_append, length_append, length_entry]
  have hhead := h.head
  have hsmall := h.small
  have hdrop : (front ++ (entry payload ++ back)).drop front.length = entry payload ++ back :=
    drop_left
  have hu32 : b.readU32 front.length = .ok (payload.length % 2 ^ 32) := by
    rw [h.readU32 htail (by omega), hdrop, fromBeBytes_entry]
  have hraw : b.readBytes front.length (4 + payload.length % 2 ^ 32) =
      toBeBytes 4 payload.length ++ payload.take (payload.length % 2 ^ 32) := by
    rw [h.readBytes htail (by omega), hdrop, entry, append_assoc, take_append, length_toBeBytes,
      take_of_length_le (by simp), Nat.add_sub_cancel_left,
      take_append_of_le_length hle]
  have hfrom : b.readFrom front.length =
      .ok (toBeBytes 4 payload.length ++ payload.take (payload.length % 2 ^ 32)) := by
    rw [readFrom, if_neg (not_lt.2 htail), if_neg (by omega),
      wrappingAdd_of_lt (by omega), if_neg (by omega), hu32]
    show (if b.head < wrappingAdd front.length (4 + payload.length % 2 ^ 32) then _ else _) = _
    rw [wrappingAdd_of_lt (by omega), if_neg (by omega), hraw]
  have hheader : fromBeBytes ((toBeBytes 4 payload.length ++
      payload.take (payload.length % 2 ^ 32)).take 4) = payload.length % 2 ^ 32 := by
    rw [take_left' (length_toBeBytes 4 payload.length), fromBeBytes_toBeBytes]
    norm_num
  rw [ReplBuffer.readRecord, hfrom]
  show Except.ok (ReplRecord.mk _ (wrappingAdd front.length (4 + fromBeBytes _)) _) = _
  rw [hheader, wrappingAdd_of_lt (by omega), drop_left' (length_toBeBytes 4 payload.length)]

/-- What is read at any offset, boundary or not, lies before the head. -/
theorem Logs.readRecord_bound (h : Logs b bytes) (hfar : b.head < 2 ^ 63)
    {record : ReplRecord} (hread : b.readRecord offset = .ok record) :
    record.endOffset = offset + (4 + record.payload.length) ∧ record.endOffset ≤ b.head := by
  have hhead := h.head
  rw [ReplBuffer.readRecord, readFrom] at hread
  by_cases hold : offset < b.tail
  · rw [if_pos hold] at hread
    cases hread
  by_cases hnew : b.head ≤ offset
  · rw [if_neg hold, if_pos hnew] at hread
    cases hread
  rw [if_neg hold, if_neg hnew, wrappingAdd_of_lt (by omega)] at hread
  by_cases hshort : b.head < offset + 4
  · rw [if_pos hshort] at hread
    cases hread
  -- the length that the header spells, and the check that the payload ends before the head
  rw [if_neg hshort, h.readU32 (not_lt.1 hold) (by omega)] at hread
  have hword := fromBeBytes_lt ((bytes.drop offset).take 4)
  rw [length_take, length_drop, Nat.min_eq_left (by omega)] at hword
  generalize hlen : fromBeBytes ((bytes.drop offset).take 4) = len at hread hword
  simp only at hread
  rw [wrappingAdd_of_lt (by omega)] at hread
  by_cases hend : b.head < offset + (4 + len)
  · rw [if_pos hend] at hread
    cases hread
  rw [if_neg hend, h.readBytes (not_lt.1 hold) (by omega)] at hread
  have hheader : ((bytes.drop offset).take (4 + len)).take 4 = (bytes.drop offset).take 4 := by
    rw [take_take, Nat.min_eq_left (by omega)]
  simp only [hheader, Except.ok.injEq] at hread
  subst hread
  simp only [length_drop, length_take]
  rw [wrappingAdd_of_lt (by omega)]
  omega

/-- **An entry is added to the bytes**, and the tail may have moved to make room for it. -/
theorem Logs.append (h : Logs b bytes) {tail : Nat} (hle : b.tail ≤ tail)
    (htail : tail ≤ b.head) (hroom : b.head + (4 + payload.length) ≤ tail + b.capacity)
    (hsmall : b.head + (4 + payload.length) + b.capacity < 2 ^ 64) :
    Logs (b.pushEntry payload tail) (bytes ++ entry payload) := by
  have hhead : wrappingAdd b.head (4 + payload.length) = b.head + (4 + payload.length) :=
    wrappingAdd_of_lt (by omega)
  have hentry : b.writeEntry payload =
      { b with data := Ring.write b.data b.head (entry payload) } := by
    have hheader : b.head + (toBeBytes 4 payload.length).length ≤ 2 ^ 64 := by
      rw [length_toBeBytes]
      omega
    let first : ReplBuffer :=
      { b with data := Ring.write b.data b.head (toBeBytes 4 payload.length) }
    have hfirst : first.baseOffset = 0 := h.base
    rw [writeEntry, writeBytes_eq h.base hheader, wrappingAdd_of_lt (by omega)]
    show first.writeBytes (b.head + 4) payload = _
    rw [writeBytes_eq hfirst (by omega), entry, Ring.write_append, length_toBeBytes]
  constructor
  · show (b.writeEntry payload).baseOffset = 0
    rw [hentry, h.base]
  · show wrappingAdd b.head (4 + payload.length) = (bytes ++ entry payload).length
    rw [hhead, length_append, length_entry, h.head]
  · show tail ≤ wrappingAdd b.head (4 + payload.length)
    omega
  · show Ring.Mirrors (b.writeEntry payload).data (bytes ++ entry payload) tail
    rw [hentry, h.head]
    apply (h.ring.mono hle).write
    rw [length_append, length_entry, ← h.head]
    exact hroom
  · show wrappingAdd b.head (4 + payload.length) + b.capacity < 2 ^ 64
    omega

/-! ## The records in the ring -/

/-- **The ring keeps the longest end of the log that fits**: the first `evicted` records are gone,
and every end of the log that has one of them is longer than the ring. -/
structure Holds (b : ReplBuffer) (log : List Bytes) (evicted : Nat) : Prop extends
    Logs b (wire log) where
  evicted_le : evicted ≤ log.length
  tail_eq : b.tail = logSize (log.take evicted)
  longest : ∀ k < evicted, b.capacity < logSize (log.drop k)
  short : ∀ payload ∈ log, payload.length < 2 ^ 32

theorem Holds.head_eq (h : Holds b log evicted) : b.head = logSize log := by
  rw [h.head, length_wire]

/-- The records that are kept fit. -/
theorem Holds.retained_le (h : Holds b log evicted) : logSize (log.drop evicted) ≤ b.capacity := by
  have hring := h.ring.1
  have hsplit := logSize_take_add_drop log evicted
  have htail := h.tail_eq
  rw [length_wire] at hring
  omega

section Evicts

variable (h : Holds b log evicted) (hk : evicted ≤ k)

include h hk

/-- A record that is kept starts at the tail or later. -/
theorem Holds.tail_le_start : b.tail ≤ logSize (log.take k) := by
  rw [h.tail_eq]
  exact logSize_take_mono log hk

theorem Holds.readRecord (hget : log[k]? = some payload) : b.readRecord (logSize (log.take k)) =
      .ok ⟨logSize (log.take k), logSize (log.take (k + 1)), payload⟩ := by
  have hshort := h.short payload (mem_of_getElem? hget)
  have hlogs := h.toLogs
  rw [wire_eq_at hget] at hlogs
  have htail := h.tail_le_start hk
  rw [← length_wire] at htail ⊢
  rw [hlogs.readRecord htail, Nat.mod_eq_of_lt hshort, take_length, logSize_take_succ hget,
    length_wire]

/-- The header of a record that is kept is intact. -/
theorem Holds.entryTotalLenAt (hget : log[k]? = some payload) :
    b.entryTotalLenAt (logSize (log.take k)) = .ok (4 + payload.length) := by
  have hshort := h.short payload (mem_of_getElem? hget)
  have hnext := logSize_take_succ hget
  have hnextLe := logSize_take_le log (k + 1)
  have hhead := h.head_eq
  have hsmall := h.small
  have hdrop : (wire log).drop (logSize (log.take k)) =
      entry payload ++ wire (log.drop (k + 1)) := by
    rw [wire_eq_at hget, ← length_wire]
    exact drop_left
  have hu32 : b.readU32 (logSize (log.take k)) = .ok payload.length := by
    rw [h.readU32 (h.tail_le_start hk) (by rw [length_wire]; omega), hdrop, fromBeBytes_entry,
      Nat.mod_eq_of_lt hshort]
  rw [ReplBuffer.entryTotalLenAt, wrappingAdd_of_lt (by omega), if_neg (by omega), hu32]
  rfl

/-- **Eviction walks to the first record from which the entry fits.** -/
theorem Holds.evict {totalLen : Nat} (hfits : totalLen ≤ b.capacity)
    (hsmall : b.head + totalLen < 2 ^ 64) {fuel : Nat} (hle : k ≤ log.length)
    (hfuel : log.length - k < fuel) :
    ∃ k', k ≤ k' ∧ k' ≤ log.length ∧
      b.evict totalLen fuel (logSize (log.take k)) = some (.ok (logSize (log.take k'))) ∧
      b.head + totalLen ≤ logSize (log.take k') + b.capacity ∧
      ∀ j, k ≤ j → j < k' → logSize (log.take j) + b.capacity < b.head + totalLen := by
  have hhead := h.head_eq
  have hbound := h.small
  induction fuel generalizing k with
  | zero => omega
  | succ fuel ih =>
    have hstart := logSize_take_le log k
    have htail : wrappingAdd (logSize (log.take k)) b.capacity =
        logSize (log.take k) + b.capacity := wrappingAdd_of_lt (by omega)
    rw [ReplBuffer.evict, htail, wrappingAdd_of_lt hsmall]
    by_cases hfull : logSize (log.take k) + b.capacity < b.head + totalLen
    · -- the record at `k` is given up; there is one, since nothing would be left to give up
      have hlt : k < log.length := by
        by_contra hge
        rw [take_of_length_le (not_lt.1 hge)] at hfull
        omega
      have hget : log[k]? = some log[k] := getElem?_eq_getElem hlt
      have hnext := logSize_take_succ hget
      have hnextLe := logSize_take_le log (k + 1)
      have hsat : saturatingAdd (logSize (log.take k)) (4 + log[k].length) =
          logSize (log.take (k + 1)) := by
        rw [saturatingAdd, u64Max]
        omega
      rw [if_pos hfull, h.entryTotalLenAt hk hget]
      show ∃ k', k ≤ k' ∧ k' ≤ log.length ∧ b.evict totalLen fuel (saturatingAdd _ _) = _ ∧ _
      rw [hsat]
      obtain ⟨k', hk', hle', hevict, hroom, hbefore⟩ :=
        ih (k := k + 1) (by omega) (by omega) (by omega)
      refine ⟨k', by omega, hle', hevict, hroom, ?_⟩
      intro j hj hjk'
      by_cases hjk : j = k
      · rwa [hjk]
      · exact hbefore j (by omega) hjk'
    · rw [if_neg hfull]
      exact ⟨k, le_refl k, hle, rfl, by omega, fun j hj hjk => by omega⟩

end Evicts

theorem tryAppend_of_evict {tail : Nat} (hfits : 4 + payload.length ≤ b.capacity)
    (hevict : b.evict (4 + payload.length) (2 ^ 64) b.tail = some (.ok tail)) :
    b.tryAppend payload =
      some (.ok (wrappingAdd b.head (4 + payload.length)), b.pushEntry payload tail) := by
  show (if b.capacity < 4 + payload.length then _ else _) = _
  rw [if_neg (not_lt.2 hfits), hevict]

/-- **One append** of a payload that fits. -/
theorem Holds.tryAppend (h : Holds b log evicted)
    (hfits : 4 + payload.length ≤ b.capacity) (hshort : payload.length < 2 ^ 32)
    (hsmall : b.head + (4 + payload.length) + b.capacity < 2 ^ 64) :
    ∃ b' evicted', b.tryAppend payload = some (.ok (logSize (log ++ [payload])), b') ∧
      b'.capacity = b.capacity ∧ Holds b' (log ++ [payload]) evicted' := by
  have hhead := h.head_eq
  have hlen := length_le_logSize log
  have hfuel : log.length - evicted < 2 ^ 64 := by omega
  obtain ⟨k, hk, hle, hevict, hroom, hbefore⟩ :=
    h.evict (le_refl evicted) hfits (by omega) h.evicted_le hfuel
  have hnewHead : wrappingAdd b.head (4 + payload.length) = logSize (log ++ [payload]) := by
    rw [wrappingAdd_of_lt (by omega), logSize_append, logSize_cons, logSize_nil]
    omega
  have hlogs : Logs (b.pushEntry payload (logSize (log.take k))) (wire log ++ entry payload) :=
    h.toLogs.append (h.tail_le_start hk) (by rw [hhead]; exact logSize_take_le log k) hroom hsmall
  rw [← wire_singleton, ← wire_append] at hlogs
  refine ⟨b.pushEntry payload (logSize (log.take k)), k, ?_, rfl, hlogs, ?_, ?_, ?_, ?_⟩
  · rw [← h.tail_eq] at hevict
    rw [tryAppend_of_evict hfits hevict, hnewHead]
  · rw [length_append]
    omega
  · show logSize (log.take k) = _
    rw [take_append_of_le_length hle]
  · -- an end of the log that is older than what is kept did not fit before, or does not now
    intro j hj
    show b.capacity < _
    rw [drop_append_of_le_length (by omega), logSize_append, logSize_cons]
    by_cases hold : j < evicted
    · have hlongest := h.longest j hold
      omega
    · have hfull := hbefore j (not_lt.1 hold) hj
      have hsplit := logSize_take_add_drop log j
      omega
  · exact forall_mem_append.2 ⟨h.short, forall_mem_singleton.2 (by assumption)⟩

/-- A payload that does not fit is refused. -/
theorem tryAppend_tooLarge (h : b.capacity < 4 + payload.length) : b.tryAppend payload =
      some (.error (.entryTooLarge (4 + payload.length) b.capacity), b) := by
  show (if b.capacity < 4 + payload.length then _ else _) = _
  rw [if_pos h]

/-! ## Sequences of appends -/

/-- A sequence of appends, with the payloads that were accepted, after those of `log`. -/
def appendAll (b : ReplBuffer) (log : List Bytes) : List Bytes → Option (ReplBuffer × List Bytes)
  | [] => some (b, log)
  | payload :: calls =>
    match b.tryAppend payload with
    | none => none
    | some (.ok _, b') => appendAll b' (log ++ [payload]) calls
    | some (.error _, b') => appendAll b' log calls

/-- **What the backlog promises** of a log: tail and head are record boundaries at most the
capacity apart, the records between them are the longest end of the log that fits, each of them is
read at its start, and other offsets are refused. -/
def Retains (b : ReplBuffer) (log : List Bytes) : Prop :=
  ∃ evicted ≤ log.length,
    b.tail = logSize (log.take evicted) ∧ b.head = logSize log ∧ b.head ≤ b.tail + b.capacity ∧
    (∀ k, logSize (log.drop k) ≤ b.capacity ↔ evicted ≤ k) ∧
    (∀ k payload, evicted ≤ k → log[k]? = some payload →
      b.readRecord (logSize (log.take k)) =
        .ok ⟨logSize (log.take k), logSize (log.take (k + 1)), payload⟩) ∧
    (∀ offset < b.tail, b.readRecord offset = .error (.offsetTooOld offset b.tail)) ∧
    ∀ offset ≥ b.head, b.readRecord offset = .error (.noData offset b.head)

/-- The payloads that fit the ring. -/
def fitting (capacity : Nat) (calls : List Bytes) : List Bytes :=
  calls.filter fun payload => 4 + payload.length ≤ capacity

/-- Every payload that fits the ring has a length that a `u32` can spell, and the log that they
make is short enough for its offsets to be `u64` values. -/
structure Countable (capacity : Nat) (calls : List Bytes) : Prop where
  short : ∀ payload ∈ calls, 4 + payload.length ≤ capacity → payload.length < 2 ^ 32
  small : logSize (fitting capacity calls) + capacity < 2 ^ 64

theorem Holds.retains (h : Holds b log evicted) : Retains b log := by
  refine ⟨evicted, h.evicted_le, h.tail_eq, h.head_eq, ?_, ?_, ?_, ?_, ?_⟩
  · rw [h.head]
    exact h.ring.1
  · intro k
    constructor
    · intro hfits
      by_contra hlt
      have hlongest := h.longest k (not_le.1 hlt)
      omega
    · intro hk
      have hretained := h.retained_le
      have hsplit := logSize_take_add_drop log k
      have hsplit' := logSize_take_add_drop log evicted
      have hmono := logSize_take_mono log hk
      omega
  · intro k payload hk hget
    exact h.readRecord hk hget
  · intro offset hlt
    rw [ReplBuffer.readRecord, readFrom, if_pos hlt]
  · intro offset hge
    have htail := h.tail
    rw [ReplBuffer.readRecord, readFrom, if_neg (by omega), if_pos hge]

/-- A sequence of appends keeps the log: the payloads that fit are accepted, and no others. -/
theorem Holds.appendAll (h : Holds b log evicted) {calls : List Bytes}
    (hshort : ∀ payload ∈ calls, 4 + payload.length ≤ b.capacity → payload.length < 2 ^ 32)
    (hsmall : logSize log + logSize (fitting b.capacity calls) + b.capacity < 2 ^ 64) :
    ∃ b' evicted', b.appendAll log calls = some (b', log ++ fitting b.capacity calls) ∧
      Holds b' (log ++ fitting b.capacity calls) evicted' := by
  induction calls generalizing b log evicted with
  | nil =>
    rw [fitting, filter_nil, append_nil]
    exact ⟨b, evicted, rfl, h⟩
  | cons payload calls ih =>
    have hrest : ∀ other ∈ calls, 4 + other.length ≤ b.capacity → other.length < 2 ^ 32 :=
      fun other hother => hshort other (mem_cons_of_mem _ hother)
    by_cases hfits : 4 + payload.length ≤ b.capacity
    · have hcons : fitting b.capacity (payload :: calls) = payload :: fitting b.capacity calls :=
        filter_cons_of_pos (by simpa using hfits)
      rw [hcons, logSize_cons] at hsmall
      have hhead := h.head_eq
      obtain ⟨b', evicted', happend, hcapacity, hholds⟩ :=
        h.tryAppend hfits (hshort payload mem_cons_self hfits) (by omega)
      rw [hcons, append_cons log payload (fitting _ calls), ReplBuffer.appendAll, happend,
        ← hcapacity]
      apply ih hholds
      · rwa [hcapacity]
      · rw [hcapacity, logSize_append, logSize_cons, logSize_nil]
        omega
    · -- a payload that does not fit is refused, and the log stays as it is
      have hcons : fitting b.capacity (payload :: calls) = fitting b.capacity calls :=
        filter_cons_of_neg (by simpa using hfits)
      rw [hcons] at hsmall ⊢
      rw [ReplBuffer.appendAll, tryAppend_tooLarge (not_le.1 hfits)]
      exact ih h hrest hsmall

theorem holds_withCapacity (h : max capacity 8 < 2 ^ 64) : Holds (withCapacity capacity) [] 0 where
  toLogs := logs_withCapacity h
  evicted_le := le_refl 0
  tail_eq := rfl
  longest := fun k hk => absurd hk (Nat.not_lt_zero k)
  short := fun _ hmem => absurd hmem not_mem_nil

/-- The log of a sequence of appends is kept. -/
theorem holds_appendAll {calls : List Bytes} (h : Countable (max capacity 8) calls) :
    ∃ b evicted, (withCapacity capacity).appendAll [] calls =
        some (b, fitting (max capacity 8) calls) ∧
      Holds b (fitting (max capacity 8) calls) evicted := by
  have hsmall := h.small
  have hempty : Holds (withCapacity capacity) [] 0 := holds_withCapacity (by omega)
  have htotal :
      logSize [] + logSize (fitting (max capacity 8) calls) + max capacity 8 < 2 ^ 64 := by
    rw [logSize_nil]
    omega
  exact hempty.appendAll h.short htotal

/-- **The backlog retains the end of the log**, for every capacity and every sequence of appends
whose lengths and offsets can be counted. The log is of the payloads that fit the ring; the others
are refused. -/
theorem backlog_retains_longest_end (capacity : Nat) (calls : List Bytes)
    (h : Countable (max capacity 8) calls) :
    ∃ b, (withCapacity capacity).appendAll [] calls = some (b, fitting (max capacity 8) calls) ∧
      Retains b (fitting (max capacity 8) calls) := by
  obtain ⟨b, evicted, hrun, hholds⟩ := holds_appendAll h
  exact ⟨b, hrun, hholds.retains⟩

/-- Four calls on a ring of sixteen bytes: the third is refused, the last evicts the first. -/
theorem backlog_retains_longest_end_four :
    ∃ b, (withCapacity 16).appendAll [] [[1, 2], [3, 4], List.replicate 20 5, [6]] =
      some (b, [[1, 2], [3, 4], [6]]) ∧ Retains b [[1, 2], [3, 4], [6]] :=
  backlog_retains_longest_end 16 _ ⟨by decide, by decide⟩

/-- The first append, of a payload of any length that fits. -/
theorem tryAppend_withCapacity (hfits : 4 + payload.length ≤ max capacity 8)
    (hsmall : 4 + payload.length + max capacity 8 < 2 ^ 64) :
    (withCapacity capacity).tryAppend payload =
      some (.ok (4 + payload.length), (withCapacity capacity).pushEntry payload 0) ∧
    Logs ((withCapacity capacity).pushEntry payload 0) (entry payload) := by
  have hhead : wrappingAdd 0 (4 + payload.length) = 4 + payload.length := by
    rw [wrappingAdd_of_lt (by omega), Nat.zero_add]
  have hevict : (withCapacity capacity).evict (4 + payload.length) (2 ^ 64) 0 = some (.ok 0) := by
    show (if wrappingAdd 0 (max capacity 8) < wrappingAdd 0 (4 + payload.length) then _ else _) = _
    rw [wrappingAdd_of_lt (by omega), if_neg (by omega)]
  constructor
  · rw [tryAppend_of_evict hfits hevict]
    show some (Except.ok (wrappingAdd 0 (4 + payload.length)), _) = _
    rw [hhead]
  · apply (logs_withCapacity (by omega)).append (le_refl 0) (le_refl 0)
    · show 0 + (4 + payload.length) ≤ 0 + max capacity 8
      omega
    · show 0 + (4 + payload.length) + max capacity 8 < 2 ^ 64
      omega

/-- **A payload of `2 ^ 32` bytes reads back empty**: its header spells zero. -/
theorem backlog_retains_longest_end_fails : ¬∀ (capacity : Nat) (calls : List Bytes), ∃ b log,
      (withCapacity capacity).appendAll [] calls = some (b, log) ∧ Retains b log := by
  intro hall
  obtain ⟨payload, hlength⟩ : ∃ payload : Bytes, payload.length = 2 ^ 32 :=
    ⟨List.replicate (2 ^ 32) 0, length_replicate⟩
  obtain ⟨b, log, hrun, hretains⟩ := hall (2 ^ 32 + 8) [payload]
  have hfit : 4 + payload.length ≤ max (2 ^ 32 + 8) 8 := by omega
  obtain ⟨happend, hlogs⟩ := tryAppend_withCapacity hfit (by omega)
  rw [appendAll, happend] at hrun
  obtain ⟨rfl, rfl⟩ := Prod.mk.inj (Option.some.inj hrun)
  obtain ⟨evicted, -, -, -, -, hlongest, hread, -⟩ := hretains
  -- nothing is evicted, so the record is to be read at offset zero
  have hfits : logSize (([] ++ [payload]).drop 0) ≤ max (2 ^ 32 + 8) 8 := by
    show logSize [payload] ≤ _
    rw [logSize_cons, logSize_nil]
    omega
  have hkept : evicted ≤ 0 := (hlongest 0).1 hfits
  have hclaimed := hread 0 payload hkept rfl
  have hlogs' : Logs ((withCapacity (2 ^ 32 + 8)).pushEntry payload 0)
      ([] ++ (entry payload ++ [])) := by
    rwa [nil_append, append_nil]
  have hreal := hlogs'.readRecord (le_refl 0)
  rw [hlength] at hreal
  have hsame := hclaimed.symm.trans hreal
  have hempty : payload = [] := congrArg ReplRecord.payload (Except.ok.inj hsame)
  rw [hempty] at hlength
  exact absurd hlength (by decide)

end ReplBuffer

end Senko.Cluster
