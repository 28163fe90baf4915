import Senko.Core.ListpackFind
import Senko.Core.Set

/-!
# Senko — the cursor loops over a listpack

`lp_find` and `lp_set_contains` move their cursor by a byte read from the buffer. Over entries that
fit their back-length that byte is the size of the entry, so both loops advance and end
(`advancesToEnd_of_fits`), and a node that only took elements of at most 249 bytes has no other
entries (`HoldsShort.run`). An entry above 255 bytes clamps the byte: the cursor then lands in the
payload, and a zero read there as a back-length keeps it where it is.
-/

namespace Senko

/-- One round of a cursor loop that stops at `found`: the cursor of the next round, if any. -/
def scanRound (data : Bytes) (found : Slice → Prop) [DecidablePred found] (cursor : Nat) :
    Option Nat :=
  if cursor < data.length then
    match decodeEntryAt data cursor with
    | none => none
    | some (payload, nextCursor) => if found payload then none else some nextCursor
  else none

/-- The loop of `lp_find` for the candidate `offset`. -/
def lpFindRound (data element : Bytes) (offset : Nat) : Nat → Option Nat :=
  scanRound data fun payload => payload.start = offset ∧ payload.bytes.length = element.length

/-- The loop of `lp_set_contains`. -/
def lpSetContainsRound (data member : Bytes) : Nat → Option Nat :=
  scanRound data fun payload =>
    memmemFind payload.bytes member = some 0 ∧ payload.bytes.length = member.length

variable {data needle : Bytes} {offset cursor next : Nat}

theorem scanRound_eq_some {found : Slice → Prop} [DecidablePred found]
    (h : scanRound data found cursor = some next) : cursor < data.length ∧
      ∃ payload, decodeEntryAt data cursor = some (payload, next) ∧ ¬ found payload := by
  unfold scanRound at h
  split at h
  · split at h
    · cases h
    · split at h
      · cases h
      · cases h
        exact ⟨‹_›, _, ‹_›, ‹_›⟩
  · cases h

theorem scanRound_eq_none {found : Slice → Prop} [DecidablePred found]
    (h : scanRound data found cursor = none) : ¬ cursor < data.length ∨
      decodeEntryAt data cursor = none ∨
        ∃ payload next, decodeEntryAt data cursor = some (payload, next) ∧ found payload := by
  unfold scanRound at h
  split at h
  · split at h
    · exact .inr (.inl ‹_›)
    · split at h
      · exact .inr (.inr ⟨_, _, ‹_›, ‹_›⟩)
      · cases h
  · exact .inl ‹_›

/-- From `cursor` on, every round moves the cursor forward, and the rounds end. -/
inductive AdvancesToEnd (round : Nat → Option Nat) : Nat → Prop where
  | stop {cursor : Nat} (h : round cursor = none) : AdvancesToEnd round cursor
  | next {cursor nextCursor : Nat} (h : round cursor = some nextCursor) (hlt : cursor < nextCursor)
      (hrest : AdvancesToEnd round nextCursor) : AdvancesToEnd round cursor

/-- **A loop that advances to its end has enough fuel** with one unit for each position of the
cursor: more fuel changes nothing. -/
theorem AdvancesToEnd.loop_eq {β : Type} {round : Nat → Option Nat} (loop : Nat → Nat → β)
    (after : β → β) (size : Nat)
    (hround : ∀ {cursor next}, round cursor = some next →
      cursor < size ∧ ∀ fuel, loop (fuel + 1) cursor = after (loop fuel next))
    (hstop : ∀ {cursor}, round cursor = none → ∀ fuel, loop (fuel + 1) cursor = loop 1 cursor)
    (hend : ∀ {cursor}, size ≤ cursor → ∀ fuel, loop fuel cursor = loop 0 cursor) {cursor : Nat}
    (h : AdvancesToEnd round cursor) {fuel : Nat} (hfuel : size ≤ cursor + fuel) (more : Nat) :
    loop (fuel + more) cursor = loop fuel cursor := by
  -- along the rounds of the scan; a round that stops needs no more fuel than it has
  induction h generalizing fuel with
  | @stop cursor hnone =>
    cases fuel with
    | zero => rw [hend (by omega), hend (by omega)]
    | succ fuel => rw [Nat.add_right_comm, hstop hnone, hstop hnone fuel]
  | @next cursor nextCursor hsome hlt hrest ih =>
    obtain ⟨hcursor, hstep⟩ := hround hsome
    cases fuel with
    | zero => omega
    | succ fuel => rw [Nat.add_right_comm, hstep, hstep, ih (by omega)]

theorem advancesToEnd_of_fits (pre : Bytes) (entries : List Bytes) (found : Slice → Prop)
    [DecidablePred found] {prevLen : Nat} (hprev : prevLen < 2 ^ 64)
    (hfits : ∀ len ∈ encodedLengths prevLen entries, len ≤ 255) :
    AdvancesToEnd (scanRound (pre ++ encodeEntries prevLen entries) found) pre.length := by
  induction entries generalizing pre prevLen with
  | nil => exact .stop (by simp [scanRound, encodeEntries])
  | cons e entries ih =>
    obtain ⟨hfit, hfits⟩ := List.forall_mem_cons.1 hfits
    have hhead := decodeEntryAt_cons pre entries hprev hfit
    have hrest := ih (pre ++ encodeEntry e prevLen) (by omega) hfits
    rw [← append_encodeEntries_cons] at hrest
    have hround : scanRound (pre ++ encodeEntries prevLen (e :: entries)) found pre.length =
        if found ⟨pre.length + payloadStart e prevLen, e⟩ then none
        else some (pre ++ encodeEntry e prevLen).length := by
      rw [scanRound, if_pos (lt_of_decodeEntryAt hhead), hhead]
    by_cases hfound : found ⟨pre.length + payloadStart e prevLen, e⟩
    · exact .stop (hround.trans (if_pos hfound))
    · refine .next (hround.trans (if_neg hfound)) ?_ hrest
      rw [List.length_append, length_encodeEntry]
      omega

/-- The loops of both searches, over the whole node. -/
def ScansEnd (node : ListpackNode) (needle : Bytes) : Prop :=
  (∀ offset ∈ memmemFindIter node.data needle,
      AdvancesToEnd (lpFindRound node.data needle offset) 0) ∧
    AdvancesToEnd (lpSetContainsRound node.data needle) 0

/-- More fuel than the model gives them changes the result of no loop. -/
def FuelSuffices (node : ListpackNode) (needle : Bytes) : Prop :=
  ∀ more, (∀ offset ∈ memmemFindIter node.data needle,
      lpFindWalk node.data offset needle.length (node.data.length + more) 0 0 =
        lpFindWalk node.data offset needle.length node.data.length 0 0) ∧
    lpSetContainsLoop node.data needle (node.data.length + more) 0 =
      lpSetContainsLoop node.data needle node.data.length 0

theorem ScansEnd.fuelSuffices {node : ListpackNode} (h : ScansEnd node needle) :
    FuelSuffices node needle := by
  refine fun more => ⟨fun offset hoffset => ?_, ?_⟩
  · have hloop := (h.1 offset hoffset).loop_eq
      (fun fuel cursor index => lpFindWalk node.data offset needle.length fuel cursor index)
      (fun walk index => walk (index + 1)) node.data.length
      (fun hround => by
        obtain ⟨hlt, payload, hdecode, hfound⟩ := scanRound_eq_some hround
        exact ⟨hlt, fun fuel => funext fun index => by simp [lpFindWalk, hlt, hdecode, hfound]⟩)
      (fun hnone fuel => funext fun index => by
        rcases scanRound_eq_none hnone with hend | hdecode | ⟨payload, next, hdecode, hfound⟩
        · simp [lpFindWalk, hend]
        · simp [lpFindWalk, hdecode]
        · simp [lpFindWalk, hdecode, hfound])
      (fun hend fuel => funext fun index => by
        cases fuel <;> simp [lpFindWalk, not_lt.2 hend])
      (Nat.le_add_left _ _) more
    exact congrFun hloop 0
  · refine h.2.loop_eq (lpSetContainsLoop node.data needle) id node.data.length
      (fun hround => ?_) (fun hnone fuel => ?_) (fun hend fuel => ?_) (by omega) more
    · obtain ⟨hlt, payload, hdecode, hfound⟩ := scanRound_eq_some hround
      exact ⟨hlt, fun fuel => by simp [lpSetContainsLoop, hlt, hdecode, hfound]⟩
    · rcases scanRound_eq_none hnone with hend | hdecode | ⟨payload, next, hdecode, hfound⟩
      · simp [lpSetContainsLoop, hend]
      · simp [lpSetContainsLoop, hdecode]
      · simp [lpSetContainsLoop, hdecode, hfound]
    · cases fuel <;> simp [lpSetContainsLoop, not_lt.2 hend]

/-! ## Writing a node -/

/-- Every entry is short. The count of a node with too many of them has wrapped around. -/
def HoldsShort (node : ListpackNode) : Prop :=
  ∃ entries, node.data = encodeEntries 0 entries ∧ node.count ≤ entries.length ∧
    ∀ e ∈ entries, ShortElement e

theorem holdsShort_encode (node : ListpackNode) {entries : List Bytes}
    (h : ∀ e ∈ entries, ShortElement e) : HoldsShort (encodeNodeEntries node entries) :=
  ⟨entries, rfl, Nat.mod_le _ _, h⟩

theorem HoldsShort.scansEnd {node : ListpackNode} (h : HoldsShort node) (needle : Bytes) :
    ScansEnd node needle := by
  obtain ⟨entries, hdata, -, hshort⟩ := h
  have hfits := encodedLengths_le_of_short hshort (Nat.zero_le 255)
  rw [ScansEnd, hdata]
  exact ⟨fun offset _ => advancesToEnd_of_fits [] entries _ (by norm_num) hfits,
    advancesToEnd_of_fits [] entries _ (by norm_num) hfits⟩

theorem HoldsShort.decoded {node : ListpackNode} (h : HoldsShort node) :
    ∀ e ∈ decodeAllEntries node, ShortElement e := by
  obtain ⟨entries, hdata, hcount, hshort⟩ := h
  have hfront : ∀ e ∈ entries.take node.count, ShortElement e := fun e he =>
    hshort e (List.mem_of_mem_take he)
  obtain ⟨-, -, -, hwalk⟩ := listpackIterFrom_front [] (entries.take node.count)
    (entries.drop node.count) 0 (by norm_num)
    (encodedLengths_le_of_short hfront (Nat.zero_le 255))
  simp only [List.nil_append, List.take_append_drop, ← hdata, List.length_take,
    Nat.min_eq_left hcount, Nat.add_zero, List.length_nil, listpackIterFrom, List.map_nil,
    List.append_nil] at hwalk
  rw [decodeAllEntries, lpIter, hwalk]
  exact hfront

/-- The operations that write an element into a node. -/
inductive LpWrite where
  | pushBack (element : Bytes)
  | pushFront (element : Bytes)
  | insertBefore (index : Nat) (element : Bytes)
  | insertAfter (index : Nat) (element : Bytes)
  | set (index : Nat) (element : Bytes)

def LpWrite.element : LpWrite → Bytes
  | pushBack element | pushFront element | insertBefore _ element | insertAfter _ element
  | set _ element => element

def LpWrite.step (node : ListpackNode) : LpWrite → ListpackNode
  | pushBack element => lpPushBack node element
  | pushFront element => lpPushFront node element
  | insertBefore index element => lpInsertBefore node index element
  | insertAfter index element => lpInsertAfter node index element
  | set index element => lpSet node index element

theorem HoldsShort.step {node : ListpackNode} (h : HoldsShort node) (op : LpWrite)
    (hop : ShortElement op.element) : HoldsShort (op.step node) := by
  have hgrown :
      ∀ entries : List Bytes, (∀ e ∈ entries, e = op.element ∨ e ∈ decodeAllEntries node) →
      HoldsShort (encodeNodeEntries node entries) := fun entries hmem =>
    holdsShort_encode node fun e he => (hmem e he).elim (fun heq => heq ▸ hop) (h.decoded e)
  cases op with
  | pushBack element =>
    exact hgrown _ fun e he => (List.mem_append.1 he).symm.imp_left List.mem_singleton.1
  | pushFront element => exact hgrown _ fun e he => List.mem_cons.1 he
  | insertBefore index element | insertAfter index element =>
    exact hgrown _ fun e he => List.eq_or_mem_of_mem_insertIdx he
  | set index element =>
    show HoldsShort (if _ then _ else _)
    split
    · exact h
    · exact hgrown _ fun e he => (List.mem_or_eq_of_mem_set he).symm

/-- A node that short elements are written into. -/
theorem HoldsShort.run {node : ListpackNode} (h : HoldsShort node) (ops : List LpWrite)
    (hops : ∀ op ∈ ops, ShortElement op.element) : HoldsShort (ops.foldl LpWrite.step node) := by
  induction ops generalizing node with
  | nil => exact h
  | cons op ops ih =>
    obtain ⟨hop, hops⟩ := List.forall_mem_cons.1 hops
    exact ih (h.step op hop) hops

/-- **Listpack scans end.** On every node that the writing operations built from elements of at most
249 bytes, both loops advance at every round and end, within the fuel of the model. -/
theorem listpack_scans_end (ops : List LpWrite) (needle : Bytes)
    (h : ∀ op ∈ ops, ShortElement op.element) :
    ScansEnd (ops.foldl LpWrite.step {}) needle ∧
      FuelSuffices (ops.foldl LpWrite.step {}) needle := by
  have hnew : HoldsShort {} := ⟨[], rfl, Nat.le_refl 0, by simp⟩
  have hscans := (hnew.run ops h).scansEnd needle
  exact ⟨hscans, hscans.fuelSuffices⟩

theorem listpack_scans_end_three :
    ScansEnd ([.pushBack (List.replicate 249 1), .insertAfter 0 [2, 0], .set 0 [0]].foldl
      LpWrite.step {}) [0] :=
  (listpack_scans_end [.pushBack (List.replicate 249 1), .insertAfter 0 [2, 0], .set 0 [0]] [0]
    (by decide +kernel)).1

/-- 254 bytes, all zero but one: the clamped back-length leads to cursor 255, where they read as an
empty entry with back-length zero. -/
theorem listpack_scans_stuck :
    ¬ ∀ (ops : List LpWrite) (needle : Bytes), ScansEnd (ops.foldl LpWrite.step {}) needle := by
  intro h
  have hscan := (h [.pushBack (List.replicate 252 0 ++ [0x80, 0])] [0x80]).2
  generalize hround : lpSetContainsRound _ _ = round at hscan
  have hfirst : round 0 = some 255 := hround ▸ by decide +kernel
  have hstuck : round 255 = some 255 := hround ▸ by decide +kernel
  cases hscan with
  | stop hnone => cases hfirst.symm.trans hnone
  | next hnext hlt hrest =>
    cases hfirst.symm.trans hnext
    cases hrest with
    | stop hnone => cases hstuck.symm.trans hnone
    | next hnext hlt hrest =>
      cases hstuck.symm.trans hnext
      exact lt_irrefl _ hlt

end Senko
