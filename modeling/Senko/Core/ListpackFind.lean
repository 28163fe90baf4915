import Senko.Core.ListpackRoundTrip
import Mathlib.Data.List.Sort

/-!
# Senko — searching a listpack

`lp_find` does not compare entries: it searches the raw buffer for the element's bytes and accepts
a match that starts where some payload starts. The search reports leftmost *non-overlapping*
matches, so an occurrence that begins in the bytes before a payload and reaches into it hides that
payload. `lpFind_eq_iff` says exactly when the entry is found: its payload start must be among the
reported matches.
-/

namespace Senko

open List

/-! ## The substring search -/

/-- `needle` occurs in `haystack` at `offset`. -/
def OccursAt (needle haystack : Bytes) (offset : Nat) : Prop :=
  needle <+: haystack.drop offset

/-- Every reported match is an occurrence, and matches come in increasing order. -/
theorem findIterFrom_spec (needle : Bytes) (offset skip : Nat) (haystack : Bytes) :
    (∀ o ∈ findIterFrom needle offset skip haystack,
      offset ≤ o ∧ OccursAt needle haystack (o - offset)) ∧
    (findIterFrom needle offset skip haystack).Pairwise (· < ·) := by
  induction haystack generalizing offset skip with
  | nil => simp [findIterFrom]
  | cons b haystack ih =>
    -- a match further on is one of the tail, seen from one position later
    have hshift : ∀ skip', (∀ o ∈ findIterFrom needle (offset + 1) skip' haystack,
        offset < o ∧ OccursAt needle (b :: haystack) (o - offset)) := by
      intro skip' o ho
      obtain ⟨hle, hocc⟩ := (ih (offset + 1) skip').1 o ho
      refine ⟨hle, ?_⟩
      rw [show o - offset = (o - (offset + 1)) + 1 by omega]
      simpa [OccursAt] using hocc
    have hrest := fun skip' o ho => And.imp_left Nat.le_of_lt (hshift skip' o ho)
    cases skip with
    | zero =>
      unfold findIterFrom
      split
      · rename_i hbefore
        refine ⟨forall_mem_cons.2 ⟨⟨Nat.le_refl _, ?_⟩, hrest _⟩,
          pairwise_cons.2 ⟨fun o ho => (hshift _ o ho).1, (ih _ _).2⟩⟩
        simpa [OccursAt] using isPrefixOf_iff_prefix.1 hbefore
      · exact ⟨hrest _, (ih _ _).2⟩
    | succ skip => exact ⟨hrest _, (ih _ _).2⟩

theorem occursAt_of_mem {haystack needle : Bytes} {o : Nat}
    (h : o ∈ memmemFindIter haystack needle) : OccursAt needle haystack o := by
  have hspec := (findIterFrom_spec needle 0 0 haystack).1 o h
  simpa using hspec.2

/-! ## The walk to a candidate -/

variable (pre : Bytes) (entries : List Bytes)

/-- The bytes of a slice stand at its start. -/
theorem entrySlices_located (post : Bytes) (prevLen : Nat) (entries : List Bytes) :
    ∀ s ∈ entrySlices pre.length prevLen entries,
      s.bytes <+: (pre ++ encodeEntries prevLen entries ++ post).drop s.start := by
  induction entries generalizing pre prevLen with
  | nil => simp [entrySlices]
  | cons e entries ih =>
    intro s hs
    rcases mem_cons.1 hs with rfl | hs
    · -- what follows the payload's start is the payload
      set lead := pre ++ writeVarint prevLen ++ writeStringHeader e.length with hlead
      have hdata : pre ++ encodeEntries prevLen (e :: entries) ++ post =
          lead ++ (e ++ (UInt8.ofNat (min ((entryBody e prevLen).length + 1) 255) ::
            (encodeEntries (encodeEntry e prevLen).length entries ++ post))) := by
        simp [encodeEntries, encodeEntry, entryBody, hlead]
      have hstart : pre.length + payloadStart e prevLen = lead.length := by
        simp [hlead, payloadStart]
      rw [hdata, hstart, drop_left]
      exact prefix_append _ _
    · have h := ih (pre ++ encodeEntry e prevLen) (encodeEntry e prevLen).length s
        (by simpa using hs)
      simpa [encodeEntries] using h

/-- Payload starts increase along the node. -/
theorem entrySlices_start_lt (offset prevLen : Nat) (entries : List Bytes) :
    (entrySlices offset prevLen entries).Pairwise (fun s t => s.start < t.start) ∧
      ∀ s ∈ entrySlices offset prevLen entries, offset < s.start := by
  induction entries generalizing offset prevLen with
  | nil => simp [entrySlices]
  | cons e entries ih =>
    obtain ⟨hpair, hlow⟩ :=
      ih (offset + (encodeEntry e prevLen).length) (encodeEntry e prevLen).length
    have hstart : 0 < payloadStart e prevLen := by
      have := writeVarint_length_pos prevLen
      rw [payloadStart]
      omega
    have henc : (encodeEntry e prevLen).length = payloadStart e prevLen + e.length + 1 := by
      rw [length_encodeEntry, length_entryBody]
    refine ⟨pairwise_cons.2 ⟨fun t ht => ?_, hpair⟩, fun s hs => ?_⟩
    · have := hlow t ht
      show offset + payloadStart e prevLen < t.start
      omega
    · rcases mem_cons.1 hs with rfl | hs
      · show offset < offset + payloadStart e prevLen
        omega
      · have := hlow s hs
        omega

/-- The walk of `lp_find` is a search through the payload slices. -/
theorem lpFindWalk_eq (offset len index : Nat) {prevLen fuel : Nat} (hprev : prevLen < 2 ^ 64)
    (hfits : ∀ n ∈ encodedLengths prevLen entries, n ≤ 255) (hfuel : entries.length ≤ fuel) :
    lpFindWalk (pre ++ encodeEntries prevLen entries) offset len fuel pre.length index =
      ((entrySlices pre.length prevLen entries).findIdx?
        fun s => s.start = offset ∧ s.bytes.length = len).map (· + index) := by
  induction entries generalizing pre prevLen fuel index with
  | nil => cases fuel <;> simp [lpFindWalk, encodeEntries, entrySlices]
  | cons e entries ih =>
    obtain ⟨fuel, rfl⟩ : ∃ k, fuel = k + 1 := ⟨fuel - 1, by simp at hfuel; omega⟩
    obtain ⟨hfit, hfits⟩ := forall_mem_cons.1 hfits
    have hhead := decodeEntryAt_cons pre entries hprev hfit
    have hstep := ih (pre ++ encodeEntry e prevLen) (index + 1) (by omega) hfits
      (show entries.length ≤ fuel by simpa using hfuel)
    rw [← append_encodeEntries_cons, length_append] at hstep
    rw [lpFindWalk, if_pos (lt_of_decodeEntryAt hhead), hhead]
    simp only [entrySlices, findIdx?_cons, length_append]
    by_cases hhit : pre.length + payloadStart e prevLen = offset ∧ e.length = len
    · simp [hhit]
    simp only [hhit, if_false, decide_false, Bool.false_eq_true, hstep, Option.map_map]
    congr 1
    funext i
    simp only [Function.comp_apply]
    omega

/-! ## Finding an entry -/

/-- Where the payload of the first entry equal to `element` starts in the node's buffer. -/
def firstPayloadStart (entries : List Bytes) (element : Bytes) : Option Nat :=
  ((entrySlices 0 0 entries).find? fun s => s.bytes = element).map Slice.start

/-- The raw search reports the start of the first entry equal to `element`. -/
def PayloadVisible (entries : List Bytes) (element : Bytes) : Prop :=
  element = [] ∨ ∀ start ∈ firstPayloadStart entries element,
    start ∈ memmemFindIter (encodeEntries 0 entries) element
deriving Decidable

/-- A search by candidate starts finds the first slice that holds the element, if and only if the
start of that slice is a candidate. Candidates and slices both come in increasing order. -/
theorem findSome?_findIdx?_iff {slices : List Slice} {starts : List Nat} {element : Bytes}
    (hslices : slices.Pairwise fun s t => s.start < t.start) (hstarts : starts.Pairwise (· < ·))
    (hocc : ∀ s ∈ slices, s.start ∈ starts → s.bytes.length = element.length → s.bytes = element) :
    (starts.findSome? fun o =>
        slices.findIdx? fun s => s.start = o ∧ s.bytes.length = element.length) =
      slices.findIdx? (fun s => s.bytes = element) ↔
    ∀ s, slices.find? (fun s => s.bytes = element) = some s → s.start ∈ starts := by
  cases hfirst : slices.findIdx? fun s => s.bytes = element with
  | none =>
    have hnone : ∀ s ∈ slices, s.bytes ≠ element := by simpa using hfirst
    refine iff_of_true ?_ fun s hs => ?_
    · simp only [findSome?_eq_none_iff, findIdx?_eq_none_iff, decide_eq_false_iff_not]
      rintro o ho s hs ⟨rfl, hlen⟩
      exact hnone s hs (hocc s hs ho hlen)
    · exact absurd (by simpa using find?_some hs) (hnone s (mem_of_find?_eq_some hs))
  | some i =>
    obtain ⟨hi, heq, hleast⟩ := findIdx?_eq_some_iff_getElem.1 hfirst
    replace heq : slices[i].bytes = element := by simpa using heq
    have hfind : slices.find? (fun s => s.bytes = element) = some slices[i] :=
      find?_eq_some_iff_getElem.2 ⟨by simpa using heq, i, hi, rfl, by simpa using hleast⟩
    have hlt := pairwise_iff_getElem.1 hslices
    simp only [hfind, Option.some.injEq, forall_eq']
    constructor
    · intro h
      obtain ⟨o, ho, hat⟩ := exists_of_findSome?_eq_some h
      obtain ⟨_, hstart, _⟩ := findIdx?_eq_some_iff_getElem.1 hat
      exact (of_decide_eq_true hstart).1 ▸ ho
    · intro hmem
      obtain ⟨before, after, rfl⟩ := append_of_mem hmem
      -- a smaller candidate is the start of no slice that holds the element
      have hnone : before.findSome? (fun o => slices.findIdx?
          fun s => s.start = o ∧ s.bytes.length = element.length) = none := by
        simp only [findSome?_eq_none_iff, findIdx?_eq_none_iff, decide_eq_false_iff_not]
        rintro o ho s hs ⟨rfl, hlen⟩
        have hsmall := (pairwise_append.1 hstarts).2.2 _ ho _ mem_cons_self
        have hbytes := hocc s hs (mem_append_left _ ho) hlen
        obtain ⟨j, hj, rfl⟩ := getElem_of_mem hs
        rcases Nat.lt_trichotomy j i with hji | rfl | hij
        · exact absurd hbytes (by simpa using hleast j hji)
        · exact lt_irrefl _ hsmall
        · exact lt_asymm hsmall (hlt i j hi hj hij)
      rw [findSome?_append, hnone, Option.none_or, findSome?_cons,
        findIdx?_eq_some_iff_getElem.2 ⟨hi, by simp [heq], fun j hji => ?_⟩]
      have := hlt j i (hji.trans hi) hi hji
      simp only [decide_eq_true_eq]
      omega

theorem findIdx?_entrySlices (element : Bytes) :
    ((entrySlices 0 0 entries).findIdx? fun s => s.bytes = element) =
      entries.findIdx? fun e => e = element := by
  conv_rhs => rw [← entrySlices_bytes 0 0 entries, findIdx?_map]
  rfl

theorem length_le_encodeEntries (prevLen : Nat) (entries : List Bytes) :
    entries.length ≤ (encodeEntries prevLen entries).length := by
  induction entries generalizing prevLen with
  | nil => simp
  | cons e entries ih =>
    have := ih (encodeEntry e prevLen).length
    simp only [encodeEntries, length_cons, length_append, length_encodeEntry] at this ⊢
    omega

/-- The node holds the entries, and every one fits its back-length. -/
structure HoldsFitting (node : ListpackNode) (entries : List Bytes) : Prop where
  data : node.data = encodeEntries 0 entries
  count : node.count = entries.length
  fits : ∀ len ∈ encodedLengths 0 entries, len ≤ 255

theorem HoldsFitting.iter {node : ListpackNode} {entries : List Bytes}
    (h : HoldsFitting node entries) : lpIter node = entries := by
  obtain ⟨_, _, _, hwalk⟩ := listpackIterFrom_front [] entries [] 0 (by norm_num) h.fits
  rw [lpIter, h.data, h.count]
  simpa [listpackIterFrom] using hwalk

/-- **`lp_find` returns the first equal entry** if and only if that entry is visible to the raw
search. -/
theorem lpFind_eq_iff {node : ListpackNode} {entries : List Bytes} {element : Bytes}
    (h : HoldsFitting node entries) :
    lpFind node element 0 = entries.findIdx? (fun e => e = element) ↔
      PayloadVisible entries element := by
  unfold lpFind PayloadVisible
  by_cases hnil : element = []
  · rw [if_neg (by simp [hnil]), h.iter, findIdx?_eq_fst_find?_zipIdx]
    simp [hnil, Nat.mod_one]
  have hwalk : ∀ o, lpFindWalk (encodeEntries 0 entries) o element.length
      (encodeEntries 0 entries).length 0 0 =
      (entrySlices 0 0 entries).findIdx?
        fun s => s.start = o ∧ s.bytes.length = element.length := by
    intro o
    have h := lpFindWalk_eq [] entries o element.length 0 (by norm_num) h.fits
      (length_le_encodeEntries 0 entries)
    simpa using h
  rw [if_pos ⟨rfl, hnil⟩, h.data, ← findIdx?_entrySlices, or_iff_right hnil]
  simp only [hwalk]
  refine (findSome?_findIdx?_iff (entrySlices_start_lt 0 0 entries).1
    (findIterFrom_spec element 0 0 _).2 ?_).trans (by simp [firstPayloadStart, memmemFindIter])
  -- a slice at a match, of the needle's length, is the needle
  intro s hs hstart hlen
  have hat : s.bytes <+: (encodeEntries 0 entries).drop s.start := by
    simpa using entrySlices_located [] [] 0 entries s hs
  have hocc : element <+: (encodeEntries 0 entries).drop s.start := occursAt_of_mem hstart
  exact (prefix_of_prefix_length_le hat hocc (Nat.le_of_eq hlen)).eq_of_length hlen

/-- **First equal entry.** `lp_find` answers with the least index of an equal entry, and with no
index where there is none, exactly on the nodes and elements for which the entry is visible. -/
theorem lp_find_first (node : ListpackNode) (entries : List Bytes) (p : Bytes)
    (h : HoldsFitting node entries) :
    (∀ i, lpFind node p 0 = some i ↔ entries[i]? = some p ∧ ∀ j < i, entries[j]? ≠ some p) ↔
      PayloadVisible entries p := by
  rw [← lpFind_eq_iff h]
  have hleast : ∀ i, entries.findIdx? (fun e => e = p) = some i ↔
      entries[i]? = some p ∧ ∀ j < i, entries[j]? ≠ some p := by
    intro i
    rw [findIdx?_eq_some_iff_getElem]
    grind
  exact ⟨fun hsome => Option.ext fun i => (hsome i).trans (hleast i).symm,
    fun heq i => heq ▸ hleast i⟩

theorem lp_find_first_second : let node := encodeNodeEntries {} [[1], [2], [2]]
    HoldsFitting node [[1], [2], [2]] ∧ lpFind node [2] 0 = some 1 := by
  have h : HoldsFitting (encodeNodeEntries {} [[1], [2], [2]]) [[1], [2], [2]] :=
    ⟨rfl, by decide, by decide⟩
  exact ⟨h, ((lp_find_first _ _ [2] h).2 (by decide) 1).2 (by decide)⟩

/-- The header of a two-byte entry is `0x82`: the search reports it together with the first byte
of the payload, and goes on behind them. -/
theorem lp_find_first_hidden :
    ¬ ∀ (node : ListpackNode) (entries : List Bytes) (p : Bytes), HoldsFitting node entries →
      ∀ i, lpFind node p 0 = some i ↔ entries[i]? = some p ∧ ∀ j < i, entries[j]? ≠ some p := by
  intro h
  have hfound := (h (encodeNodeEntries {} [[0x82, 0x82]]) [[0x82, 0x82]] [0x82, 0x82]
    ⟨rfl, by decide, by decide⟩) 0
  exact absurd (hfound.2 (by decide)) (by decide)

end Senko
