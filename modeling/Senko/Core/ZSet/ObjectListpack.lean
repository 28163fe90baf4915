import Senko.Core.ListpackRoundTrip
import Senko.Core.ZSet.Object
import Senko.Core.ZSet.SortedSet

/-!
# Senko — the listpack encoding of a sorted set

A listpack node that was filled from the members and scores of a small sorted set (`lpOf`) is read
back as those entries, and every `lp_zset_*` function acts on it as the operation of the abstract
set does. The size limits keep every entry short enough for the listpack round trip.
-/

namespace Senko

open ZSetEntry List Option CompactString SortedSet

variable {es es' : List ZSetEntry} {S : SortedSet} {bytes : Bytes}

/-! ## Members and scores as listpack entries -/

/-- The entries as the node stores them: member, score, member, score, … -/
def rawEntries (es : List ZSetEntry) : List Bytes :=
  es.flatMap fun e => [e.member.bytes, e.score.toLeBytes]

/-- What fits the listpack encoding. -/
def SmallEntries (es : List ZSetEntry) : Prop :=
  es.length ≤ listpackMaxEntries ∧ ∀ e ∈ es, e.member.bytes.length ≤ listpackMaxMemberSize

/-- The node that holds the entries. -/
def lpOf (es : List ZSetEntry) : ListpackNode := encodeNodeEntries {} (rawEntries es)

section Raw

variable (std : FloatStd)

@[simp] theorem rawEntries_cons (e : ZSetEntry) (es : List ZSetEntry) :
    rawEntries (e :: es) = e.member.bytes :: e.score.toLeBytes :: rawEntries es := rfl

theorem length_rawEntries (es : List ZSetEntry) : (rawEntries es).length = 2 * es.length := by
  induction es with
  | nil => rfl
  | cons e es ih =>
    simp only [rawEntries_cons, length_cons]
    omega

theorem SmallEntries.sublist (h : SmallEntries es) (hsub : List.Sublist es' es) :
    SmallEntries es' :=
  ⟨hsub.length_le.trans h.1, fun e he => h.2 e (hsub.subset he)⟩

/-- One entry more than a full listpack is still short enough to be written out. -/
theorem shortChunk_rawEntries (hlen : es.length ≤ listpackMaxEntries)
    (hsize : ∀ e ∈ es, e.member.bytes.length ≤ listpackMaxMemberSize) :
    ShortChunk (rawEntries es) := by
  constructor
  · intro b hb
    obtain ⟨e, he, hb⟩ := mem_flatMap.1 hb
    have hmember := hsize e he
    have hscore := e.score.length_toLeBytes
    simp only [listpackMaxMemberSize] at hmember
    simp only [mem_cons, not_mem_nil, or_false] at hb
    rcases hb with rfl | rfl
    · exact hmember.trans (by omega)
    · show e.score.toLeBytes.length ≤ 249
      omega
  · rw [length_rawEntries]
    simp only [listpackMaxEntries] at hlen
    omega

theorem pairEntries_rawEntries (es : List ZSetEntry) : pairEntries std (rawEntries es) = es := by
  induction es with
  | nil => rfl
  | cons e es ih =>
    simp only [rawEntries_cons, pairEntries, ih, compactFromBytes, ofUtf8Lossy_bytes,
      decodeLpScore, F64.length_toLeBytes, if_true, F64.fromLeBytes_toLeBytes, getD_some]

/-- **The node is read back** as the entries it was filled from. -/
theorem lpZsetEntries_lpOf (h : SmallEntries es) : lpZsetEntries std (lpOf es) = es := by
  rw [lpZsetEntries, lpOf, ((shortChunk_rawEntries h.1 h.2).actsAsList {}).iter]
  exact pairEntries_rawEntries std es

end Raw

/-! ## Rewriting the node -/

/-- Deleting the first entry again and again empties the node. -/
theorem lpClear_encode {chunk : List Bytes} (h : ShortChunk chunk) :
    lpClear chunk.length (encodeNodeEntries {} chunk) = some (encodeNodeEntries {} []) := by
  induction chunk with
  | nil => rfl
  | cons b chunk ih =>
    have hacts := h.actsAsList {}
    have htail : ShortChunk chunk := h.sublist (sublist_cons_self b chunk)
    rw [length_cons, lpClear, hacts.len, if_neg (by simp), hacts.deleteAt]
    exact ih htail

/-- **Rewriting a node** replaces its entries. -/
theorem rewriteLpFromEntries_lpOf (h : SmallEntries es)
    (h' : SmallEntries es') : rewriteLpFromEntries (lpOf es) es' = some (lpOf es') := by
  have hshort := shortChunk_rawEntries h.1 h.2
  have hshort' := shortChunk_rawEntries h'.1 h'.2
  have hfill := foldl_lpPushBack [] (rawEntries es') hshort'.fit
  rw [rawEntries, foldl_flatMap] at hfill
  rw [rewriteLpFromEntries, lpOf, (hshort.actsAsList {}).len, lpClear_encode hshort, map_some]
  exact congrArg some hfill

/-! ## Members by their bytes -/

/-- An entry whose member has the bytes of a UTF-8 string is that string's entry. -/
theorem member_bytes_eq_iff {e : ZSetEntry} {m : CompactString} :
    e.member.bytes = m.bytes ↔ e.member = m :=
  ⟨ext, congrArg _⟩

theorem fromUtf8_eq_none (h : fromUtf8 bytes = none) (m : CompactString) : m.bytes ≠ bytes := by
  rintro rfl
  rw [fromUtf8_bytes] at h
  cases h

/-- The score found by bytes is the score of the UTF-8 member. -/
theorem find_bytes_eq_score? :
    (S.entries.find? fun e => e.member.bytes = bytes).map ZSetEntry.score =
      (fromUtf8 bytes).bind S.score? := by
  cases hm : fromUtf8 bytes with
  | none =>
    rw [bind_none, map_eq_none_iff, find?_eq_none]
    intro e _
    simpa using fromUtf8_eq_none hm e.member
  | some m =>
    have hbytes := fromUtf8_eq_some hm
    subst hbytes
    simp only [bind_some, score?, member_bytes_eq_iff]

/-! ## The operations -/

section Ops

variable (std : FloatStd) (h : SmallEntries S.entries)

include h

theorem lpZsetScore_lpOf (bytes : Bytes) :
    lpZsetScore std (lpOf S.entries) bytes = (fromUtf8 bytes).bind S.score? := by
  rw [lpZsetScore, lpZsetEntries_lpOf std h, find_bytes_eq_score?]

/-- **Removal** takes the member's entry out. -/
theorem lpZsetRemove_lpOf (bytes : Bytes) : lpZsetRemove std (lpOf S.entries) bytes =
      some (lpOf (((fromUtf8 bytes).map S.erase).getD S).entries,
        (fromUtf8 bytes).bind S.score?) := by
  rw [lpZsetRemove, ← find_bytes_eq_score?, lpZsetEntries_lpOf std h]
  cases hfind : S.entries.findIdx? fun e => e.member.bytes = bytes with
  | none =>
    have hnone : ∀ e ∈ S.entries, e.member.bytes ≠ bytes := by
      simpa using findIdx?_eq_none_iff.1 hfind
    have hfind' : S.entries.find? (fun e => e.member.bytes = bytes) = none := by
      simpa using hnone
    have hsame : (((fromUtf8 bytes).map S.erase).getD S) = S := by
      cases hm : fromUtf8 bytes with
      | none => rfl
      | some m =>
        apply erase_of_notMem
        intro e he heq
        exact hnone e he (heq ▸ fromUtf8_eq_some hm)
    simp only [hsame, hfind', map_none]
  | some i =>
    obtain ⟨hi, hmatch, hbefore⟩ := findIdx?_eq_some_iff_getElem.1 hfind
    simp only [decide_eq_true_eq] at hmatch hbefore
    obtain ⟨l, r, hlr, hlen⟩ : ∃ l r, S.entries = l ++ S.entries[i] :: r ∧ i = l.length := by
      refine ⟨S.entries.take i, S.entries.drop (i + 1), ?_, by simp; omega⟩
      rw [← drop_eq_getElem_cons hi, take_append_drop]
    generalize S.entries[i] = x at hmatch hlr
    have hbytes : fromUtf8 bytes = some x.member := by
      rw [← hmatch, fromUtf8_bytes]
    have hfind' : S.entries.find? (fun e => e.member.bytes = bytes) = some x := by
      rw [find?_eq_some_iff_append]
      refine ⟨by simpa using hmatch, l, r, hlr, ?_⟩
      intro e he
      obtain ⟨j, hj, rfl⟩ := getElem_of_mem he
      have hne := hbefore j (by omega)
      simp only [hlr, getElem_append_left hj] at hne
      simpa using hne
    have herase : (S.erase x.member).entries = l ++ r := entries_erase hlr
    have hsmall : SmallEntries (l ++ r) := by
      rw [← herase]
      exact h.sublist filter_sublist
    simp only [hfind', hbytes, map_some, getD_some, herase]
    rw [hlr] at h ⊢
    rw [vecRemove_append hlen]
    simp [rewriteLpFromEntries_lpOf h hsmall]

/-- **Insertion** of a new member puts its entry in place. -/
theorem lpZsetInsert_lpOf {x : ZSetEntry} (hx : x.NotNan)
    (hnew : ∀ e ∈ S.entries, e.member ≠ x.member) (hsmall : SmallEntries (S.upsert x).entries) :
    lpZsetInsert std (lpOf S.entries) x.score x.member.bytes =
      some (lpOf (S.upsert x).entries, true) := by
  have hscore : lpZsetScore std (lpOf S.entries) x.member.bytes = none := by
    rw [lpZsetScore_lpOf std h, fromUtf8_bytes]
    exact score?_eq_none.2 hnew
  have hcompare : ∀ e : ZSetEntry,
      compareScoreMember e x.score x.member.bytes = compareKey e x := fun _ => rfl
  obtain ⟨l, r, hlr, hcut, hl, hr⟩ := S.sorted.lowerBoundEntry hx
  have hins : SortedInsert ord x S.entries (l ++ x :: r) := by
    refine ⟨l, r, hlr, rfl, hl, fun e he => lt_of_le_of_ne (hr e he) ?_⟩
    intro heq
    exact hnew e (by rw [hlr]; simp [he]) (ord_eq_iff.1 heq).2.symm
  have hentries : (S.upsert x).entries = l ++ x :: r := by
    rw [entries_upsert hx, erase_of_notMem hnew, hins.eq_insertSorted]
  have hinsert : vecInsert S.entries
      (partitionPoint (fun e => compareScoreMember e x.score x.member.bytes == .lt) S.entries) x =
        some (l ++ x :: r) := by
    simp only [hcompare]
    rw [lowerBoundEntry] at hcut
    rw [hcut, hlr]
    exact vecInsert_append rfl
  have hentry :
      ({ score := x.score, member := compactFromBytes x.member.bytes } : ZSetEntry) = x := by
    simp [compactFromBytes]
  rw [lpZsetInsert, hscore, lpZsetEntries_lpOf std h, hentries]
  simp only [hentry, hinsert]
  rw [hentries] at hsmall
  simp [rewriteLpFromEntries_lpOf h hsmall]

end Ops

end Senko
