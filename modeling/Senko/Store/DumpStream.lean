import Senko.Core.StreamReplay
import Senko.Store.DumpRestore

/-!
# Senko — what `RESTORE` gives back of a stream

The tag of a stream was once used for lists too, and the reader still accepts both: it walks over
what follows as if it were a list, and takes it for one if that succeeds. A stream is restored only
if this walk fails, so never if it is empty, and not if its first id is small enough to be taken for
the length of an element.

Where it is read as a stream, the entries are inserted one by one, and the last id is the greatest
of theirs. That of the stream is another one if its newest entry was deleted or if `XSETID` set it.
-/

namespace Senko

open Decoder List StreamRadixTree

/-! ## What looks like a list -/

/-- The bytes begin with as many length-prefixed blobs. -/
def StartsWithBlobs (n : Nat) (bytes : Bytes) : Prop :=
  ∃ blobs : List Bytes, blobs.length = n ∧ blobs.flatMap writeBlob <+: bytes

theorem startsWithBlobs_zero (bytes : Bytes) : StartsWithBlobs 0 bytes :=
  ⟨[], rfl, nil_prefix⟩

/-- One blob and the rest. -/
theorem startsWithBlobs_succ {n : Nat} {bytes : Bytes} : StartsWithBlobs (n + 1) bytes ↔
      ∃ blob rest, bytes = writeBlob blob ++ rest ∧ StartsWithBlobs n rest := by
  constructor
  · rintro ⟨_ | ⟨blob, blobs⟩, hlen, hbefore⟩
    · cases hlen
    · obtain ⟨rest, rfl⟩ := hbefore
      refine ⟨blob, blobs.flatMap writeBlob ++ rest, ?_, blobs, Nat.succ.inj hlen, ?_⟩
      · rw [flatMap_cons, append_assoc]
      · exact prefix_append _ _
  · rintro ⟨blob, rest, rfl, blobs, rfl, hbefore⟩
    exact ⟨blob :: blobs, rfl, (prefix_append_right_inj _).2 hbefore⟩

variable {data : Bytes} {cursor : Nat}

theorem readLenPeek_eq : readLenPeek data cursor =
      if cursor + 8 ≤ data.length then some (fromLeBytes ((data.drop cursor).take 8))
      else none := by
  unfold readLenPeek getRange
  by_cases hfits : cursor + 8 ≤ data.length
  · rw [if_pos ⟨by omega, hfits⟩, if_pos hfits, drop_take, Nat.add_sub_cancel_left]
    rfl
  · rw [if_neg (fun h => hfits h.2), if_neg hfits]
    rfl

theorem length_writeLen (n : Nat) : (writeLen n).length = 8 := length_toLeBytes 8 n

/-- A blob stands at a place if its length and its bytes do. -/
theorem exists_writeBlob_iff {bytes : Bytes} (hlen : bytes.length < 2 ^ 64) (rest : Bytes) :
    (∃ blob, bytes = writeBlob blob ++ rest) ↔
      8 ≤ bytes.length ∧ 8 + fromLeBytes (bytes.take 8) ≤ bytes.length ∧
        rest = bytes.drop (8 + fromLeBytes (bytes.take 8)) := by
  constructor
  · rintro ⟨blob, rfl⟩
    have hblob : blob.length < 2 ^ 64 := by
      rw [length_append, length_writeBlob] at hlen
      omega
    have htake : (writeBlob blob ++ rest).take 8 = writeLen blob.length := by
      rw [writeBlob, append_assoc, take_left' (length_writeLen _)]
    have hfrom : fromLeBytes (writeLen blob.length) = blob.length :=
      fromLeBytes_toLeBytes_of_lt hblob
    rw [htake, hfrom, ← length_writeBlob, length_append, drop_left, length_writeBlob]
    refine ⟨?_, ?_, rfl⟩ <;> omega
  · rintro ⟨h8, hfits, rfl⟩
    refine ⟨(bytes.drop 8).take (fromLeBytes (bytes.take 8)), ?_⟩
    have hblob : ((bytes.drop 8).take (fromLeBytes (bytes.take 8))).length =
        fromLeBytes (bytes.take 8) := by
      rw [length_take, length_drop]
      omega
    have hword : writeLen (fromLeBytes (bytes.take 8)) = bytes.take 8 := by
      have hword := toLeBytes_fromLeBytes (bytes.take 8)
      rwa [length_take, min_eq_left h8] at hword
    rw [writeBlob, hblob, hword, append_assoc, ← drop_drop, take_append_drop, take_append_drop]

/-- **The rounds of the walk.** -/
theorem looksLikeListLoop_iff (hdata : data.length < u64Max) (n : Nat)
    (hcursor : cursor ≤ data.length) :
    looksLikeListLoop data n cursor = true ↔ StartsWithBlobs n (data.drop cursor) := by
  induction n generalizing cursor with
  | zero => exact iff_of_true rfl (startsWithBlobs_zero _)
  | succ n ih =>
    have hu64 : u64Max = 2 ^ 64 - 1 := rfl
    have hrest : (data.drop cursor).length < 2 ^ 64 := by
      rw [length_drop]
      omega
    have hblob := exists_writeBlob_iff hrest
    rw [startsWithBlobs_succ, looksLikeListLoop, readLenPeek_eq]
    rw [exists_comm]
    simp only [exists_and_right, hblob, length_drop, drop_drop]
    by_cases hlen : cursor + 8 ≤ data.length
    · rw [if_pos hlen]
      dsimp only
      generalize fromLeBytes ((data.drop cursor).take 8) = itemLen
      have hsat : saturatingAdd (saturatingAdd cursor 8) itemLen =
          min (cursor + 8 + itemLen) u64Max := by
        unfold saturatingAdd
        omega
      rw [hsat]
      by_cases hfits : cursor + (8 + itemLen) ≤ data.length
      · have hmin : min (cursor + 8 + itemLen) u64Max = cursor + (8 + itemLen) := by omega
        rw [hmin, if_neg (by omega), ih hfits]
        constructor
        · exact fun h => ⟨_, ⟨by omega, by omega, rfl⟩, h⟩
        · rintro ⟨_, ⟨-, -, rfl⟩, h⟩
          exact h
      · rw [if_pos (by omega)]
        refine iff_of_false (by decide) ?_
        rintro ⟨_, ⟨-, hle, -⟩, -⟩
        omega
    · rw [if_neg hlen]
      refine iff_of_false (by simp) ?_
      rintro ⟨_, ⟨hle, -⟩, -⟩
      omega

/-- **What is taken for a list**: a length, and as many blobs. -/
theorem looksLikeList_iff {pre body : Bytes} {n : Nat} (hn : n < 2 ^ 64)
    (hdata : (pre ++ (writeLen n ++ body)).length < u64Max) :
    looksLikeList (pre ++ (writeLen n ++ body)) pre.length = true ↔ StartsWithBlobs n body := by
  have hlen := length_writeLen n
  have hpeek : readLenPeek (pre ++ (writeLen n ++ body)) pre.length = some n := by
    rw [readLenPeek_eq, if_pos, drop_left, take_left' hlen]
    · exact congrArg some (fromLeBytes_toLeBytes_of_lt hn)
    · simp only [length_append]
      omega
  have hbody : (pre ++ (writeLen n ++ body)).drop (pre.length + 8) = body := by
    rw [← drop_drop, drop_left, drop_left' hlen]
  unfold looksLikeList
  rw [hpeek]
  show looksLikeListLoop _ n (pre.length + 8) = true ↔ _
  rw [looksLikeListLoop_iff hdata n, hbody]
  simp only [length_append]
  omega

/-! ## Reading a stream -/

theorem decodes_readStreamField (fields : StreamFields) (field : Bytes × Bytes)
    (h : (writeBlob field.1 ++ writeBlob field.2).length < 2 ^ 64) :
    Decodes (readStreamField fields) (writeBlob field.1 ++ writeBlob field.2)
      (fields ++ [field]) := by
  rw [length_append, length_writeBlob, length_writeBlob] at h
  have hvalue : Decodes readBlob (writeBlob field.2) field.2 := decodes_readBlob (by omega)
  exact (decodes_readBlob (by omega)).bind (hvalue.bind_nil (decodes_pure _))

theorem decodes_readStreamFields {fields : StreamFields}
    (h : (fields.flatMap fun field => writeBlob field.1 ++ writeBlob field.2).length < 2 ^ 64) :
    Decodes (readItems readStreamField [])
      (writeItems (fun field => writeBlob field.1 ++ writeBlob field.2) fields.length fields)
      fields := by
  have hlen : fields.length < 2 ^ 64 := by
    refine (length_le_length_flatMap fun field => ?_).trans_lt h
    rw [length_append, length_writeBlob]
    omega
  obtain ⟨read, hread, rfl⟩ := exists_decodes_readItems
    (fun done (read : StreamFields) => read = done) hlen rfl
    fun done field rest read hfields hdone => by
      have hfield : field ∈ fields := by rw [hfields]; simp
      have hfits := (length_write_le hfield).trans_lt h
      exact ⟨_, decodes_readStreamField read field hfits, by rw [hdone]⟩
  exact hread

theorem decodes_readStreamEntry (stream : StreamObject) {entry : StreamId × StreamFields}
    (hid : entry.1.InRange) (hfits : (writeStreamEntry entry).length < 2 ^ 64) :
    Decodes (readStreamEntry stream) (writeStreamEntry entry)
      { stream with tree := stream.tree.replay entry } := by
  obtain ⟨hms, hseq⟩ := hid
  have hu64 : u64Max = 2 ^ 64 - 1 := rfl
  have hfields : (entry.2.flatMap fun field => writeBlob field.1 ++ writeBlob field.2).length <
      2 ^ 64 := by
    simp only [writeStreamEntry, writeItems, length_append] at hfits
    omega
  unfold writeStreamEntry
  rw [append_assoc]
  refine (decodes_take invalidDumpError (length_toLeBytes 8 _)).bind ?_
  refine (decodes_take invalidDumpError (length_toLeBytes 8 _)).bind ?_
  refine (decodes_readStreamFields hfields).bind_nil ?_
  rw [fromLeBytes_toLeBytes_of_lt (by omega), fromLeBytes_toLeBytes_of_lt (by omega)]
  exact decodes_pure _

theorem length_writeStreamEntry_ge (entry : StreamId × StreamFields) :
    8 ≤ (writeStreamEntry entry).length := by
  simp only [writeStreamEntry, length_append, length_toLeBytes]
  omega

/-- **The stream that is read** is the one that the entries rebuild. -/
theorem decodes_readStream {entries : List (StreamId × StreamFields)}
    (hids : ∀ entry ∈ entries, entry.1.InRange)
    (hfits : (entries.flatMap writeStreamEntry).length < 2 ^ 64) :
    Decodes readStream (writeItems writeStreamEntry entries.length entries)
      (.stream { tree := entries.foldl replay {} }) := by
  have hlen : entries.length < 2 ^ 64 :=
    (length_le_length_flatMap length_writeStreamEntry_ge).trans_lt hfits
  obtain ⟨stream, hread, rfl⟩ := exists_decodes_readItems
    (fun done (stream : StreamObject) =>
      stream = { tree := done.foldl replay {} }) hlen rfl
    fun done entry rest stream hentries hdone => by
      have hentry : entry ∈ entries := by rw [hentries]; simp
      have hfit := (length_write_le hentry).trans_lt hfits
      refine ⟨_, decodes_readStreamEntry stream (hids entry hentry) hfit, ?_⟩
      rw [hdone, foldl_append]
      rfl
  exact hread.map

/-- A list is not a stream. -/
theorem readList_ne_stream {cursor' : Nat} {stream : StreamObject} :
    readList data cursor ≠ some (.ok (.stream stream, cursor')) := by
  intro h
  rw [readList, bind_apply] at h
  split at h
  · cases h
  · cases h
  · cases h

/-! ## The round trip -/

section RoundTrip

variable (env : Env) (checksum : Bytes → UInt64) (isListpack : HashObject SenkoValue → Bool)
  (now : Nat)

/-- `RESTORE` gives back a stream with the live entries and the last id that `DUMP` was given. -/
def StreamRoundTrips (stream : StreamObject) : Prop :=
  ∃ payload restored, dumpValue env checksum isListpack now (.stream stream) = some payload ∧
    restoreValue env checksum payload = some (.ok (.stream restored)) ∧
    restored.tree.liveEntries = stream.tree.liveEntries ∧ restored.tree.lastId = stream.tree.lastId

variable {env checksum isListpack now} {stream : StreamObject}

theorem writeValue_stream (hrange : stream.tree.InRange) :
    writeValue env isListpack now (.stream stream) =
      some (rdbTypeStreamListpacks :: writeItems writeStreamEntry stream.tree.liveEntries.length
        stream.tree.liveEntries) := by
  rw [writeValue, range_zero_max hrange]

theorem inRange_liveEntries (hrange : stream.tree.InRange) :
    ∀ entry ∈ stream.tree.liveEntries, entry.1.InRange := by
  intro entry hentry
  obtain ⟨e, he, rfl⟩ := mem_map.1 hentry
  obtain ⟨node, hnode, hmem⟩ := mem_entries.1 (mem_of_mem_filter he)
  exact (hrange node hnode).2 e hmem

/-- What is read after the tag. -/
theorem restoreValue_stream (env : Env) (checksum : Bytes → UInt64) (body : Bytes) :
    restoreValue env checksum (payloadOf checksum (rdbTypeStreamListpacks :: body)) =
      ((if looksLikeList (rdbTypeStreamListpacks :: body) 1 then readList else readStream)
        (rdbTypeStreamListpacks :: body) 1).map fun result => result.map Prod.fst := by
  rw [restoreValue_payloadOf_eq]
  rfl

/-- Where the walk over the payload succeeds, there is no stream. -/
theorem not_streamRoundTrips (hrange : stream.tree.InRange)
    (hlist : looksLikeList (rdbTypeStreamListpacks :: writeItems writeStreamEntry
      stream.tree.liveEntries.length stream.tree.liveEntries) 1 = true) :
    ¬StreamRoundTrips env checksum isListpack now stream := by
  rintro ⟨payload, restored, hpayload, hrestore, -⟩
  rw [dumpValue, writeValue_stream hrange] at hpayload
  cases hpayload
  have hread := (restoreValue_stream env checksum _).symm.trans hrestore
  rw [if_pos hlist] at hread
  obtain ⟨result, hresult, hok⟩ := Option.map_eq_some_iff.1 hread
  rcases result with e | ⟨value, cursor⟩
  · cases hok
  · cases hok
    exact readList_ne_stream hresult

/-- **Streams survive `DUMP` and `RESTORE`** exactly if what is written of the entries does not
begin with as many blobs, no id is there twice, every macro node that the entries fill begins above
the one before it, and the last id is the greatest of a live entry. -/
theorem stream_dump_restore (env : Env) (checksum : Bytes → UInt64)
    (isListpack : HashObject SenkoValue → Bool) (now : Nat) (stream : StreamObject)
    (hrange : stream.tree.InRange)
    (hfits : ∀ payload, dumpValue env checksum isListpack now (.stream stream) = some payload →
      payload.length < 2 ^ 64) :
    StreamRoundTrips env checksum isListpack now stream ↔
      ¬StartsWithBlobs stream.tree.liveEntries.length
          (stream.tree.liveEntries.flatMap writeStreamEntry) ∧
        (stream.tree.liveEntries.map Prod.fst).Nodup ∧
        StreamRadixTree.NodesInOrder none stream.tree.liveEntries ∧
        stream.tree.lastId = (stream.tree.liveEntries.map Prod.fst).foldl max .zero := by
  have hids := inRange_liveEntries hrange
  have hdump : dumpValue env checksum isListpack now (.stream stream) =
      some (payloadOf checksum (rdbTypeStreamListpacks :: writeItems writeStreamEntry
        stream.tree.liveEntries.length stream.tree.liveEntries)) := by
    rw [dumpValue, writeValue_stream hrange]
    rfl
  have hlength := hfits _ hdump
  have hnot : looksLikeList (rdbTypeStreamListpacks :: writeItems writeStreamEntry
      stream.tree.liveEntries.length stream.tree.liveEntries) 1 = true →
      ¬StreamRoundTrips env checksum isListpack now stream := not_streamRoundTrips hrange
  obtain ⟨entries, hentries⟩ : ∃ entries, stream.tree.liveEntries = entries := ⟨_, rfl⟩
  rw [hentries] at hids hdump hlength hnot ⊢
  have hu64 : u64Max = 2 ^ 64 - 1 := rfl
  simp only [payloadOf, writeItems, length_append, length_cons, length_toLeBytes] at hlength
  have hcount : entries.length ≤ (entries.flatMap writeStreamEntry).length :=
    length_le_length_flatMap length_writeStreamEntry_ge
  have hlooks : looksLikeList (rdbTypeStreamListpacks ::
      writeItems writeStreamEntry entries.length entries) 1 = true ↔
      StartsWithBlobs entries.length (entries.flatMap writeStreamEntry) := by
    show looksLikeList ([rdbTypeStreamListpacks] ++ (writeLen entries.length ++ _)) _ = true ↔ _
    apply looksLikeList_iff
    · omega
    · simp only [length_append, length_singleton, length_writeLen]
      omega
  by_cases hlist : StartsWithBlobs entries.length (entries.flatMap writeStreamEntry)
  · exact iff_of_false (hnot (hlooks.2 hlist)) fun h => h.1 hlist
  have hread := decodes_readStream hids (by omega) [rdbTypeStreamListpacks] []
  rw [append_nil, singleton_append] at hread
  have hrestore : restoreValue env checksum (payloadOf checksum (rdbTypeStreamListpacks ::
      writeItems writeStreamEntry entries.length entries)) =
        some (.ok (.stream { tree := entries.foldl StreamRadixTree.replay {} })) := by
    rw [restoreValue_stream, if_neg fun h => hlist (hlooks.1 h)]
    show (readStream _ [rdbTypeStreamListpacks].length).map _ = _
    rw [hread]
    rfl
  have hlive := StreamRadixTree.liveEntries_replay_iff hids
  have hreplayed := StreamRadixTree.built_empty.foldl_replay_entries hids
  rw [and_iff_right hlist]
  constructor
  · rintro ⟨payload, restored, hpayload, hrestored, hsame, hsameId⟩
    rw [hdump] at hpayload
    cases hpayload
    rw [hrestore] at hrestored
    cases hrestored
    obtain ⟨hnodup, horder⟩ := hlive.1 (hsame.trans hentries)
    exact ⟨hnodup, horder, hsameId.symm.trans (hreplayed hnodup).1⟩
  · rintro ⟨hnodup, horder, hgreatest⟩
    refine ⟨_, _, hdump, hrestore, ?_, ?_⟩
    · rw [hentries]
      exact hlive.2 ⟨hnodup, horder⟩
    · rw [hgreatest]
      exact (hreplayed hnodup).1

/-- The stream that these entries were added to. -/
def streamOf (entries : List (StreamId × StreamFields)) : StreamObject where
  tree := entries.foldl StreamRadixTree.replay {}

theorem inRange_streamOf {entries : List (StreamId × StreamFields)}
    (h : ∀ entry ∈ entries, entry.1.InRange) : (streamOf entries).tree.InRange :=
  (built_empty.foldl_replay h).1.inRange

/-- Two entries of one time and a later one without fields. -/
def recentEntries : List (StreamId × StreamFields) :=
  [(⟨1700000000000, 0⟩, [(ascii "f", ascii "v")]),
    (⟨1700000000000, 1⟩, [(ascii "f", ascii "w"), (ascii "g", [])]), (⟨1700000000005, 0⟩, [])]

theorem stream_dump_restore_recent :
    StreamRoundTrips .plain (fun _ => 7) (fun _ => true) 5 (streamOf recentEntries) := by
  refine (stream_dump_restore .plain (fun _ => 7) (fun _ => true) 5 _
    (inRange_streamOf (by decide)) ?_).2 ?_
  · intro payload hpayload
    cases hpayload
    decide +kernel
  · rw [show (streamOf recentEntries).tree.liveEntries = recentEntries from rfl]
    refine ⟨?_, by decide, StreamRadixTree.nodesInOrder_of_increasing (by decide),
      by decide +kernel⟩
    -- the time is more than the bytes that follow
    intro hblobs
    obtain ⟨blob, rest, hbytes, -⟩ := startsWithBlobs_succ.1 hblobs
    have hfits := ((exists_writeBlob_iff (by decide +kernel) rest).1 ⟨blob, hbytes⟩).2.1
    exact absurd hfits (by decide +kernel)

/-- A stream whose only id is `1-1` is read back as a list: the `1` is taken for the length of an
element. -/
theorem stream_dump_restore_fails :
    ¬ ∀ (env : Env) (checksum : Bytes → UInt64) (isListpack : HashObject SenkoValue → Bool)
      (now : Nat) (stream : StreamObject), stream.tree.InRange →
      (∀ payload, dumpValue env checksum isListpack now (.stream stream) = some payload →
        payload.length < 2 ^ 64) → StreamRoundTrips env checksum isListpack now stream := by
  intro h
  have hrange : (streamOf [(⟨1, 1⟩, [(ascii "f", ascii "v")])]).tree.InRange :=
    inRange_streamOf (by decide)
  refine not_streamRoundTrips hrange ?_ (h .plain (fun _ => 7) (fun _ => true) 5 _ hrange ?_)
  · rw [show (streamOf [(⟨1, 1⟩, [(ascii "f", ascii "v")])]).tree.liveEntries =
      [(⟨1, 1⟩, [(ascii "f", ascii "v")])] from rfl]
    decide
  · intro payload hpayload
    cases hpayload
    decide +kernel

end RoundTrip

end Senko
