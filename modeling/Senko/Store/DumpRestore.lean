import Senko.Core.SetRebuild
import Senko.Core.ZSet.ObjectRun
import Senko.Store.Dump
import Senko.Store.ReadBack

/-!
# Senko — what `RESTORE` gives back of a `DUMP`

A payload is read by the code that adds elements to containers, so what comes back is what these
operations make of the elements. The reader inverts the format itself on every value
(`roundTrips_iff`). What is lost is lost by the second pass: the spelling of numbers in strings, in
hash values and in small sets, and the deadlines of hash fields, which the payload does not have.
-/

namespace Senko

open Decoder List HashObject

/-! ## The format -/

theorem decodes_readLen {n : Nat} (h : n < 2 ^ 64) : Decodes readLen (writeLen n) n := by
  have hread := (decodes_take invalidDumpError (length_toLeBytes 8 n)).map (g := fromLeBytes)
  rwa [fromLeBytes_toLeBytes_of_lt h] at hread

theorem decodes_readBlob {blob : Bytes} (h : blob.length < 2 ^ 64) :
    Decodes readBlob (writeBlob blob) blob :=
  (decodes_readLen h).bind (decodes_take invalidDumpError rfl)

variable {ι : Type} {write : ι → Bytes} {items : List ι} {h : HashObject SenkoValue}
  {z : ZSetObject} {q : QuickList} {v w : SenkoValue} {tag : UInt8} {body : Bytes}
  {entries : List ZSetEntry}

/-- A container is read back element by element. -/
theorem exists_decodes_readItems {σ : Type} {step : σ → Decoder SenkoError σ}
    (I : List ι → σ → Prop) {s : σ} (hlen : items.length < 2 ^ 64) (h : I [] s)
    (hstep : ∀ done item rest s, items = done ++ item :: rest → I done s →
      ∃ s', Decodes (step s) (write item) s' ∧ I (done ++ [item]) s') :
    ∃ s', Decodes (readItems step s) (writeItems write items.length items) s' ∧ I items s' := by
  obtain ⟨s', hread, hall⟩ := exists_decodes_iterate I hstep rfl h
  exact ⟨s', (decodes_readLen hlen).bind hread, hall⟩

theorem length_write_le {item : ι}
    (h : item ∈ items) : (write item).length ≤ (items.flatMap write).length := by
  obtain ⟨front, back, rfl⟩ := append_of_mem h
  simp only [flatMap_append, flatMap_cons, length_append]
  omega

theorem length_le_length_flatMap
    (hwrite : ∀ item, 8 ≤ (write item).length) : items.length ≤ (items.flatMap write).length := by
  induction items with
  | nil => exact Nat.le_refl 0
  | cons item items ih =>
    have hitem := hwrite item
    rw [flatMap_cons, length_append, length_cons]
    omega

theorem length_writeBlob (blob : Bytes) : (writeBlob blob).length = 8 + blob.length := by
  rw [writeBlob, writeLen, length_append, length_toLeBytes]

section Payload

variable (env : Env) (checksum : Bytes → UInt64)

/-- The payload around what is written of a value. -/
def payloadOf (body : Bytes) : Bytes :=
  let out := body ++ toLeBytes 2 rdbVersion
  out ++ toLeBytes 8 (checksum out).toNat

variable {env} {checksum}

/-- **A payload is opened**: version and checksum are right, and the value is read. -/
theorem restoreValue_payloadOf_eq (tag : UInt8) (body : Bytes) :
    restoreValue env checksum (payloadOf checksum (tag :: body)) =
      (readTagged env tag (tag :: body) 1).map fun result => result.map Prod.fst := by
  have hread : readValue env (tag :: body) 0 = readTagged env tag (tag :: body) 1 := by
    have htake : Decodes (take invalidDumpError 1) [tag] [tag] := decodes_take invalidDumpError rfl
    have htag : take invalidDumpError 1 (tag :: body) 0 = some (.ok ([tag], 1)) := htake [] body
    rw [readValue, bind_apply, htag]
    rfl
  obtain ⟨written, hwritten⟩ : ∃ written, written = tag :: body := ⟨_, rfl⟩
  have hlen : written.length = body.length + 1 := by rw [hwritten, length_cons]
  rw [← hwritten] at hread ⊢
  obtain ⟨out, hout⟩ : ∃ out, out = written ++ toLeBytes 2 rdbVersion := ⟨_, rfl⟩
  obtain ⟨data, hdata⟩ : ∃ data, data = out ++ toLeBytes 8 (checksum out).toNat := ⟨_, rfl⟩
  have hpayload : payloadOf checksum written = data := by rw [hdata, hout]; rfl
  have houtLen : out.length = written.length + 2 := by rw [hout, length_append, length_toLeBytes]
  have hdataLen : data.length = out.length + 8 := by rw [hdata, length_append, length_toLeBytes]
  -- the parts that the offsets cut out
  have hsigned : data.take out.length = out := by rw [hdata, take_left]
  have hversion : out.drop written.length = toLeBytes 2 rdbVersion := by rw [hout, drop_left]
  have hsum : fromLeBytes (data.drop out.length) = (checksum out).toNat := by
    rw [hdata, drop_left]
    exact fromLeBytes_toLeBytes_of_lt (checksum out).toNat_lt
  have hbody : data.take written.length = written := by
    rw [hdata, take_append_of_le_length (by omega), hout, take_left]
  have hoffset : data.length - 8 = out.length := by omega
  have hoffset' : out.length - 2 = written.length := by omega
  rw [hpayload, restoreValue, if_neg (by omega)]
  simp only [hoffset, hoffset', hsigned, hversion, hsum, hbody, hread]
  rw [if_neg (by decide), if_neg (by simp)]

theorem restoreValue_payloadOf {value : SenkoValue} (h : Decodes (readTagged env tag) body value) :
    restoreValue env checksum (payloadOf checksum (tag :: body)) = some (.ok value) := by
  have hread := h [tag] []
  rw [append_nil, singleton_append] at hread
  rw [restoreValue_payloadOf_eq]
  show (readTagged env tag (tag :: body) [tag].length).map _ = _
  rw [hread]
  rfl

end Payload

/-! ## Contents -/

namespace SenkoValue

variable (std : FloatStd)

/-- What a hash shows of a field: the bytes of its value, and its deadline. -/
def fieldContents (hash : HashObject SenkoValue) (field : Bytes) : Option (Bytes × Option Nat) :=
  (hash.fields.find HashObject.fieldKey field).map fun f => (f.2.value.asBytes std, f.2.expiresAt)

/-- The entries of a sorted set, in order. -/
def zsetEntries (zset : ZSetObject) : Option (List ZSetEntry) :=
  zset.rangeByRank std 0 (-1) false none

/-- **The same contents**, of two strings, two lists, two hashes, two sets or two sorted sets. -/
def SameContents : SenkoValue → SenkoValue → Prop
  | .list q, .list q' => q'.iter = q.iter
  | .hash h, .hash h' => ∀ field, fieldContents std h' field = fieldContents std h field
  | .set s, .set s' => s'.iter.Perm s.iter
  | .zset z, .zset z' => zsetEntries std z' = zsetEntries std z
  | v, w => v.typeName = "string" ∧ w.typeName = "string" ∧ w.asBytes std = v.asBytes std

theorem sameContents_string (h : v.typeName = "string") :
    SameContents std v w ↔ w.typeName = "string" ∧ w.asBytes std = v.asBytes std := by
  cases v with
  | raw | int | float => simp [SameContents, typeName]
  | object kind contents => cases kind <;> simp [typeName] at h
  | _ => simp [typeName] at h

/-- A string, list, hash, set or sorted set as its operations keep it: fields, members and entries
are distinct, and the entries of a sorted set are in order and counted by a `u32`. -/
def Valid : SenkoValue → Prop
  | .raw _ | .int _ | .float _ | .list _ => True
  | .hash h => (h.fields.items.map HashObject.fieldKey).Nodup
  | .set s => s.iter.Nodup
  | .zset z => ∃ entries, zsetEntries std z = some entries ∧
      (entries.map ZSetEntry.member).Nodup ∧ entries.length < 2 ^ 32 ∧
      ((∀ e ∈ entries, e.NotNan) → SortedEntries entries)
  | .stream _ | .object _ _ => False

def NoExpiredField (now : Nat) : SenkoValue → Prop
  | .hash h => ∀ f ∈ h.fields.items, isExpired f.2.expiresAt now = false
  | _ => True

/-- **The values that survive**: numbers are spelled as they are printed, hash fields have no
deadline, sets keep their members in order, scores are numbers, and no list element but the last is
too long for its back-length. -/
def Restorable : SenkoValue → Prop
  | .list q => ∃ items, q.iter = some items ∧ q.len = items.length ∧ FitList items
  | .hash h => ∀ f ∈ h.fields.items,
      f.2.expiresAt = none ∧ SpelledAsPrinted std (f.2.value.asBytes std)
  | .set s => SetObject.KeptInOrder s.iter
  | .zset z => ∀ entries, zsetEntries std z = some entries → ∀ e ∈ entries, e.NotNan
  | v => SpelledAsPrinted std (v.asBytes std)

end SenkoValue

section RoundTrip

open SenkoValue

variable (env : Env) (checksum : Bytes → UInt64) (isListpack : HashObject SenkoValue → Bool)
  (now : Nat)

/-- `RESTORE` gives back what `DUMP` was given. -/
def RoundTrips (v : SenkoValue) : Prop :=
  ∃ payload w, dumpValue env checksum isListpack now v = some payload ∧
    restoreValue env checksum payload = some (.ok w) ∧ SameContents env.std v w

variable {env checksum isListpack now}

/-- The format is inverted: what is left is to compare the value with the one that is read. -/
theorem roundTrips_iff (hwrite : writeValue env isListpack now v = some (tag :: body))
    (hread : Decodes (readTagged env tag) body w) :
    RoundTrips env checksum isListpack now v ↔ SameContents env.std v w := by
  have hdump :
      dumpValue env checksum isListpack now v = some (payloadOf checksum (tag :: body)) := by
    rw [dumpValue, hwrite]
    rfl
  constructor
  · rintro ⟨payload, w', hpayload, hrestore, hsame⟩
    rw [hdump] at hpayload
    cases hpayload
    rw [restoreValue_payloadOf hread] at hrestore
    cases hrestore
    exact hsame
  · exact fun hsame => ⟨_, w, hdump, restoreValue_payloadOf hread, hsame⟩

/-- What is written is shorter than the payload. -/
theorem length_body_lt (hwrite : writeValue env isListpack now v = some (tag :: body))
    (hfits : ∀ payload, dumpValue env checksum isListpack now v = some payload →
      payload.length < 2 ^ 64) : body.length < 2 ^ 64 := by
  have hdump :
      dumpValue env checksum isListpack now v = some (payloadOf checksum (tag :: body)) := by
    rw [dumpValue, hwrite]
    rfl
  have hlt := hfits _ hdump
  simp only [payloadOf, length_append, length_cons] at hlt
  omega

/-! ## Strings and lists -/

/-- **Strings.** -/
theorem roundTrips_string (hstring : v.typeName = "string")
    (hwrite : writeValue env isListpack now v = some (rdbTypeString :: dumpString env v))
    (hlen : (dumpString env v).length < 2 ^ 64) :
    RoundTrips env checksum isListpack now v ↔ SpelledAsPrinted env.std (v.asBytes env.std) := by
  have hblob : (v.asBytes env.std).length < 2 ^ 64 := by
    rw [dumpString, length_writeBlob] at hlen
    omega
  have hread : Decodes (readTagged env rdbTypeString) (dumpString env v)
      (encodeAttempt env.std (v.asBytes env.std)) := (decodes_readBlob hblob).map
  rw [roundTrips_iff hwrite hread, ← asBytes_encodeAttempt]
  rw [sameContents_string env.std hstring]
  exact and_iff_right (typeName_encodeAttempt env.std _)

theorem writeValue_list {items : List Bytes} (hiter : q.iter = some items) :
    writeValue env isListpack now (.list q) =
      some (rdbTypeListQuicklist2 :: writeItems writeBlob q.len items) := by
  rw [writeValue, hiter]
  rfl

/-- **Lists** whose elements fit into the nodes of a new list. -/
theorem roundTrips_list {items : List Bytes} (hiter : q.iter = some items)
    (hlen : q.len = items.length) (hfit : FitList items)
    (hfits : items.length < 2 ^ 64) : RoundTrips env checksum isListpack now (.list q) := by
  obtain ⟨q', hread, hinv⟩ : ∃ q', Decodes (readItems readListItem QuickList.default)
      (writeItems writeBlob items.length items) q' ∧ q'.Inv items FitChunk := by
    refine exists_decodes_readItems (fun done (q : QuickList) => q.Inv done FitChunk) hfits
      (QuickList.inv_new (by decide)) fun done item rest q hitems hinv => ?_
    -- what was read begins the list, with this item too, so the chunk it joins still fits
    have hitem : item.length < 2 ^ 32 := hfit.2 item (by rw [hitems]; simp)
    have hprefix : done ++ [item] <+: items := ⟨rest, by rw [hitems]; simp⟩
    obtain ⟨q', hpush, hinv', -⟩ :=
      hinv.pushBack_divisible (hfit.divisible.of_infix hprefix.isInfix)
    refine ⟨q', (decodes_readBlob (hitem.trans (by norm_num))).bind_nil ?_, hinv'⟩
    rw [hpush]
    exact decodes_pure q'
  rw [← hlen] at hread
  refine (roundTrips_iff (w := .list q') (writeValue_list hiter) hread.map).2 ?_
  show q'.iter = q.iter
  rw [hinv.iter, hiter]

/-! ## Hashes -/

/-- What is read back of a field. -/
def restoredField (std : FloatStd) (f : CompactString × HashField SenkoValue) :
    CompactString × HashField SenkoValue :=
  (f.1, { value := encodeAttempt std (f.2.value.asBytes std) })

theorem decodes_readHashField (h : HashObject SenkoValue) (f : CompactString × HashField SenkoValue)
    (hfits : (writeHashField env.std f).length < 2 ^ 64) :
    Decodes (readHashField env h) (writeHashField env.std f)
      (h.set env.fieldPlace f.1 (restoredField env.std f).2.value none).1 := by
  rw [writeHashField, length_append, length_writeBlob, length_writeBlob] at hfits
  have hvalue :
      Decodes readBlob (writeBlob (f.2.value.asBytes env.std)) (f.2.value.asBytes env.std) :=
    decodes_readBlob (by omega)
  refine (decodes_readBlob (by omega)).bind ?_
  refine hvalue.bind_nil ?_
  rw [parseKey_bytes]
  exact decodes_pure _

/-- A new field, with the others. -/
theorem items_set_new {field : CompactString} (value : SenkoValue)
    (hnew : ∀ f ∈ h.fields.items, fieldKey f ≠ field.bytes) :
    (h.set env.fieldPlace field value none).1.fields.items.Perm
      ((field, { value }) :: h.fields.items) := by
  have hnone : h.fields.find fieldKey field.bytes = none :=
    (find?_key_eq_none _).2 hnew
  rw [HashObject.set, if_neg (by rw [hnone]; simp)]
  exact env.fieldPlace.insertUnique_perm _ _

/-- The hash that is read back. -/
theorem exists_decodes_hash {fields : List (CompactString × HashField SenkoValue)}
    (hnodup : (fields.map fieldKey).Nodup)
    (hfits : (fields.flatMap (writeHashField env.std)).length < 2 ^ 64) :
    ∃ h, Decodes (readItems (readHashField env) (.new env.fieldPlace))
        (writeItems (writeHashField env.std) fields.length fields) h ∧
      h.fields.items.Perm (fields.map (restoredField env.std)) := by
  have hlen : fields.length < 2 ^ 64 := by
    refine (length_le_length_flatMap fun f => ?_).trans_lt hfits
    rw [writeHashField, length_append, length_writeBlob]
    omega
  refine exists_decodes_readItems
    (fun done (h : HashObject SenkoValue) =>
      h.fields.items.Perm (done.map (restoredField env.std))) hlen ?_ ?_
  · rw [new, env.fieldPlace.items_withCapacity]
    exact .nil
  · intro done f rest h hfields hperm
    have hf : f ∈ fields := by rw [hfields]; simp
    refine ⟨_, decodes_readHashField h f ((length_write_le hf).trans_lt hfits), ?_⟩
    refine (items_set_new _ fun g hg => ?_).trans ?_
    · -- the fields read so far have other names
      obtain ⟨f', hf', rfl⟩ := mem_map.1 (hperm.mem_iff.1 hg)
      rw [hfields, map_append, map_cons] at hnodup
      exact (nodup_append.1 hnodup).2.2 _ (mem_map.2 ⟨f', hf', rfl⟩) _ mem_cons_self
    · rw [map_append]
      exact (hperm.cons _).trans (perm_append_singleton _ _).symm

/-- **Hashes.** -/
theorem roundTrips_hash (hnodup : (h.fields.items.map fieldKey).Nodup)
    (hlive : ∀ f ∈ h.fields.items, isExpired f.2.expiresAt now = false)
    (hfits : (h.fields.items.flatMap (writeHashField env.std)).length < 2 ^ 64) :
    RoundTrips env checksum isListpack now (.hash h) ↔ Restorable env.std (.hash h) := by
  obtain ⟨h', hread, hperm⟩ := exists_decodes_hash hnodup hfits
  have hentries : h.iterLive now = h.fields.items :=
    filter_eq_self.2 fun f hf => by rw [hlive f hf]; rfl
  have hkeys : (h.fields.items.map (restoredField env.std)).map fieldKey =
      h.fields.items.map fieldKey := by
    rw [map_map]
    rfl
  have hnodup' : (h'.fields.items.map fieldKey).Nodup := by
    rw [(hperm.map _).nodup_iff, hkeys]
    exact hnodup
  have htag : Decodes (readTagged env (if isListpack h then rdbTypeHashListpack else rdbTypeHash))
      (writeItems (writeHashField env.std) h.fields.items.length h.fields.items) (.hash h') := by
    cases isListpack h <;> exact hread.map
  have hwrite : writeValue env isListpack now (.hash h) =
      some ((if isListpack h then rdbTypeHashListpack else rdbTypeHash) ::
        writeItems (writeHashField env.std) h.fields.items.length h.fields.items) := by
    rw [writeValue, hentries]
  rw [roundTrips_iff hwrite htag]
  -- a field and what is read back of it are found under the same name
  have hfind : ∀ f ∈ h.fields.items, fieldContents env.std h f.1.bytes =
        some (f.2.value.asBytes env.std, f.2.expiresAt) ∧
      fieldContents env.std h' f.1.bytes =
        some ((encodeAttempt env.std (f.2.value.asBytes env.std)).asBytes env.std, none) := by
    intro f hf
    have hold : h.fields.find fieldKey f.1.bytes = some f :=
      (find?_key_eq_some _ hnodup).2 ⟨hf, rfl⟩
    have hnew : h'.fields.find fieldKey f.1.bytes = some (restoredField env.std f) :=
      (find?_key_eq_some _ hnodup').2 ⟨hperm.mem_iff.2 (mem_map_of_mem hf), rfl⟩
    rw [fieldContents, fieldContents, hold, hnew]
    exact ⟨rfl, rfl⟩
  constructor
  · intro hsame f hf
    obtain ⟨hold, hnew⟩ := hfind f hf
    have heq : fieldContents env.std h' f.1.bytes = fieldContents env.std h f.1.bytes :=
      hsame f.1.bytes
    rw [hold, hnew, Option.some.injEq, Prod.mk.injEq] at heq
    exact ⟨heq.2.symm, (asBytes_encodeAttempt env.std _).1 heq.1⟩
  · intro hrestorable field
    cases hfound : h.fields.find fieldKey field with
    | some f =>
      obtain ⟨hf, rfl⟩ := (find?_key_eq_some _ hnodup).1 hfound
      obtain ⟨hold, hnew⟩ := hfind f hf
      obtain ⟨hdeadline, hspelled⟩ := hrestorable f hf
      show fieldContents env.std h' f.1.bytes = fieldContents env.std h f.1.bytes
      rw [hold, hnew, (asBytes_encodeAttempt env.std _).2 hspelled, hdeadline]
    | none =>
      have habsent : h'.fields.find fieldKey field = none := by
        refine (find?_key_eq_none _).2 fun g hg => ?_
        obtain ⟨f, hf, rfl⟩ := mem_map.1 (hperm.mem_iff.1 hg)
        exact (find?_key_eq_none _).1 hfound f hf
      rw [fieldContents, fieldContents, hfound, habsent]

/-! ## Sets and sorted sets -/

/-- **Sets.** -/
theorem roundTrips_set {set : SetObject} (hnodup : set.iter.Nodup)
    (hfits : (set.iter.flatMap writeBlob).length < 2 ^ 64) :
    RoundTrips env checksum isListpack now (.set set) ↔ Restorable env.std (.set set) := by
  have hlen : set.iter.length < 2 ^ 64 := by
    refine (length_le_length_flatMap fun member => ?_).trans_lt hfits
    rw [length_writeBlob]
    omega
  obtain ⟨set', hread, rfl⟩ : ∃ set', Decodes (readItems (readSetMember env) .new)
      (writeItems writeBlob set.iter.length set.iter) set' ∧
        set' = SetObject.new.addAll env.memberPlace set.iter := by
    refine exists_decodes_readItems
      (fun done (set : SetObject) => set = SetObject.new.addAll env.memberPlace done) hlen rfl ?_
    rintro done member rest _ hmembers rfl
    have hmember : (writeBlob member).length < 2 ^ 64 :=
      (length_write_le (by rw [hmembers]; simp)).trans_lt hfits
    rw [length_writeBlob] at hmember
    refine ⟨_, (decodes_readBlob (by omega)).map, ?_⟩
    rw [SetObject.addAll_snoc]
  have htag : Decodes (readTagged env (setTag set.inner))
      (writeItems writeBlob set.iter.length set.iter)
      (.set (SetObject.new.addAll env.memberPlace set.iter)) := by
    cases set.inner <;> exact hread.map
  rw [roundTrips_iff rfl htag]
  exact SetObject.perm_iter_addAll hnodup

/-- The sorted set that is read back: a score that is no number is refused. -/
theorem exists_decodes_zset (env : Env)
    (hnodup : (entries.map ZSetEntry.member).Nodup) (hcount : entries.length < 2 ^ 32)
    (hfits : (entries.flatMap writeZsetEntry).length < 2 ^ 64) :
    ∃ z, Decodes (readItems (readZsetEntry env) .new)
        (writeItems writeZsetEntry entries.length entries) z ∧
      ∃ S, ZSetObject.Refines z S ∧ ∀ e, e ∈ S.entries ↔ e ∈ entries ∧ e.NotNan := by
  obtain ⟨z, hread, hz⟩ : ∃ z, Decodes (readItems (readZsetEntry env) .new)
      (writeItems writeZsetEntry entries.length entries) z ∧ entries.foldlM
        (fun z e => (z.add env.std e.score e.member {}).map Prod.fst) ZSetObject.new = some z := by
    refine exists_decodes_readItems (fun (done : List ZSetEntry) (z : ZSetObject) => done.foldlM
      (fun z e => (z.add env.std e.score e.member {}).map Prod.fst) .new = some z) (by omega) rfl ?_
    intro done x rest z hentries hz
    have hx : (writeZsetEntry x).length < 2 ^ 64 :=
      (length_write_le (by rw [hentries]; simp)).trans_lt hfits
    rw [writeZsetEntry, length_append, length_writeBlob] at hx
    -- the entries that are read so far fill a sorted set
    have hsub : (done ++ [x]).Sublist entries := by
      rw [hentries]
      exact (singleton_sublist.2 mem_cons_self).append_left done
    obtain ⟨z', -, hz', -⟩ := ZSetObject.exists_filled env.std (hnodup.sublist (hsub.map _))
      (hsub.length_le.trans_lt hcount)
    refine ⟨z', ?_, hz'⟩
    rw [foldlM_append, hz] at hz'
    obtain ⟨added, hadd, rfl⟩ : ∃ added, z.add env.std x.score x.member {} = some added ∧
        added.1 = z' := by simpa using hz'
    refine (decodes_readBlob (by omega)).bind ?_
    refine (decodes_take invalidDumpError x.score.length_toLeBytes).bind_nil ?_
    rw [parseKey_bytes, F64.fromLeBytes_toLeBytes]
    show Decodes (unwrap (z.add env.std x.score x.member {}) >>= fun added => pure added.1) [] _
    rw [hadd]
    exact decodes_pure _
  obtain ⟨z', S, hz', hS, -, hmem⟩ := ZSetObject.exists_filled env.std hnodup hcount
  cases hz.symm.trans hz'
  exact ⟨z, hread, S, hS, hmem⟩

theorem writeValue_zset (hentries : zsetEntries env.std z = some entries) :
    writeValue env isListpack now (.zset z) =
      some (zsetTag z.inner :: writeItems writeZsetEntry entries.length entries) := by
  rw [zsetEntries] at hentries
  rw [writeValue, hentries]
  rfl

/-- **Sorted sets.** -/
theorem roundTrips_zset (hentries : zsetEntries env.std z = some entries)
    (hnodup : (entries.map ZSetEntry.member).Nodup) (hcount : entries.length < 2 ^ 32)
    (hsorted : (∀ e ∈ entries, e.NotNan) → SortedEntries entries)
    (hfits : (entries.flatMap writeZsetEntry).length < 2 ^ 64) :
    RoundTrips env checksum isListpack now (.zset z) ↔ Restorable env.std (.zset z) := by
  obtain ⟨z', hread, S, hz', hmem⟩ := exists_decodes_zset env hnodup hcount hfits
  have htag : Decodes (readTagged env (zsetTag z.inner))
      (writeItems writeZsetEntry entries.length entries) (.zset z') := by
    cases z.inner <;> exact hread.map
  have hrestored : zsetEntries env.std z' = some S.entries := hz'.rangeAll env.std
  rw [roundTrips_iff (writeValue_zset hentries) htag]
  show zsetEntries env.std z' = zsetEntries env.std z ↔
    ∀ entries, zsetEntries env.std z = some entries → ∀ e ∈ entries, e.NotNan
  rw [hrestored, hentries]
  constructor
  · intro heq entries' hsome e he
    rw [← Option.some.inj hsome, ← Option.some.inj heq] at he
    exact ((hmem e).1 he).2
  · intro hnan
    have hall := hnan entries rfl
    have heq : S = ⟨entries, hsorted hall, hnodup⟩ :=
      SortedSet.ext_mem fun e => (hmem e).trans ⟨And.left, fun he => ⟨he, hall e he⟩⟩
    rw [heq]

/-! ## All values -/

/-- **What `RESTORE` gives back.** A value of which every blob and count fits a `u64` comes back
with its contents if it is restorable; and but for lists, only then. -/
theorem dump_restore_roundTrip (env : Env) (checksum : Bytes → UInt64)
    (isListpack : HashObject SenkoValue → Bool) (now : Nat) (v : SenkoValue)
    (hvalid : v.Valid env.std) (hlive : v.NoExpiredField now)
    (hfits : ∀ payload, dumpValue env checksum isListpack now v = some payload →
      payload.length < 2 ^ 64) :
    (v.Restorable env.std → RoundTrips env checksum isListpack now v) ∧
      ((∀ q, v ≠ .list q) → RoundTrips env checksum isListpack now v → v.Restorable env.std) := by
  have hitems : ∀ {α : Type} {write : α → Bytes} {n : Nat} {items : List α},
      (writeItems write n items).length < 2 ^ 64 → (items.flatMap write).length < 2 ^ 64 := by
    intro α write n items hlt
    rw [writeItems, length_append] at hlt
    omega
  have hboth : ∀ {P Q : Prop}, (P ↔ Q) → (Q → P) ∧ ((∀ q, v ≠ .list q) → P → Q) :=
    fun h => ⟨h.2, fun _ => h.1⟩
  cases v with
  | raw | int | float => exact hboth (roundTrips_string rfl rfl (length_body_lt rfl hfits))
  | list q =>
    refine ⟨?_, fun hne => absurd rfl (hne q)⟩
    rintro ⟨items, hiter, hlen, hfit⟩
    have hlt := hitems (length_body_lt (writeValue_list hiter) hfits)
    refine roundTrips_list hiter hlen hfit ((length_le_length_flatMap fun item => ?_).trans_lt hlt)
    rw [length_writeBlob]
    omega
  | hash h =>
    have hentries : h.iterLive now = h.fields.items :=
      filter_eq_self.2 fun f hf => by rw [hlive f hf]; rfl
    have hlt := hitems (length_body_lt rfl hfits)
    rw [hentries] at hlt
    exact hboth (roundTrips_hash hvalid hlive hlt)
  | set s => exact hboth (roundTrips_set hvalid (hitems (length_body_lt rfl hfits)))
  | zset z =>
    obtain ⟨entries, hentries, hnodup, hcount, hsorted⟩ := hvalid
    exact hboth (roundTrips_zset hentries hnodup hcount hsorted
      (hitems (length_body_lt (writeValue_zset hentries) hfits)))
  | stream | object => cases hvalid

/-- A hash with one field `f` of value `v`, with or without a deadline. -/
def oneField (expiresAt : Option Nat) : HashObject SenkoValue :=
  ((HashObject.new Env.plain.fieldPlace).set Env.plain.fieldPlace ⟨ascii "f", by decide⟩
    (.raw (ascii "v")) expiresAt).1

theorem items_oneField (expiresAt : Option Nat) : (oneField expiresAt).fields.items =
    [(⟨ascii "f", by decide⟩, { value := .raw (ascii "v"), expiresAt })] := rfl

/-- A hash without deadlines, and a list that ends with a long element. -/
theorem dump_restore_roundTrip_kept :
    RoundTrips .plain (fun _ => 7) (fun _ => true) 5 (.hash (oneField none)) ∧
      ∃ q : QuickList, q.iter = some [[0x62], replicate 300 0x61] ∧
        RoundTrips .plain (fun _ => 7) (fun _ => true) 5 (.list q) := by
  have hrestorable : (SenkoValue.hash (oneField none)).Restorable Env.plain.std := by
    intro f hf
    rw [items_oneField, mem_singleton] at hf
    subst hf
    exact ⟨rfl, fun _ x hx => by cases hx⟩
  have hfit : FitList [[0x62], replicate 300 0x61] := ⟨by decide +kernel, by decide +kernel⟩
  obtain ⟨q, -, hinv, -⟩ := QuickList.pushBackAll_new (show (128 : Int) ≤ 65534 by decide) hfit
  refine ⟨(dump_restore_roundTrip .plain (fun _ => 7) (fun _ => true) 5 _ ?_ ?_ ?_).1 hrestorable,
    q, hinv.iter, (dump_restore_roundTrip .plain (fun _ => 7) (fun _ => true) 5 (.list q) trivial
      trivial ?_).1 ⟨_, hinv.iter, hinv.len, hfit⟩⟩
  · show ((oneField none).fields.items.map HashObject.fieldKey).Nodup
    rw [items_oneField]
    exact nodup_singleton _
  · intro f hf
    rw [items_oneField, mem_singleton] at hf
    subst hf
    rfl
  · intro payload hpayload
    cases hpayload
    decide +kernel
  · intro payload hpayload
    rw [dumpValue, writeValue_list hinv.iter, hinv.len] at hpayload
    cases hpayload
    decide +kernel

/-- The deadline of a hash field is not in the payload. -/
theorem dump_restore_roundTrip_fails :
    ¬ ∀ (env : Env) (checksum : Bytes → UInt64) (isListpack : HashObject SenkoValue → Bool)
      (now : Nat) (v : SenkoValue), v.Valid env.std → v.NoExpiredField now →
      (∀ payload, dumpValue env checksum isListpack now v = some payload →
        payload.length < 2 ^ 64) → RoundTrips env checksum isListpack now v := by
  intro h
  have hnodup : ((oneField (some 9)).fields.items.map HashObject.fieldKey).Nodup := by
    rw [items_oneField]
    exact nodup_singleton _
  have hlive : ∀ f ∈ (oneField (some 9)).fields.items, isExpired f.2.expiresAt 5 = false := by
    intro f hf
    rw [items_oneField, mem_singleton] at hf
    subst hf
    rfl
  have hround := h .plain (fun _ => 7) (fun _ => true) 5 (.hash (oneField (some 9))) hnodup hlive
    (by intro payload hpayload; cases hpayload; decide +kernel)
  have hfits : ((oneField (some 9)).fields.items.flatMap (writeHashField Env.plain.std)).length <
      2 ^ 64 := by decide +kernel
  have hrestorable := (roundTrips_hash hnodup hlive hfits).1 hround
  have hnone := (hrestorable _ (by rw [items_oneField]; exact mem_singleton_self _)).1
  cases hnone

end RoundTrip

end Senko
