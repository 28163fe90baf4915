import Senko.Net.OneFrame

/-!
# Senko — every plan answers with one frame

One lemma for every part of a plan, and from them the plans themselves.
-/

namespace Senko.Net

open Resp Plan List

namespace Coordinator

variable {c : Coordinator} {α β : Type} {Q : α → Prop}

/-! ## Arguments -/

variable (c) in
/-- A part of a plan that answers with one frame if it fails. -/
abbrev Safe (p : Routed α) : Prop := p.Holds c.framing fun _ => True

theorem Safe.bind {p : Routed α} {f : α → Routed β} {R : β → Prop} (hp : c.Safe p)
    (hf : ∀ a, (f a).Holds c.framing R) : (p >>= f).Holds c.framing R :=
  Holds.bind hp fun a _ => hf a

theorem safe_frameBytes (frame : Resp.Frame) : c.Safe (frameBytes frame) := by
  have hfail : c.Safe (fail (errorBytes (ascii "command arguments must be strings")) :
      Routed Bytes) := holds_fail (by decide)
  cases frame <;> first | exact hfail | trivial

theorem holds_frameBytes₂ (first second : Resp.Frame) {f : Bytes → Bytes → Routed α}
    (hf : ∀ a b, (f a b).Holds c.framing Q) :
    (do let a ← frameBytes first; let b ← frameBytes second; f a b).Holds c.framing Q := by
  apply (safe_frameBytes first).bind
  intro a
  apply (safe_frameBytes second).bind
  exact hf a

theorem safe_collectFrameArgs (frames : List Resp.Frame) : c.Safe (collectFrameArgs frames) := by
  induction frames with
  | nil => trivial
  | cons frame frames ih =>
    apply (safe_frameBytes frame).bind
    intro bytes
    apply Safe.bind ih
    intro rest
    trivial

theorem safe_parseUsizeBytes (raw : Bytes) {message : List Char} (h : oneLine message = true) :
    c.Safe (parseUsizeBytes raw (String.ofList message)) := by
  unfold parseUsizeBytes
  split
  · trivial
  · exact holds_failWith h

variable {wrongArity : List Char} {shard : Nat} (command : Bytes) (args : List Resp.Frame)

variable (replace : Bool) (keys : List Bytes) (index : Nat)

theorem safe_parseRequiredArgBytes (h : oneLine wrongArity = true) :
    c.Safe (parseRequiredArgBytes args index (String.ofList wrongArity)) := by
  unfold parseRequiredArgBytes
  split
  · exact holds_failWith h
  · exact safe_frameBytes _

theorem safe_parseKeyArgs (left : Nat) : c.Safe (parseKeyArgs args index left) := by
  induction left generalizing index with
  | zero => trivial
  | succ left ih =>
    apply (safe_parseRequiredArgBytes args index (by rfl)).bind
    intro key
    apply Safe.bind (ih (index + 1))
    intro keys
    trivial

theorem safe_parseNumkeys : c.Safe (parseNumkeys args index) := by
  apply (safe_parseRequiredArgBytes args index (by rfl)).bind
  intro raw
  apply (safe_parseUsizeBytes raw (by rfl)).bind
  intro numkeys
  split
  · exact holds_failWith rfl
  · split
    · exact holds_failWith rfl
    · trivial

theorem safe_findOptionDestination (tokens : List String) (args : List Resp.Frame) :
    c.Safe (findOptionDestination tokens args) := by
  induction args with
  | nil => trivial
  | cons arg rest ih =>
    apply (safe_frameBytes arg).bind
    intro token
    split
    · cases rest with
      | nil => trivial
      | cons frame _ =>
        apply (safe_frameBytes frame).bind
        intro destination
        trivial
    · exact ih

theorem safe_collectBitopSourceKeys : c.Safe (collectBitopSourceKeys args) := by
  unfold collectBitopSourceKeys
  split
  · exact holds_failWith rfl
  · exact safe_collectFrameArgs _

theorem safe_collectZsetTempCommandKeys : c.Safe (collectZsetTempCommandKeys command args) := by
  unfold collectZsetTempCommandKeys
  split
  · apply (safe_collectFrameArgs _).bind
    intro keys
    apply (safe_parseRequiredArgBytes args 0 (by rfl)).bind
    intro destination
    trivial
  split
  · apply (safe_parseNumkeys args 0).bind
    intro numkeys
    apply (safe_parseKeyArgs args 1 numkeys).bind
    intro keys
    trivial
  apply (safe_parseNumkeys args 1).bind
  intro numkeys
  apply (safe_parseKeyArgs args 2 _).bind
  intro keys
  apply (safe_parseRequiredArgBytes args 0 (by rfl)).bind
  intro destination
  trivial

theorem safe_parseCrossShardTwoKeys {wrongArity : String} (h : cr ∉ ascii wrongArity)
    (validateDestinationUtf8 : Bool) :
    c.Safe (parseCrossShardTwoKeys args wrongArity validateDestinationUtf8) := by
  unfold parseCrossShardTwoKeys
  split
  · rename_i source destination
    refine holds_frameBytes₂ source destination fun source destination => ?_
    split
    · exact holds_failWith rfl
    · trivial
  · exact holds_fail h

theorem safe_parseCopyOptions : c.Safe (parseCopyOptions args replace) := by
  fun_induction parseCopyOptions args replace with
  | case1 replace => trivial
  | case2 arg rest replace ihReplace ihDb =>
    apply (safe_frameBytes arg).bind
    intro token
    split
    · exact ihReplace
    split
    · rcases rest with _ | ⟨db, rest⟩
      · exact holds_syntaxFailure
      apply (safe_frameBytes db).bind
      intro db
      split
      · exact ihDb
      · exact holds_failWith rfl
    · exact holds_syntaxFailure

theorem safe_parseCrossShardCopyArgs : c.Safe (parseCrossShardCopyArgs args) := by
  unfold parseCrossShardCopyArgs
  split
  · rename_i source destination options
    refine holds_frameBytes₂ source destination fun source destination => ?_
    split
    · exact holds_failWith rfl
    · apply (safe_parseCopyOptions options false).bind
      intro replace
      trivial
  · exact holds_failWith rfl

theorem safe_parseSide (side : Bytes) (left right : String) :
    c.Safe (parseSide side left right) := by
  unfold parseSide
  split
  · trivial
  · split
    · trivial
    · exact holds_syntaxFailure

theorem safe_parseCrossShardListMoveArgs : c.Safe (parseCrossShardListMoveArgs command args) := by
  unfold parseCrossShardListMoveArgs
  split
  · split
    · rename_i source destination
      refine holds_frameBytes₂ source destination fun source destination => ?_
      trivial
    · exact holds_failWith rfl
  split
  · rename_i source destination fromSide toSide
    apply (safe_frameBytes fromSide).bind
    intro fromSide
    apply (safe_frameBytes toSide).bind
    intro toSide
    apply (safe_parseSide fromSide _ _).bind
    intro pop
    apply (safe_parseSide toSide _ _).bind
    intro push
    refine holds_frameBytes₂ source destination fun source destination => ?_
    trivial
  · exact holds_failWith rfl

theorem safe_parseCrossShardMsetexArgs : c.Safe (parseCrossShardMsetexArgs args) := by
  unfold parseCrossShardMsetexArgs
  split
  · exact holds_failWith rfl
  rename_i numkeysFrame rest
  apply (safe_frameBytes numkeysFrame).bind
  intro raw
  apply (safe_parseUsizeBytes raw (by rfl)).bind
  intro numkeys
  split
  · exact holds_failWith rfl
  split
  · exact holds_syntaxFailure
  split
  · exact holds_failWith rfl
  · apply (safe_collectFrameArgs _).bind
    intro pairBytes
    apply (safe_collectFrameArgs _).bind
    intro optionBytes
    trivial

theorem safe_parseCrossShardSetStoreArgs : c.Safe (parseCrossShardSetStoreArgs command args) := by
  unfold parseCrossShardSetStoreArgs
  split
  · rename_i first second rest
    apply (safe_frameBytes first).bind
    intro destination
    apply (safe_collectFrameArgs _).bind
    intro sources
    trivial
  · split
    · exact holds_failWith rfl
    · split <;> exact holds_failWith rfl

/-- The number of keys may wrap, but not past the arguments. -/
theorem safe_parseSintercardLimit {args : List Resp.Frame} {numkeys : Nat}
    (hshort : ¬args.length < usize (1 + numkeys)) :
    c.Safe (parseSintercardLimit args numkeys) := by
  unfold parseSintercardLimit
  split
  · trivial
  split
  · rename_i hlength
    have hindexes : usize (1 + numkeys) < args.length ∧ usize (2 + numkeys) < args.length := by
      unfold usize at hshort hlength ⊢
      omega
    rw [getElem?_eq_getElem hindexes.1, getElem?_eq_getElem hindexes.2]
    apply (safe_frameBytes _).bind
    intro token
    split
    · apply (safe_frameBytes _).bind
      intro limit
      trivial
    · exact holds_syntaxFailure
  · exact holds_syntaxFailure

theorem safe_parseCrossShardSintercardArgs : c.Safe (parseCrossShardSintercardArgs args) := by
  unfold parseCrossShardSintercardArgs
  split
  · rename_i first second rest
    apply (safe_frameBytes first).bind
    intro raw
    apply (safe_parseUsizeBytes raw (by rfl)).bind
    intro numkeys
    split
    · exact holds_failWith rfl
    split
    · exact holds_syntaxFailure
    rename_i hshort
    apply (safe_parseSintercardLimit hshort).bind
    intro limit
    apply (safe_collectFrameArgs _).bind
    intro keys
    trivial
  · exact holds_failWith rfl

theorem safe_parseScanOptions : ∀ (args : List Resp.Frame) (parsed : GlobalScanArgs),
    c.Safe (parseScanOptions args parsed)
  | [], _ => trivial
  | [arg], parsed => by
    apply (safe_frameBytes arg).bind
    intro token
    -- every option lacks its value
    split
    · exact holds_syntaxFailure
    · split
      · exact holds_syntaxFailure
      · split <;> exact holds_syntaxFailure
  | arg :: value :: rest, parsed => by
    apply (safe_frameBytes arg).bind
    intro token
    split
    · apply (safe_frameBytes value).bind
      intro pattern
      exact safe_parseScanOptions rest _
    split
    · apply (safe_frameBytes value).bind
      intro raw
      apply (safe_parseUsizeBytes raw (by rfl)).bind
      intro count
      exact safe_parseScanOptions rest _
    · split
      · apply (safe_frameBytes value).bind
        intro filter
        exact safe_parseScanOptions rest _
      · exact holds_syntaxFailure

theorem safe_parseGlobalScanArgs : c.Safe (parseGlobalScanArgs args) := by
  unfold parseGlobalScanArgs
  split
  · exact holds_failWith rfl
  rename_i first options
  apply (safe_frameBytes first).bind
  intro raw
  apply (safe_parseUsizeBytes raw (by rfl)).bind
  intro cursor
  exact safe_parseScanOptions options _

/-! ## Parts of plans -/

theorem safe_groupKeyArgs : c.Safe (c.groupKeyArgs args) := by
  apply (safe_collectFrameArgs args).bind
  intro keys
  trivial

theorem safe_groupMsetPairs : c.Safe (c.groupMsetPairs args) := by
  apply (safe_collectFrameArgs args).bind
  intro bytes
  trivial

/-- An integer is read from the reply. -/
theorem holds_executeInteger {command : Bytes} {args : List Bytes}
    {k : Int → Routed α} (hk : ∀ value, InI64 value → (k value).Holds c.framing Q) :
    (c.execute shard command args >>= fun bytes => c.parseIntegerResponse bytes >>= k).Holds
      c.framing Q :=
  holds_execute reads_parseIntegerResponse fun _ value _ hvalue => hk value hvalue

/-- A reply must be `OK`. -/
theorem holds_executeOk {command : Bytes} {args : List Bytes} {k : Unit → Routed α}
    (hk : (k ()).Holds c.framing Q) :
    (c.execute shard command args >>= fun bytes => c.ensureOk bytes >>= k).Holds c.framing Q :=
  holds_execute reads_ensureOk fun _ _ _ _ => hk

theorem safe_executeOk {command : Bytes} {args : List Bytes} :
    c.Safe (c.execute shard command args >>= fun bytes => c.ensureOk bytes) := by
  have hdone : c.Safe (c.execute shard command args >>= fun bytes => c.ensureOk bytes >>= done) :=
    holds_executeOk trivial
  simpa only [bind_done] using hdone

theorem holds_sumOverShards (grouped : List (Nat × List (Nat × Bytes))) :
    (c.sumOverShards command grouped).Holds c.framing InI64 := by
  apply Holds.foldlM
  · rintro total ⟨shard, entries⟩ _ _
    apply holds_executeInteger
    intro value _
    exact inI64_wrapI64 _
  · constructor <;> norm_num

theorem holds_crossShardExistsCount : (c.crossShardExistsCount args).Holds c.framing InI64 := by
  apply (safe_groupKeyArgs args).bind
  intro grouped
  exact holds_sumOverShards _ grouped

theorem safe_ensureRemoteType (shard : Nat) (key expected : Bytes) :
    c.Safe (c.ensureRemoteType shard key expected) := by
  apply holds_execute reads_parseTypeNameResponse
  intro _ value _ _
  split
  · exact holds_failWith rfl
  · trivial

theorem safe_fetchDumpPayload (source : Bytes) (shard : Nat) :
    c.Safe (c.fetchDumpPayload source shard) := by
  apply holds_execute reads_parseOptionalBytesResponse
  intro _ payload _ _
  cases payload with
  | none => trivial
  | some payload =>
    apply holds_executeInteger
    intro ttl _
    trivial

/-- A list of texts is read from the reply. -/
theorem holds_executeBulkArray {command : Bytes} {args : List Bytes}
    {k : List Bytes → Routed α} (hk : ∀ values, (k values).Holds c.framing Q) :
    (c.execute shard command args >>= fun bytes => c.parseBulkArrayResponse bytes >>= k).Holds
      c.framing Q :=
  holds_execute reads_parseBulkArrayResponse fun _ values _ _ => hk values

theorem safe_fetchSetSources : c.Safe (c.fetchSetSources keys) := by
  apply Holds.foldlM
  · intro sets key _ _
    apply holds_executeBulkArray
    intro members
    trivial
  · trivial

theorem safe_fetchAllKeysMatching (pattern : Bytes) : c.Safe (c.fetchAllKeysMatching pattern) := by
  apply Holds.foldlM
  · intro out shard _ _
    apply holds_executeBulkArray
    intro keys
    trivial
  · trivial

theorem safe_filterKeysByType (typeFilter : Bytes) :
    c.Safe (c.filterKeysByType keys typeFilter) := by
  apply Holds.foldlM
  · intro out key _ _
    apply holds_execute reads_parseTypeNameResponse
    intro _ name _ _
    split <;> trivial
  · trivial

theorem safe_msetOverShards (grouped : List (Nat × List Bytes)) :
    c.Safe (c.msetOverShards grouped) := by
  apply Holds.foldlM
  · rintro _ ⟨shard, shardArgs⟩ _ _
    exact safe_executeOk
  · trivial

/-! ## The temporary store -/

/-- A command on the temporary store fails with one frame unless its error has a carriage return. -/
theorem holds_tempDispatch (args : List Bytes) :
    (tempDispatch command args).Holds c.framing ResponseSound := by
  intro answer hsound
  cases answer with
  | ok response => exact ⟨fun _ => hsound, fun hbad => absurd trivial hbad⟩
  | error text =>
    refine ⟨fun htext => holds_fail htext, fun hmem => ⟨errorMessage text, rfl, ?_⟩⟩
    show ¬OneFrame c.std (errorMessage text)
    rw [oneFrame_errorMessage]
    exact hmem

theorem safe_tempNew :
    c.Safe tempNew := fun _ _ => ⟨fun _ => trivial, fun hbad => absurd trivial hbad⟩

theorem safe_tempEntry (key : Bytes) : c.Safe (tempEntry key) :=
  fun _ _ => ⟨fun _ => trivial, fun hbad => absurd trivial hbad⟩

theorem safe_hydrateTempStoreFromKeys : c.Safe (c.hydrateTempStoreFromKeys keys) := by
  apply safe_tempNew.bind
  intro _
  refine Safe.bind (α := List Bytes) (Holds.foldlM ?_ trivial) fun _ => trivial
  intro seen key _ _
  unfold hydrateKey
  split
  · trivial
  apply (safe_fetchDumpPayload key _).bind
  intro fetched
  rcases fetched with _ | fetched
  · trivial
  obtain ⟨payload, ttlMs⟩ := fetched
  have hrestore : c.Safe (restoreKeyIntoTempStore key payload ttlMs) :=
    (holds_tempDispatch _ _).bind fun _ _ => trivial
  exact hrestore.bind fun _ => trivial

theorem safe_syncDestination (destination : Option Bytes) :
    c.Safe (c.syncDestination destination) := by
  rcases destination with _ | key
  · trivial
  apply (safe_tempEntry key).bind
  intro entry
  cases entry with
  | none =>
    apply holds_executeInteger
    intro _ _
    trivial
  | some entry => exact safe_executeOk

/-- **A command on a temporary store.** -/
theorem holds_tempStoreCommand (sourceKeys : List Bytes) (destination : Option Bytes) :
    (c.dispatchCrossShardTempStoreCommand command args sourceKeys destination).Holds c.framing
    c.Serialized := by
  apply (safe_collectFrameArgs args).bind
  intro ownedArgs
  apply (safe_hydrateTempStoreFromKeys sourceKeys).bind
  intro _
  apply (holds_tempDispatch command ownedArgs).bind
  intro response hresponse
  apply (safe_syncDestination destination).bind
  intro _
  exact holds_reply hresponse

/-! ## The plans -/

variable (c) in
/-- A plan ends with the bytes of a response, or fails with one frame. -/
abbrev Framed (p : Routed Bytes) : Prop := p.Holds c.framing c.Serialized

theorem holds_replyInteger (n : Int) : c.Framed (c.reply (.integer (wrapI64 n))) :=
  holds_reply (inI64_wrapI64 n)

theorem responseSound_rawArrayResponse (members : List Bytes) :
    ResponseSound (rawArrayResponse members) := by
  apply allResponsesSound_iff.2
  intro item hitem
  obtain ⟨member, -, rfl⟩ := mem_map.1 hitem
  trivial

theorem framed_mget : c.Framed (c.dispatchCrossShardMget args) := by
  apply (safe_groupKeyArgs args).bind
  intro grouped
  -- what is merged are sound responses
  refine .bind (Q := fun merged => ∀ item ∈ merged, ResponseSound item)
    (Holds.foldlM ?_ ?_) ?_
  · rintro merged ⟨shard, entries⟩ _ hmerged
    apply holds_execute reads_parseMgetResponse
    intro _ values _ hvalues
    split
    · exact holds_protocolError
    show ∀ item ∈ List.foldl _ merged _, ResponseSound item
    have hzip : ∀ e ∈ entries.zip values, ResponseSound e.2 :=
      fun e he => hvalues _ (of_mem_zip he).2
    generalize entries.zip values = zipped at hzip
    induction zipped generalizing merged with
    | nil => exact hmerged
    | cons e zipped ih =>
      apply ih
      · intro item hitem
        rcases mem_or_eq_of_mem_set hitem with hitem | rfl
        · exact hmerged item hitem
        · exact hzip e mem_cons_self
      · exact fun e he => hzip e (mem_cons_of_mem _ he)
  · intro item hitem
    rw [eq_of_mem_replicate hitem]
    trivial
  · intro merged hmerged
    exact holds_reply (allResponsesSound_iff.2 hmerged)

theorem framed_mset : c.Framed (c.dispatchCrossShardMset args) := by
  apply (safe_groupMsetPairs args).bind
  intro grouped
  apply (safe_msetOverShards grouped).bind
  intro _
  exact holds_reply (show cr ∉ ascii "OK" from cr_notMem_ascii rfl)

theorem framed_integerSum : c.Framed (c.dispatchCrossShardIntegerSum command args) := by
  apply (safe_groupKeyArgs args).bind
  intro grouped
  apply (holds_sumOverShards command grouped).bind
  intro total htotal
  exact holds_reply htotal

theorem framed_msetnx : c.Framed (c.dispatchCrossShardMsetnx args) := by
  apply (holds_crossShardExistsCount args).bind
  intro present _
  split
  · exact holds_replyInteger 0
  · apply (safe_groupMsetPairs args).bind
    intro grouped
    apply (safe_msetOverShards grouped).bind
    intro _
    exact holds_replyInteger 1

theorem framed_msetex : c.Framed (c.dispatchCrossShardMsetex args) := by
  apply (safe_parseCrossShardMsetexArgs args).bind
  intro parsed
  apply (holds_crossShardExistsCount _).bind
  intro present _
  split
  · exact holds_replyInteger 0
  split
  · exact holds_replyInteger 0
  have happlied : c.Safe ((c.groupMsetexPairs parsed).foldlM (fun _ group => do
      let bytes ← c.execute group.1 (ascii "MSETEX") group.2
      let applied ← c.parseIntegerResponse bytes
      if applied ≤ 0 then fail protocolError else done ()) ()) := by
    apply Holds.foldlM
    · intro _ group _ _
      apply holds_executeInteger
      intro applied _
      split
      · exact holds_protocolError
      · trivial
    · trivial
  apply happlied.bind
  intro _
  exact holds_replyInteger _

theorem safe_destinationTaken (destination : Bytes) :
    c.Safe (c.destinationTaken replace destination) := by
  unfold destinationTaken
  split
  · trivial
  · apply holds_executeInteger
    intro present _
    trivial

theorem framed_copy : c.Framed (c.dispatchCrossShardCopy args) := by
  apply (safe_parseCrossShardCopyArgs args).bind
  rintro ⟨source, destination, replace⟩
  apply (safe_fetchDumpPayload source _).bind
  intro fetched
  rcases fetched with _ | fetched
  · exact holds_replyInteger 0
  apply (safe_destinationTaken replace destination).bind
  intro taken
  split
  · exact holds_replyInteger 0
  · apply holds_executeOk
    exact holds_replyInteger 1

theorem framed_rename (nx : Bool) : c.Framed (c.dispatchCrossShardRename args nx) := by
  apply (safe_parseCrossShardTwoKeys args (by cases nx <;> exact cr_notMem_ascii rfl) true).bind
  rintro ⟨source, destination⟩
  apply (safe_fetchDumpPayload source _).bind
  intro fetched
  rcases fetched with _ | fetched
  · exact holds_failWith rfl
  apply (safe_destinationTaken _ destination).bind
  intro taken
  split
  · exact holds_replyInteger 0
  apply holds_executeOk
  apply holds_executeInteger
  intro deleted _
  split
  · exact holds_protocolError
  · cases nx with
    | true => exact holds_replyInteger 1
    | false => exact holds_reply (show cr ∉ ascii "OK" from cr_notMem_ascii rfl)

theorem framed_listMove : c.Framed (c.dispatchCrossShardListMove command args) := by
  apply (safe_parseCrossShardListMoveArgs command args).bind
  rintro ⟨source, destination, popCommand, pushCommand⟩
  apply (safe_ensureRemoteType _ destination _).bind
  intro _
  apply holds_execute reads_parseOptionalBytesResponse
  intro _ member _ _
  cases member with
  | none => exact holds_reply trivial
  | some member =>
    apply holds_executeInteger
    intro _ _
    exact holds_reply trivial

theorem framed_smove : c.Framed (c.dispatchCrossShardSmove args) := by
  unfold dispatchCrossShardSmove
  split
  · rename_i source destination member
    refine holds_frameBytes₂ source destination fun source destination => ?_
    apply (safe_frameBytes member).bind
    intro member
    apply (safe_ensureRemoteType _ source _).bind
    intro _
    apply (safe_ensureRemoteType _ destination _).bind
    intro _
    apply holds_executeInteger
    intro present _
    split
    · exact holds_replyInteger 0
    apply holds_executeInteger
    intro removed _
    split
    · exact holds_replyInteger 0
    · apply holds_executeInteger
      intro _ _
      exact holds_replyInteger 1
  · exact holds_failWith rfl

theorem framed_popFirst (popArgs : List Bytes) (index left : Nat) : c.Framed
    (c.popFirst command args popArgs index left) := by
  induction left generalizing index with
  | zero => exact holds_reply trivial
  | succ left ih =>
    apply (safe_parseRequiredArgBytes args index (by rfl)).bind
    intro key
    apply holds_execute reads_isNullResponse
    intro response isNull hfits _
    split
    · exact ih (index + 1)
    · -- the reply of the shard is the reply to the client
      exact ⟨response, hfits.1, rfl⟩

theorem framed_mpop (command : String) (h : oneLine wrongArity = true) (args : List Resp.Frame) :
    c.Framed (c.dispatchCrossShardMpop command (String.ofList wrongArity) args) := by
  unfold dispatchCrossShardMpop
  split
  · exact holds_failWith h
  apply (safe_parseNumkeys args 0).bind
  intro numkeys
  apply (safe_parseRequiredArgBytes args _ h).bind
  intro side
  have htrailing : ∀ start, c.Safe (trailingArgs args start) := by
    intro start
    unfold trailingArgs
    split
    · exact safe_collectFrameArgs _
    · trivial
  apply (htrailing _).bind
  intro options
  exact framed_popFirst _ args _ 1 numkeys

theorem framed_zsetTempCommand : c.Framed (c.dispatchCrossShardZsetTempCommand command args) := by
  apply (safe_collectZsetTempCommandKeys command args).bind
  rintro ⟨sourceKeys, destination⟩
  exact holds_tempStoreCommand command args sourceKeys destination

theorem safe_writeCrossShardSetResult (destination : Bytes) (members : List Bytes) :
    c.Safe (c.writeCrossShardSetResult destination members) := by
  apply Safe.bind holds_executeOnly
  intro _
  split
  · trivial
  · apply holds_executeInteger
    intro _ _
    trivial

theorem framed_setAlgebra : c.Framed (c.dispatchCrossShardSetAlgebra command args) := by
  unfold dispatchCrossShardSetAlgebra
  split
  · apply (safe_collectFrameArgs args).bind
    intro keys
    apply (safe_fetchSetSources keys).bind
    intro sets
    exact holds_reply (responseSound_rawArrayResponse _)
  split
  · apply (safe_parseCrossShardSintercardArgs args).bind
    rintro ⟨keys, limit⟩
    apply (safe_fetchSetSources keys).bind
    intro sets
    exact holds_replyInteger _
  apply (safe_parseCrossShardSetStoreArgs command args).bind
  rintro ⟨destination, sources⟩
  apply (safe_fetchSetSources sources).bind
  intro sets
  apply (safe_writeCrossShardSetResult destination _).bind
  intro _
  exact holds_replyInteger _

theorem framed_globalKeys : c.Framed (c.dispatchGlobalKeys args) := by
  apply (safe_parseRequiredArgBytes args 0 (by rfl)).bind
  intro pattern
  split
  · exact holds_failWith rfl
  · apply (safe_fetchAllKeysMatching pattern).bind
    intro keys
    exact holds_reply (responseSound_rawArrayResponse keys)

theorem framed_globalRandomkey : c.Framed (c.dispatchGlobalRandomkey args) := by
  unfold dispatchGlobalRandomkey
  split
  · exact holds_failWith rfl
  apply (safe_fetchAllKeysMatching _).bind
  intro keys
  have hindex : c.Safe (randomIndex keys.length) :=
    fun _ _ => ⟨fun _ => trivial, fun hbad => absurd trivial hbad⟩
  apply hindex.bind
  intro index
  split
  · exact holds_reply trivial
  rename_i key _
  have htouch : c.Safe (c.touchKey key) := by
    unfold touchKey
    split
    · trivial
    · exact holds_executeOnly
  apply htouch.bind
  intro _
  exact holds_reply trivial

theorem safe_gatherKeys (pattern typeFilter : Option Bytes) :
    c.Safe (c.gatherKeys pattern typeFilter) := by
  apply (safe_fetchAllKeysMatching _).bind
  intro keys
  have hfilter : c.Safe (c.filterKeys keys typeFilter) := by
    unfold filterKeys
    split
    · exact safe_filterKeysByType keys _
    · trivial
  apply hfilter.bind
  intro keys
  trivial

theorem framed_globalScan : c.Framed (c.dispatchGlobalScan args) := by
  have hscan : c.Safe (c.globalScan args) := by
    apply (safe_parseGlobalScanArgs args).bind
    intro parsed
    split
    · trivial
    · apply (safe_gatherKeys _ _).bind
      intro keys
      trivial
  apply hscan.bind
  intro page
  exact holds_reply ⟨trivial, responseSound_rawArrayResponse _, trivial⟩

theorem framed_globalSort : c.Framed (c.dispatchGlobalSortCommand command args) := by
  apply (safe_fetchAllKeysMatching _).bind
  intro sourceKeys
  apply (safe_findOptionDestination _ args).bind
  intro destination
  exact holds_tempStoreCommand command args sourceKeys destination

theorem framed_tempStoreCommand {sourceKeys : Routed (List Bytes)}
    {destination : Routed (Option Bytes)} (hkeys : c.Safe sourceKeys)
    (hdestination : c.Safe destination) : c.Framed
    (c.tempStoreCommand command args sourceKeys destination) := by
  apply Safe.bind hkeys
  intro keys
  apply Safe.bind hdestination
  intro destination
  exact holds_tempStoreCommand command args keys destination

theorem safe_requiredDestination (h : oneLine wrongArity = true) :
    c.Safe (requiredDestination args index (String.ofList wrongArity)) := by
  apply (safe_parseRequiredArgBytes args index h).bind
  intro destination
  trivial

/-! ## Dispatch -/

variable {command args} {plan : Routed Bytes}

/-- A table of commands: the first one is framed, and so are the others. -/
theorem framed_ite {p : Prop} [Decidable p] {first : Routed Bytes} {others : Option (Routed Bytes)}
    (hfirst : c.Framed first) (hothers : others = some plan → c.Framed plan) :
    (if p then some first else others) = some plan → c.Framed plan := by
  split
  · rintro ⟨⟩
    exact hfirst
  · exact hothers

theorem framed_special :
    c.dispatchGlobalOrSpecialMultiShardCommand command args = some plan → c.Framed plan := by
  unfold dispatchGlobalOrSpecialMultiShardCommand
  apply framed_ite (framed_globalKeys args)
  apply framed_ite (framed_globalScan args)
  apply framed_ite (framed_globalRandomkey args)
  apply framed_ite (framed_globalSort command args)
  apply framed_ite (framed_tempStoreCommand command args (safe_collectFrameArgs _)
    (safe_requiredDestination args 0 rfl))
  apply framed_ite (framed_tempStoreCommand command args (safe_collectFrameArgs _)
    (safe_findOptionDestination _ args))
  rintro ⟨⟩

theorem framed_multiKey :
    c.dispatchCrossShardMultiKeyCommand command args = some plan → c.Framed plan := by
  unfold dispatchCrossShardMultiKeyCommand
  apply framed_ite (framed_mget args)
  apply framed_ite (framed_mset args)
  apply framed_ite (framed_msetnx args)
  apply framed_ite (framed_msetex args)
  apply framed_ite (framed_tempStoreCommand command args (safe_collectBitopSourceKeys args)
    (safe_requiredDestination args 1 rfl))
  apply framed_ite (framed_tempStoreCommand command args (safe_collectFrameArgs _) (by trivial))
  apply framed_ite (framed_tempStoreCommand command args (safe_collectFrameArgs args) (by trivial))
  apply framed_ite (framed_tempStoreCommand command args (safe_collectFrameArgs args)
    (safe_requiredDestination args 0 rfl))
  apply framed_ite (framed_copy args)
  apply framed_ite (framed_rename args false)
  apply framed_ite (framed_rename args true)
  apply framed_ite (framed_listMove command args)
  apply framed_ite (framed_smove args)
  apply framed_ite (framed_mpop "LMPOP" (by rfl) args)
  apply framed_ite (framed_mpop "ZMPOP" (by rfl) args)
  apply framed_ite (framed_setAlgebra command args)
  apply framed_ite (framed_zsetTempCommand command args)
  apply framed_ite (framed_integerSum command args)
  rintro ⟨⟩

/-! ## What the client receives -/

/-- The bytes that are written to the client, of a result or of an error. -/
def written : Option (Except Bytes Bytes) → Option Bytes
  | some (.ok bytes) | some (.error bytes) => some bytes
  | none => none

/-- **Every plan writes exactly one frame**, whatever the shards answer, unless one of them answers
a sub-command whose reply is read with an error: its text is written as it is. (A text with a
carriage return is not recognized, and answered with a frame.) An error message is one frame unless
its text has a carriage return; that is how an error of the temporary store fails to be one. -/
theorem cross_shard_replies_framed (c : Coordinator) {σ : Type}
    (step : (request : Request) → σ → request.Answer × σ)
    (hsound : ∀ request s, c.AnswerSound request (step request s).1) (command : Bytes)
    (args : List Resp.Frame) (plan : Routed Bytes)
    (hplan : c.dispatchGlobalOrSpecialMultiShardCommand command args = some plan ∨
      c.dispatchCrossShardMultiKeyCommand command args = some plan) (s : σ)
    (hfits : ∀ bytes, written (plan.run step s).1 = some bytes → bytes.length < 2 ^ 63) :
    (∃ bytes, written (plan.run step s).1 = some bytes ∧ (OneFrame c.std bytes ↔
        ∀ exchange ∈ plan.trace step s, AnswerClean exchange.1 exchange.2)) ∧
      ∀ text, OneFrame c.std (errorMessage text) ↔ cr ∉ text := by
  refine ⟨?_, fun text => oneFrame_errorMessage⟩
  have hframed : c.Framed plan := hplan.elim framed_special framed_multiKey
  rcases hframed.run hsound s with ⟨hclean, ⟨bytes, hrun, hserialized⟩ | ⟨e, hrun, hgood⟩⟩ |
    ⟨hunclean, e, hrun, hbad⟩
  · obtain ⟨response, hresponse, rfl⟩ := hserialized
    refine ⟨_, by rw [hrun]; rfl, iff_of_true ?_ hclean⟩
    exact oneFrame_serializeResponse hresponse (hfits _ (by rw [hrun]; rfl))
  · obtain ⟨text, htext, rfl⟩ := hgood
    exact ⟨_, by rw [hrun]; rfl, iff_of_true (oneFrame_errorMessage.2 htext) hclean⟩
  · exact ⟨e, by rw [hrun]; rfl, iff_of_false hbad hunclean⟩

/-- Every key is a set with one member, except that `b` is a string if `stray` says so. -/
def members (stray : Bool) : (request : Request) → Unit → request.Answer × Unit
  | .execute _ _ args, s =>
    if stray ∧ args = [ascii "b"] then
      (.error (ascii "WRONGTYPE Operation against a key holding the wrong kind of value"), s)
    else (.response (.array [.value (some (.raw (ascii "x")))]), s)
  | .discard _ _ _, s => (.timeout, s)
  | .tempNew, s => ((), s)
  | .tempDispatch _ _, s => (.error [], s)
  | .tempEntry _, s => (none, s)
  | .randomIndex _, s => ((0 : Nat), s)

theorem answerSound_members (stray : Bool) (request : Request) (s : Unit) :
    pair.AnswerSound request (members stray request s).1 := by
  cases request with
  | execute shard command args =>
    simp only [members]
    split
    · trivial
    · exact ⟨⟨trivial, trivial⟩, by decide +kernel⟩
  | _ => trivial

/-- A union of two sets on two shards is answered with one frame. -/
theorem cross_shard_replies_framed_union :
    ∃ bytes, written ((pair.dispatchCrossShardSetAlgebra (ascii "SUNION")
        [.bulkString (ascii "a"), .bulkString (ascii "b")]).run (members false) ()).1 = some bytes ∧
      OneFrame pair.std bytes := by
  obtain ⟨⟨bytes, hwritten, hiff⟩, -⟩ := cross_shard_replies_framed pair (members false)
    (answerSound_members false) (ascii "SUNION")
    [.bulkString (ascii "a"), .bulkString (ascii "b")] _
    (.inr rfl) () (by decide +kernel)
  refine ⟨bytes, hwritten, hiff.2 ?_⟩
  decide +kernel

/-- If one of the two keys is a string, its error reaches the client without a frame. -/
theorem cross_shard_replies_framed_fails :
    ¬ ((∀ (c : Coordinator) (step : (request : Request) → Unit → request.Answer × Unit),
        (∀ request s, c.AnswerSound request (step request s).1) →
          ∀ (command : Bytes) (args : List Resp.Frame) (plan : Routed Bytes),
            c.dispatchCrossShardMultiKeyCommand command args = some plan →
            (∀ bytes, written (plan.run step ()).1 = some bytes → bytes.length < 2 ^ 63) →
              ∃ bytes, written (plan.run step ()).1 = some bytes ∧ OneFrame c.std bytes) ∧
      ∀ (std : FloatStd) (text : Bytes), OneFrame std (errorMessage text)) := by
  rintro ⟨h, -⟩
  have hrun : written ((pair.dispatchCrossShardSetAlgebra (ascii "SUNION")
      [.bulkString (ascii "a"), .bulkString (ascii "b")]).run (members true) ()).1 =
        some (ascii "WRONGTYPE Operation against a key holding the wrong kind of value") := by
    decide +kernel
  obtain ⟨bytes, hwritten, hframe⟩ := h pair (members true) (answerSound_members true)
    (ascii "SUNION") [.bulkString (ascii "a"), .bulkString (ascii "b")] _ rfl (by
      intro bytes hbytes
      cases hrun.symm.trans hbytes
      decide)
  cases hrun.symm.trans hwritten
  exact not_oneFrame_of_notMem (cr_notMem_ascii rfl) hframe

end Coordinator

end Senko.Net
