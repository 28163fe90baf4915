import Senko.Core.ZSet.Order
import Senko.Net.OneFrame
import Senko.Store.KeyCommands

/-!
# Senko — SCAN over several shards

With more than one shard the cursor of a scan is a position in a list of keys that every call
gathers and sorts anew. A key keeps its place in the list as long as the keys before it do. If
enough of them are deleted between two calls, the key moves to a position that the cursor has
passed, and is missed.
-/

namespace Senko

theorem globMatch_star (text : Bytes) : globMatch (ascii "*") text = true := by
  have hwild : hasWildcards (ascii "*") = true := by decide
  have hstar : ascii "*" = [0x2a] := by decide
  rw [globMatch, if_pos hwild, hstar, globMatchImpl, List.any_eq_true]
  refine ⟨text.length, List.mem_range.2 (Nat.lt_succ_self _), ?_⟩
  rw [List.drop_length, globMatchImpl]
  rfl

end Senko

namespace Senko.Net

open Resp Plan List Function

/-! ## Shards that serve a scan -/

/-- The stores of the shards. -/
abbrev Shards := Nat → Store

def errorText : SenkoError → Bytes
  | .protocol message | .protocolMessage message | .storage message => ascii message
  | .wrongType _ _ => ascii "WRONGTYPE Operation against a key holding the wrong kind of value"

/-- The sub-commands of a scan. -/
def scanCommand (env : Env) (now : Nat) (command : Bytes) :
    Option (List Frame → Command Response) :=
  if isOpt command "KEYS" then some (keys fun _ => now)
  else if isOpt command "TYPE" then some (typeCmd env fun _ => now)
  else none

def executeOn (env : Env) (now : Nat) (shards : Shards) (shard : Nat) (command : Bytes)
    (args : List Bytes) : Reply × Shards :=
  match scanCommand env now command with
  | none => (.timeout, shards)
  | some run =>
    match run (args.map .bulkString) (shards shard) with
    | none => (.timeout, shards)
    | some (.error e, s) =>
      (.error (errorMessageText (errorText e)), Function.update shards shard s)
    | some (.ok response, s) => (.response response, Function.update shards shard s)

/-- The shards answer a call that happens at one time. -/
def serve (env : Env) (now : Nat) : (request : Request) → Shards → request.Answer × Shards
  | .execute shard command args, shards => executeOn env now shards shard command args
  | .discard shard command args, shards => executeOn env now shards shard command args
  | .tempNew, shards => ((), shards)
  | .tempDispatch _ _, shards => (.error [], shards)
  | .tempEntry _, shards => (none, shards)
  | .randomIndex _, shards => ((0 : Nat), shards)

variable {v : Visit} {shards' : Shards}

namespace Coordinator

variable (env : Env) (c : Coordinator)

/-! ## Runs -/

/-- A call of `SCAN` with its options, and what happens on the shards before the next one. -/
structure ScanCall where
  options : List Resp.Frame
  now : Nat
  between : Nat → List StoreOp := fun _ => []

/-- The shards and the cursor at a call. -/
structure Visit where
  shards : Shards
  cursor : Nat
  call : ScanCall

/-- What a call returns, and the shards before the next call. -/
def visit (v : Visit) : Option ((Nat × List Bytes) × Shards) :=
  match (c.globalScan (.bulkString (toDecimal v.cursor) :: v.call.options)).run
      (serve env v.call.now) v.shards with
  | (some (.ok page), shards) =>
    some (page, fun shard => StoreOp.run env (shards shard) (v.call.between shard))
  | _ => none

/-- A run of calls, each with the cursor that the last one returned, until one returns 0: the keys
that were returned, and if the run came to its end. -/
def scanRun : Shards → Nat → List ScanCall → List Bytes × Bool
  | _, _, [] => ([], false)
  | shards, cursor, call :: calls =>
    match c.visit env ⟨shards, cursor, call⟩ with
    | none => ([], false)
    | some ((next, keys), shards) =>
      if next = 0 then (keys, true)
      else (keys ++ (scanRun shards next calls).1, (scanRun shards next calls).2)

/-- The calls of a run that take place. -/
def visits : Shards → Nat → List ScanCall → List Visit
  | _, _, [] => []
  | shards, cursor, call :: calls =>
    ⟨shards, cursor, call⟩ ::
      match c.visit env ⟨shards, cursor, call⟩ with
      | none => []
      | some ((next, _), shards) => if next = 0 then [] else visits shards next calls

/-! ## What a call sees -/

variable (filter : ScanFilter) (shards : Shards) (now : Nat)

/-- What `TYPE` answers. -/
def typeAt (key : Bytes) : Bytes :=
  ascii ((((shards (c.shardForKey key)).live now key).map fun e => e.value.typeName).getD "none")

def typePasses (name : Bytes) : Bool :=
  filter.typeFilter.all fun typeFilter =>
    name.map toAsciiLowercase = typeFilter.map toAsciiLowercase

/-- The keys on all shards that pass the filters. -/
def matchingKeys : List Bytes :=
  ((List.range c.numShards).flatMap fun shard =>
    (shards shard).keysMatching now (filter.pattern.getD (ascii "*"))).filter fun key =>
      typePasses filter (c.typeAt shards now key)

/-- How many of them sort before a key. -/
def before (key : Bytes) : Nat :=
  (c.matchingKeys filter shards now).countP fun other => compareBytes other key = .lt

variable (key : CompactString)

/-- The key is there and passes the filters, the call asks for them, and the replies of the shards
fit in memory. -/
structure PresentAt (v : Visit) : Prop where
  options : ∃ count, parseScanOptions v.call.options { cursor := v.cursor } =
    done { cursor := v.cursor, pattern := filter.pattern, count, typeFilter := filter.typeFilter }
  live : ∃ e, (v.shards (c.shardForKey key.bytes)).live v.call.now key.bytes = some e ∧
    filter.passes key e.value.typeName = true
  fits : ∀ shard, c.Fits (rawArrayResponse
    ((v.shards shard).keysMatching v.call.now (filter.pattern.getD (ascii "*"))))

/-- **What happens between two calls leaves the key ahead of the cursor**: if so many matching keys
sorted before it, they still do. -/
def KeepsAhead (v w : Visit) : Prop :=
  w.cursor ≤ c.before filter v.shards v.call.now key.bytes →
    w.cursor ≤ c.before filter w.shards w.call.now key.bytes

/-! ## One call -/

section Call

variable {env c filter shards now key}

theorem runs_execute {shard : Nat} {command : Bytes} {args : List Bytes} {response : Response}
    (h : executeOn env now shards shard command args = (.response response, shards')) :
    (c.execute shard command args).Runs (serve env now) shards
      (serializeResponse c.std c.resp3 response) shards' := by
  have hanswer :
      serve env now (.execute shard command args) shards = (.response response, shards') :=
    h
  unfold Runs execute
  rw [run, hanswer]
  rfl

theorem executeOn_keys (shard : Nat) (pattern : Bytes) :
    executeOn env now shards shard (ascii "KEYS") [pattern] =
      (.response (rawArrayResponse ((shards shard).keysMatching now pattern)), shards) := by
  have hcommand : scanCommand env now (ascii "KEYS") = some (keys fun _ => now) :=
    if_pos (by decide)
  rw [executeOn, hcommand]
  show (_, update shards shard (shards shard)) = _
  rw [update_eq_self]
  rfl

theorem executeOn_type (key : Bytes) :
    executeOn env now shards (c.shardForKey key) (ascii "TYPE") [key] =
      (.response (.simple (c.typeAt shards now key)), update shards (c.shardForKey key)
          ((shards (c.shardForKey key)).typeName env now key).1) := by
  have hcommand : scanCommand env now (ascii "TYPE") = some (typeCmd env fun _ => now) := by
    rw [scanCommand, if_neg (by decide), if_pos (by decide)]
  have hname : ((shards (c.shardForKey key)).typeName env now key).2 = _ := Store.typeName_snd
  rw [executeOn, hcommand, typeAt, ← hname]
  rfl

variable (c shards now) in
/-- The keys on all shards that match a pattern. -/
def allKeys (pattern : Bytes) : List Bytes :=
  (List.range c.numShards).flatMap fun shard => (shards shard).keysMatching now pattern

theorem runs_fetchAllKeysMatching {pattern : Bytes}
    (hfits : ∀ shard, c.Fits (rawArrayResponse ((shards shard).keysMatching now pattern))) :
    (c.fetchAllKeysMatching pattern).Runs (serve env now) shards (c.allKeys shards now pattern)
      shards := by
  have hloop : ∃ shards', (c.fetchAllKeysMatching pattern).Runs (serve env now) shards
      (c.allKeys shards now pattern) shards' ∧ shards' = shards := by
    refine Runs.foldlM (g := flatMap _) (P := (· = shards))
      (fun before shard shards' heq => ⟨shards, ?_, rfl⟩) _ rfl
    unfold Runs
    rw [heq, (runs_execute (executeOn_keys shard pattern)).bind,
      parseBulkArrayResponse_raw (hfits shard), flatMap_append, flatMap_singleton]
    rfl
  obtain ⟨_, hrun, rfl⟩ := hloop
  exact hrun

/-- The same keys are live. -/
def SameLive (now : Nat) (base shards : Shards) : Prop :=
  ∀ shard key, (shards shard).live now key = (base shard).live now key

theorem fits_typeAt (base : Shards) (key : Bytes) : c.Fits (.simple (c.typeAt base now key)) := by
  have hfits : ∀ name : String, cr ∉ ascii name → (ascii name).length ≤ 12 →
      c.Fits (.simple (ascii name)) := by
    intro name hname hlength
    refine ⟨hname, ?_⟩
    show (writeSimpleString (ascii name)).length < 2 ^ 63
    rw [writeSimpleString, length_cons, length_append, length_crlf]
    omega
  rw [typeAt]
  rcases (base (c.shardForKey key)).live now key with _ | e
  · exact hfits "none" (cr_notMem_ascii rfl) (by decide)
  show c.Fits (.simple (ascii e.value.typeName))
  cases e.value with
  | object kind contents =>
    cases kind <;> exact hfits _ (cr_notMem_ascii rfl) (by simp [ascii, SenkoValue.typeName])
  | _ => exact hfits _ (cr_notMem_ascii rfl) (by simp [ascii, SenkoValue.typeName])

/-- Asking for the types changes no live key. -/
theorem runs_filterKeysByType {typeFilter : Bytes} (base : Shards) (keys : List Bytes)
    (hsame : SameLive now base shards) :
    ∃ shards', (c.filterKeysByType keys typeFilter).Runs (serve env now) shards
      (keys.filter fun key =>
        (c.typeAt base now key).map toAsciiLowercase = typeFilter.map toAsciiLowercase)
      shards' ∧ SameLive now base shards' := by
  refine Runs.foldlM (g := List.filter _) (fun before key shards hsame => ?_) keys hsame
  have hname : c.typeAt shards now key = c.typeAt base now key := by
    rw [typeAt, typeAt, hsame]
  refine ⟨update shards (c.shardForKey key)
    ((shards (c.shardForKey key)).typeName env now key).1, ?_, fun shard other => ?_⟩
  · unfold Runs
    rw [(runs_execute (executeOn_type key)).bind, hname,
      parseTypeNameResponse_simple (fits_typeAt base key), done_bind, filter_append,
      filter_singleton]
    by_cases hpasses :
        (c.typeAt base now key).map toAsciiLowercase = typeFilter.map toAsciiLowercase
    · rw [if_pos hpasses, decide_eq_true hpasses]
      rfl
    · rw [if_neg hpasses, decide_eq_false hpasses, cond_false, append_nil]
      rfl
  · by_cases hshard : shard = c.shardForKey key
    · subst hshard
      rw [update_self, Store.live_typeName, hsame]
    · rw [update_of_ne hshard, hsame]

/-- A count of zero is read as one. -/
theorem one_le_count : ∀ (args : List Resp.Frame) {parsed parsed' : GlobalScanArgs},
    parseScanOptions args parsed = done parsed' → 1 ≤ parsed.count → 1 ≤ parsed'.count
  | [], _, _, h, hcount => by
    cases h
    exact hcount
  | [arg], parsed, parsed', h, hcount => by
    obtain ⟨token, -, h⟩ := bind_eq_done h
    -- every option lacks its value
    split at h
    · cases h
    · split at h
      · cases h
      · split at h <;> cases h
  | arg :: value :: rest, parsed, parsed', h, hcount => by
    obtain ⟨token, -, h⟩ := bind_eq_done h
    split at h
    · obtain ⟨pattern, -, h⟩ := bind_eq_done h
      exact one_le_count rest h hcount
    split at h
    · obtain ⟨raw, -, h⟩ := bind_eq_done h
      obtain ⟨count, -, h⟩ := bind_eq_done h
      exact one_le_count rest h (le_max_right _ _)
    · split at h
      · obtain ⟨typeFilter, -, h⟩ := bind_eq_done h
        exact one_le_count rest h hcount
      · cases h

theorem parseU64_toDecimal (n : Nat) :
    parseU64 (toDecimal n) = if n ≤ u64Max then some n else none := by
  have hdigits := parseDigits_toDecimal n
  have hmem : ∀ b ∈ toDecimal n, b ≠ 0x2b := by
    rintro b hb rfl
    exact absurd (isDigit_of_mem_toDecimal hb) (by decide)
  rcases htext : toDecimal n with _ | ⟨b, ds⟩
  · rw [htext] at hdigits
    cases hdigits
  have hb : b ≠ 0x2b := hmem b (by rw [htext]; exact mem_cons_self)
  rw [htext] at hdigits
  rw [parseU64, if_neg hb, hdigits]
  rfl

theorem isScanTypeFilter_of_passes {name : String} (h : filter.passes key name = true) :
    (filter.typeFilter.any fun typeFilter => !isScanTypeFilter typeFilter) = false ∧
      typePasses filter (ascii name) = true ∧
        globMatch (filter.pattern.getD (ascii "*")) key.bytes = true := by
  obtain ⟨htype, hpattern⟩ := Bool.and_eq_true_iff.1 h
  have hglob : globMatch (filter.pattern.getD (ascii "*")) key.bytes = true := by
    cases hfilter : filter.pattern with
    | none => exact globMatch_star _
    | some pattern =>
      rw [hfilter] at hpattern
      exact hpattern
  unfold typePasses
  rcases hfilter : filter.typeFilter with _ | typeFilter
  · exact ⟨rfl, rfl, hglob⟩
  rw [hfilter] at htype
  obtain ⟨expected, hfind, hexpected⟩ := (Option.any_eq_true _ _).1 htype
  have hopt : isOpt typeFilter expected = true := find?_some hfind
  have hany : isScanTypeFilter typeFilter = true :=
    any_eq_true.2 ⟨expected, mem_of_find?_eq_some hfind, hopt⟩
  obtain rfl : name = expected := by simpa using hexpected
  have hlower : typeFilter.map toAsciiLowercase = (ascii name).map toAsciiLowercase := by
    simpa [isOpt] using hopt
  exact ⟨by simp [hany], by simp [hlower], hglob⟩

/-- The keys that a call gathers. Only asking for the types touches the shards. -/
theorem runs_gatherKeys (hfits : ∀ shard, c.Fits (rawArrayResponse
      ((shards shard).keysMatching now (filter.pattern.getD (ascii "*"))))) :
    ∃ shards', (c.gatherKeys filter.pattern filter.typeFilter).Runs (serve env now) shards
        ((c.matchingKeys filter shards now).insertionSort fun left right =>
          compareBytes left right ≠ .gt) shards' ∧
      (filter.typeFilter = none → shards' = shards) := by
  unfold gatherKeys Runs
  rw [(runs_fetchAllKeysMatching hfits).bind]
  cases hfilter : filter.typeFilter with
  | none =>
    refine ⟨shards, ?_, fun _ => rfl⟩
    have hall : c.matchingKeys filter shards now =
        c.allKeys shards now (filter.pattern.getD (ascii "*")) := by
      rw [matchingKeys, allKeys, filter_eq_self]
      intro other _
      rw [typePasses, hfilter]
      rfl
    rw [hall]
    rfl
  | some typeFilter =>
    have hrun : ∃ shards', (c.filterKeysByType (c.allKeys shards now
        (filter.pattern.getD (ascii "*"))) typeFilter).Runs (serve env now) shards _ shards' ∧ _ :=
      runs_filterKeysByType shards _ fun _ _ => rfl
    obtain ⟨shards', hrun, -⟩ := hrun
    refine ⟨shards', ?_, fun h => absurd h (by simp)⟩
    show Plan.run _ (c.filterKeysByType _ typeFilter >>= _) _ = _
    rw [hrun.bind, matchingKeys]
    simp only [typePasses, hfilter]
    rfl

/-- **What a call returns**: a page of the sorted list of the matching keys. -/
theorem visit_eq {count : Nat}
    (hvalid : (filter.typeFilter.any fun typeFilter => !isScanTypeFilter typeFilter) = false)
    (hfits : ∀ shard, c.Fits (rawArrayResponse
      ((v.shards shard).keysMatching v.call.now (filter.pattern.getD (ascii "*")))))
    (hoptions : parseScanOptions v.call.options { cursor := v.cursor } =
      done
        { cursor := v.cursor, pattern := filter.pattern, count, typeFilter := filter.typeFilter })
    (hcursor : v.cursor ≤ u64Max) : ∃ shards', c.visit env v =
        some (scanPage ((c.matchingKeys filter v.shards v.call.now).insertionSort fun left right =>
            compareBytes left right ≠ .gt) v.cursor count,
          fun shard => StoreOp.run env (shards' shard) (v.call.between shard)) ∧
      (filter.typeFilter = none → shards' = v.shards) := by
  have hparse : parseGlobalScanArgs (.bulkString (toDecimal v.cursor) :: v.call.options) =
      done ⟨v.cursor, filter.pattern, count, filter.typeFilter⟩ := by
    show (parseUsizeBytes (toDecimal v.cursor) _ >>= _) = _
    rw [parseUsizeBytes, parseU64_toDecimal, if_pos hcursor]
    exact hoptions
  have hgather : ∃ shards', (c.gatherKeys filter.pattern filter.typeFilter).Runs
      (serve env v.call.now) v.shards _ shards' ∧ _ := runs_gatherKeys hfits
  obtain ⟨shards', hgather, hsame⟩ := hgather
  refine ⟨shards', ?_, hsame⟩
  rw [visit, globalScan, hparse, done_bind]
  rw [if_neg (by rw [hvalid]; decide), hgather.bind]
  rfl

/-- The order of byte strings. -/
theorem compareBytes_ne_gt {left right : Bytes} :
    compareBytes left right ≠ .gt ↔ left.map UInt8.toNat ≤ right.map UInt8.toNat := by
  rw [compareBytes_eq_cmp]
  convert (cmp_eq_gt_iff _ _).not.trans not_lt
  rfl

/-- In the sorted list of the matching keys a key stands at the position that counts the keys before
it. -/
theorem exists_split_sorted {other : Bytes} (hmem : other ∈ c.matchingKeys filter shards now) :
    ∃ pre post, ((c.matchingKeys filter shards now).insertionSort fun left right =>
        compareBytes left right ≠ .gt) = pre ++ other :: post ∧
      pre.length = c.before filter shards now other := by
  generalize hkeys : c.matchingKeys filter shards now = keys at hmem
  have htotal : Std.Total fun left right : Bytes => compareBytes left right ≠ .gt :=
    ⟨fun left right => by simpa only [compareBytes_ne_gt] using le_total _ _⟩
  have htrans : IsTrans Bytes fun left right => compareBytes left right ≠ .gt :=
    ⟨fun left middle right => by simpa only [compareBytes_ne_gt] using le_trans⟩
  have hsorted := pairwise_insertionSort
    (fun left right : Bytes => compareBytes left right ≠ .gt) keys
  have hperm := perm_insertionSort
    (fun left right : Bytes => compareBytes left right ≠ .gt) keys
  obtain ⟨post, hpost⟩ := exists_eq_filter_append_cons map_toNat_injective
    (hsorted.imp fun h => compareBytes_ne_gt.1 h) (hperm.mem_iff.2 hmem)
  refine ⟨_, post, hpost, ?_⟩
  rw [before, hkeys, ← hperm.countP_eq, countP_eq_length_filter]
  congr 1
  apply filter_congr
  intro a _
  rw [decide_eq_decide, compareBytes_eq_cmp]
  convert (cmp_eq_lt_iff _ _).symm
  rfl

theorem mem_matchingKeys (hshards : 2 ≤ c.numShards) (h : c.PresentAt filter key v) :
    key.bytes ∈ c.matchingKeys filter v.shards v.call.now := by
  obtain ⟨e, hlive, hpasses⟩ := h.live
  obtain ⟨-, htype, hglob⟩ := isScanTypeFilter_of_passes hpasses
  have hshard : c.shardForKey key.bytes < c.numShards := by
    have hlt := Nat.mod_lt (Cluster.crc16Slot key.bytes) (show 0 < max c.numShards 1 by omega)
    unfold shardForKey
    omega
  refine mem_filter.2 ⟨mem_flatMap.2 ⟨_, mem_range.2 hshard, ?_⟩, ?_⟩
  · exact Store.mem_keysMatching.2 ⟨by rw [hlive]; rfl, hglob⟩
  · rw [typeAt, hlive]
    exact htype

theorem visit_eq_none (h : u64Max < v.cursor) : c.visit env v = none := by
  have hparse : parseU64 (toDecimal v.cursor) = none := by
    rw [parseU64_toDecimal, if_neg (by omega)]
  have hargs : parseGlobalScanArgs (.bulkString (toDecimal v.cursor) :: v.call.options) =
      failWith "ERR invalid cursor" := by
    show (parseUsizeBytes (toDecimal v.cursor) _ >>= _) = _
    rw [parseUsizeBytes, hparse]
    rfl
  rw [visit, globalScan, hargs]
  rfl

/-- **One call**: a key that the cursor has not passed is returned, or the next cursor has not
passed it either. -/
theorem visit_step (hshards : 2 ≤ c.numShards) (h : c.PresentAt filter key v)
    (hahead : v.cursor ≤ c.before filter v.shards v.call.now key.bytes) {next : Nat}
    {keys : List Bytes} (hvisit : c.visit env v = some ((next, keys), shards')) :
    key.bytes ∈ keys ∨ next ≠ 0 ∧ next ≤ c.before filter v.shards v.call.now key.bytes := by
  obtain ⟨count, hoptions⟩ := h.options
  have hcount : 1 ≤ count := one_le_count v.call.options hoptions (by norm_num)
  have hcursor : v.cursor ≤ u64Max := by
    by_contra hlarge
    rw [visit_eq_none (by omega)] at hvisit
    cases hvisit
  obtain ⟨e, -, hpasses⟩ := h.live
  obtain ⟨hvalid, -, -⟩ := isScanTypeFilter_of_passes hpasses
  have hpage : ∃ shards'', c.visit env v = some (_, _) ∧ _ :=
    visit_eq hvalid h.fits hoptions hcursor
  obtain ⟨shards'', hpage, -⟩ := hpage
  obtain ⟨pre, post, hsorted, hpre⟩ := exists_split_sorted (mem_matchingKeys hshards h)
  rw [hpage, hsorted] at hvisit
  rw [← hpre] at hahead ⊢
  have hlength : (pre ++ key.bytes :: post).length = pre.length + (post.length + 1) := by
    rw [length_append, length_cons]
  have hslice : scanPage (pre ++ key.bytes :: post) v.cursor count =
      (if (pre ++ key.bytes :: post).length ≤
        min (v.cursor + count) (pre ++ key.bytes :: post).length
        then 0 else min (v.cursor + count) (pre ++ key.bytes :: post).length,
        ((pre ++ key.bytes :: post).take (min (v.cursor + count)
          (pre ++ key.bytes :: post).length)).drop v.cursor) := if_neg (by omega)
  rw [hslice] at hvisit
  obtain ⟨⟨rfl, rfl⟩, -⟩ : (_ = next ∧ _ = keys) ∧ _ = shards' := by simpa using hvisit
  by_cases hlast : pre.length < min (v.cursor + count) (pre.length + (post.length + 1))
  · exact .inl (mem_drop_take hahead hlast)
  · right
    rw [if_neg (by omega)]
    omega

end Call

/-! ## Whole runs -/

variable {env c filter key}

theorem cursor_of_mem_head? {calls : List ScanCall} {cursor : Nat}
    (h : v ∈ (c.visits env shards cursor calls).head?) : v.cursor = cursor := by
  cases calls with
  | nil => cases h
  | cons call calls =>
    cases h
    rfl

/-- A key that the cursor has not passed is returned before the run ends. Induction on the calls. -/
theorem mem_scanRun (hshards : 2 ≤ c.numShards) (shards : Shards) (cursor : Nat)
    (calls : List ScanCall) (hcomplete : (c.scanRun env shards cursor calls).2 = true)
    (hpresent : ∀ v ∈ c.visits env shards cursor calls, c.PresentAt filter key v)
    (hkeeps : (c.visits env shards cursor calls).IsChain (c.KeepsAhead filter key))
    (hahead : ∀ v ∈ (c.visits env shards cursor calls).head?,
      v.cursor ≤ c.before filter v.shards v.call.now key.bytes) :
    key.bytes ∈ (c.scanRun env shards cursor calls).1 := by
  induction calls generalizing shards cursor with
  | nil => cases hcomplete
  | cons call calls ih =>
    rw [scanRun] at hcomplete ⊢
    rw [visits] at hpresent hkeeps hahead
    rcases hvisit : c.visit env ⟨shards, cursor, call⟩ with _ | result
    · rw [hvisit] at hcomplete
      cases hcomplete
    obtain ⟨⟨next, keys⟩, shards'⟩ := result
    rw [hvisit] at hcomplete hpresent hkeeps
    dsimp only at hcomplete hpresent hkeeps ⊢
    rcases visit_step hshards (hpresent _ mem_cons_self) (hahead _ rfl) hvisit with
      hfound | ⟨hne, hnext⟩
    · split
      · exact hfound
      · exact mem_append_left _ hfound
    rw [if_neg hne] at hcomplete hpresent hkeeps ⊢
    obtain ⟨hfirst, hkeeps⟩ := isChain_cons.1 hkeeps
    apply mem_append_right
    apply ih shards' next hcomplete (fun v hv => hpresent v (mem_cons_of_mem _ hv)) hkeeps
    intro w hw
    apply hfirst w hw
    rw [cursor_of_mem_head? shards' hw]
    exact hnext

/-- **A complete scan returns every key that stays**, over any number of shards: in a run of `SCAN`
calls from cursor 0 until 0 comes back, with any operations on any shard between them, a key that is
there and passes the filters at every call is returned, unless the number of matching keys that sort
before it drops below the cursor between two calls. -/
theorem multi_shard_scan_complete (env : Env) (c : Coordinator) (hshards : 2 ≤ c.numShards)
    (filter : ScanFilter) (key : CompactString) (shards : Shards) (calls : List ScanCall)
    (hcomplete : (c.scanRun env shards 0 calls).2 = true)
    (hpresent : ∀ v ∈ c.visits env shards 0 calls, c.PresentAt filter key v)
    (hkeeps : (c.visits env shards 0 calls).IsChain (c.KeepsAhead filter key)) :
    key.bytes ∈ (c.scanRun env shards 0 calls).1 := by
  apply mem_scanRun hshards shards 0 calls hcomplete hpresent hkeeps
  intro v hv
  rw [cursor_of_mem_head? shards hv]
  exact Nat.zero_le _

/-! ### Three keys on two shards -/

section ThreeKeys

/-- The keys `a` and `c` are on shard 1 and `b` is on shard 0. -/
def abc : Shards := fun shard =>
  StoreOp.run Env.plain (Store.new Env.plain none 0)
    ((if shard = 0 then [98] else [97, 99]).map fun b => .set 0 (Store.asciiKey b) (.int 0) {})

def abcWithout (key : Bytes) : Shards :=
  fun shard => StoreOp.run Env.plain (abc shard) [.delete 0 key]

/-- `SCAN` with `COUNT 1`. -/
def scanOne (between : List StoreOp) : ScanCall :=
  ⟨[.bulkString (ascii "COUNT"), .bulkString (ascii "1")], 0, fun _ => between⟩

/-- The keys of shard 0, and those of shard 1. -/
structure HoldsKeys (shards : Shards) (zero one : List Bytes) : Prop where
  keys : ∀ shard, ((shards shard).liveEntriesSnapshot 0).map slotKey =
    if shard = 0 then zero else one
  fits : ∀ shard, pair.Fits (rawArrayResponse (if shard = 0 then zero else one))

theorem holds_abc : HoldsKeys abc [[98]] [[97], [99]] := by
  constructor <;> intro shard
  · rw [abc]
    split <;> decide +kernel
  · split <;> exact ⟨by simp [rawArrayResponse, ResponseSound, AllResponsesSound], by decide⟩

theorem holds_abcWithout_a : HoldsKeys (abcWithout [97]) [[98]] [[99]] := by
  constructor <;> intro shard
  · rw [abcWithout, abc]
    split <;> decide +kernel
  · split <;> exact ⟨by simp [rawArrayResponse, ResponseSound, AllResponsesSound], by decide⟩

theorem holds_abcWithout_c : HoldsKeys (abcWithout [99]) [[98]] [[97]] := by
  constructor <;> intro shard
  · rw [abcWithout, abc]
    split <;> decide +kernel
  · split <;> exact ⟨by simp [rawArrayResponse, ResponseSound, AllResponsesSound], by decide⟩

variable {zero one : List Bytes} {cursor : Nat} {between : List StoreOp} {shards}

theorem HoldsKeys.keysMatching (h : HoldsKeys shards zero one) (shard : Nat) :
    (shards shard).keysMatching 0 (ascii "*") = if shard = 0 then zero else one := by
  rw [← h.keys, Store.keysMatching, filter_eq_self.2 fun slot _ => globMatch_star _]

theorem HoldsKeys.fits_keysMatching (h : HoldsKeys shards zero one) (shard : Nat) :
    pair.Fits (rawArrayResponse ((shards shard).keysMatching 0 (ascii "*"))) := by
  rw [h.keysMatching]
  exact h.fits shard

theorem HoldsKeys.matchingKeys (h : HoldsKeys shards zero one) :
    pair.matchingKeys {} shards 0 = zero ++ one := by
  rw [Coordinator.matchingKeys]
  simp [h.keysMatching, typePasses, pair, range_succ]

theorem HoldsKeys.visit (h : HoldsKeys shards zero one) (hcursor : cursor ≤ u64Max) :
    pair.visit Env.plain ⟨shards, cursor, scanOne between⟩ =
      some (scanPage ((zero ++ one).insertionSort fun left right => compareBytes left right ≠ .gt)
        cursor 1, fun shard => StoreOp.run Env.plain (shards shard) between) := by
  have hpage : ∃ shards', pair.visit Env.plain ⟨shards, cursor, scanOne between⟩ = _ ∧ _ :=
    visit_eq (show ((({} : ScanFilter).typeFilter).any fun _ => _) = false from rfl)
      h.fits_keysMatching rfl hcursor
  obtain ⟨shards', hpage, hsame⟩ := hpage
  rw [hpage, hsame rfl, ← h.matchingKeys]
  rfl

theorem HoldsKeys.presentAt (h : HoldsKeys shards zero one) (hkey : [98] ∈ zero) :
    pair.PresentAt {} (Store.asciiKey 98) ⟨shards, cursor, scanOne between⟩ := by
  have hmem : [98] ∈ (shards 0).keysMatching 0 (ascii "*") := by
    rw [h.keysMatching]
    exact hkey
  obtain ⟨e, he⟩ := Option.isSome_iff_exists.1 (Store.mem_keysMatching.1 hmem).1
  exact ⟨⟨1, rfl⟩, ⟨e, he, rfl⟩, h.fits_keysMatching⟩

/-- The first call returns `a` and the cursor 1, the second one what stands at position 1 then. -/
theorem scan_abc {key : Bytes} (last : Bytes) (h : HoldsKeys (abcWithout key) zero one)
    (hlast : scanPage ((zero ++ one).insertionSort fun left right => compareBytes left right ≠ .gt)
      1 1 = (0, [last])) :
    pair.scanRun Env.plain abc 0 [scanOne [.delete 0 key], scanOne []] = ([[97], last], true) ∧
      pair.visits Env.plain abc 0 [scanOne [.delete 0 key], scanOne []] =
        [⟨abc, 0, scanOne [.delete 0 key]⟩, ⟨abcWithout key, 1, scanOne []⟩] := by
  have hfirst : pair.visit Env.plain ⟨abc, 0, scanOne [.delete 0 key]⟩ =
      some ((1, [[97]]), abcWithout key) := holds_abc.visit (by decide)
  have hsecond : pair.visit Env.plain ⟨abcWithout key, 1, scanOne []⟩ =
      some ((0, [last]), abcWithout key) := by
    rw [h.visit (by decide), hlast]
    rfl
  constructor
  · simp [scanRun, hfirst, hsecond]
  · simp [visits, hfirst, hsecond]

/-- `c` is deleted between two calls, and `b` is returned. -/
theorem multi_shard_scan_complete_abc :
    [98] ∈ (pair.scanRun Env.plain abc 0 [scanOne [.delete 0 [99]], scanOne []]).1 := by
  obtain ⟨hrun, hvisits⟩ := scan_abc [98] holds_abcWithout_c (by decide)
  refine multi_shard_scan_complete Env.plain pair (le_refl 2) {} (Store.asciiKey 98) abc _ ?_ ?_ ?_
  · rw [hrun]
  · rw [hvisits]
    simp [holds_abc.presentAt, holds_abcWithout_c.presentAt]
  · rw [hvisits, isChain_pair]
    intro _
    show 1 ≤ pair.before {} (abcWithout [99]) 0 [98]
    rw [before, holds_abcWithout_c.matchingKeys]
    decide

/-- **A deletion makes a scan miss a key**: after `a` was returned and deleted, `b` stands at
position 0, and the second call begins at position 1. -/
theorem multi_shard_scan_complete_fails : ¬ ∀ (env : Env) (c : Coordinator) (filter : ScanFilter)
    (key : CompactString) (shards : Shards) (calls : List ScanCall), 2 ≤ c.numShards →
    (c.scanRun env shards 0 calls).2 = true →
    (∀ v ∈ c.visits env shards 0 calls, c.PresentAt filter key v) →
    (∀ v ∈ c.visits env shards 0 calls, ∀ shard, ∀ op ∈ v.call.between shard,
      Store.WritesOther key (v.shards shard) op) →
    key.bytes ∈ (c.scanRun env shards 0 calls).1 := by
  intro h
  obtain ⟨hrun, hvisits⟩ := scan_abc [99] holds_abcWithout_a (by decide)
  have hmissed := h Env.plain pair {} (Store.asciiKey 98) abc
    [scanOne [.delete 0 [97]], scanOne []] (le_refl 2)
  rw [hrun, hvisits] at hmissed
  have hother : [97] ≠ (Store.asciiKey 98).bytes := by decide
  have hmem := hmissed rfl (by simp [holds_abc.presentAt, holds_abcWithout_a.presentAt])
    (by simp [scanOne, Store.WritesOther, hother])
  revert hmem
  decide

end ThreeKeys

end Coordinator

end Senko.Net
