import Senko.Lib.BitReversal
import Senko.Store.Command
import Senko.Store.StoreRun

/-!
# Senko — SCAN (`senko-store/src/commands/generic/scan.rs`)

A scan walks the bucket indexes of both tables in the order of their reversed bits. The order does
not depend on how many buckets there are (`reverseLowBits_le_of_le`), so a resize by itself makes no
scan miss a key. A key that moves to another bucket is missed if it jumps from a bucket that is
still ahead of the cursor to one that is behind it, and the incremental rehash moves keys from one
table to buckets of the other that have nothing to do with the old ones.
-/

namespace Senko

open List Option HashTable

/-! ## Patterns (`senko-store/src/pattern.rs`) -/

def hasWildcards (pattern : Bytes) : Bool := pattern.any fun b => b ∈ ascii "*?[]\\"

/-- The bytes of a class up to the closing bracket: if one of them is the byte, and what follows the
bracket. `none` if the class is not closed. -/
def scanCharClass (byte : UInt8) : Bytes → Bool → Option (Bool × Bytes)
  | [], _ => none
  | 0x5d :: rest, matched => some (matched, rest)
  | 0x5c :: escaped :: rest, matched => scanCharClass byte rest (matched || escaped == byte)
  | ch :: rest, matched => scanCharClass byte rest (matched || ch == byte)

theorem length_of_scanCharClass {byte : UInt8} {pattern rest : Bytes} {matched result : Bool}
    (h : scanCharClass byte pattern matched = some (result, rest)) :
    rest.length < pattern.length := by
  fun_induction scanCharClass byte pattern matched with
  | case1 => cases h
  | case2 =>
    cases h
    simp
  | case3 _ _ _ ih | case4 _ _ _ _ _ ih =>
    have := ih h
    simp only [length_cons]
    omega

/-- A leading `^` or `!` negates a class. -/
def classBody : Bytes → Bool × Bytes
  | 0x5e :: rest | 0x21 :: rest => (true, rest)
  | rest => (false, rest)

theorem length_classBody (pattern : Bytes) : (classBody pattern).2.length ≤ pattern.length := by
  unfold classBody
  split <;> simp

def globMatchImpl (pattern text : Bytes) : Bool :=
  match pattern with
  | [] => text.isEmpty
  | 0x2a :: rest => (List.range (text.length + 1)).any fun i => globMatchImpl rest (text.drop i)
  | 0x3f :: rest =>
    match text with
    | [] => false
    | _ :: text => globMatchImpl rest text
  | 0x5b :: rest =>
    match text with
    | [] => false
    | byte :: text =>
      match _ : scanCharClass byte (classBody rest).2 false with
      | none => false
      | some (matched, after) => (matched != (classBody rest).1) && globMatchImpl after text
  | 0x5c :: rest =>
    match rest, text with
    | escaped :: rest, byte :: text => escaped == byte && globMatchImpl rest text
    | _, _ => false
  | ch :: rest =>
    match text with
    | [] => false
    | byte :: text => ch == byte && globMatchImpl rest text
termination_by pattern.length
decreasing_by
  all_goals simp_wf
  case _ h =>
    have hrest := length_of_scanCharClass h
    have hbody := length_classBody rest
    omega

/-- A pattern without wildcards matches where it occurs. -/
def globMatch (pattern text : Bytes) : Bool :=
  if hasWildcards pattern then globMatchImpl pattern text else text.tails.any pattern.isPrefixOf

/-! ## One step of a scan -/

/-- The types that `TYPE` knows. -/
def normalizeTypeFilter (filter : Bytes) : Option String :=
  ["string", "list", "set", "zset", "hash", "stream"].find? (isOpt filter)

def typeMatches (actual : String) (filter : Bytes) : Bool :=
  (normalizeTypeFilter filter).any fun expected => actual == expected

/-- The `MATCH` and `TYPE` arguments of a scan. -/
structure ScanFilter where
  pattern : Option Bytes := none
  typeFilter : Option Bytes := none

namespace ScanFilter

def passes (filter : ScanFilter) (key : CompactString) (valueType : String) : Bool :=
  filter.typeFilter.all (typeMatches valueType) &&
    filter.pattern.all fun pattern => globMatch pattern key.bytes

end ScanFilter

/-- `usize::next_power_of_two`. -/
def nextPowerOfTwo (n : Nat) : Nat := if n ≤ 1 then 1 else 2 ^ (Nat.log2 (n - 1) + 1)

def trailingZeros (n : Nat) : Nat := ((List.range (n.log2 + 1)).find? n.testBit).getD 64

def reverseBinaryNext (cursor modulo : Nat) : Nat :=
  if modulo ≤ 1 then 0
  else
    let bits := max (trailingZeros modulo) 1
    let mask := 1 <<< bits - 1
    let low := cursor &&& mask
    let rev := reverseLowBits low bits
    let next := (rev + 1) &&& mask
    reverseLowBits next bits &&& mask

namespace Store

def tableBucketCounts (s : Store) : Nat × Nat :=
  (max s.keyspace.tables.primary.numBuckets 1,
    (s.keyspace.tables.resize.map fun r => max r.table.numBuckets 1).getD 0)

def tableAt (s : Store) : Nat → Option (HashTable (Slot Entry))
  | 0 => some s.keyspace.tables.primary
  | 1 => s.keyspace.tables.resize.map RehashState.table
  | _ => none

def bucketSnapshot (s : Store) (tableIndex bucket : Nat) :
    Option (CompactString × String × Option Nat) :=
  ((s.tableAt tableIndex).bind fun t => t.getBucket bucket).map fun slot =>
    (slot.1, slot.2.value.typeName, slot.2.expiresAt)

/-- The key of a bucket of one of the tables, if the scan returns it. -/
def scanBucket (s : Store) (filter : ScanFilter) (nowMs cur tableIndex : Nat) :
    Option CompactString :=
  let bucketCount := if tableIndex = 0 then s.tableBucketCounts.1 else s.tableBucketCounts.2
  if bucketCount = 0 || bucketCount ≤ cur then none
  else
    match s.bucketSnapshot tableIndex cur with
    | none => none
    | some (key, valueType, expiresAt) =>
      if isExpired expiresAt nowMs then none
      else if filter.passes key valueType then some key
      else none

def scanModulo (s : Store) : Nat :=
  nextPowerOfTwo (max (max s.tableBucketCounts.1 s.tableBucketCounts.2) 1)

/-- The loop of `scan_step` with the rounds that are left. -/
def scanLoop (s : Store) (filter : ScanFilter) (nowMs : Nat) :
    Nat → Nat → List CompactString → Nat × List CompactString
  | 0, cur, out => (cur, out)
  | left + 1, cur, out =>
    let out := out ++ [0, 1].filterMap (s.scanBucket filter nowMs cur)
    let next := reverseBinaryNext cur s.scanModulo
    if next = 0 then (0, out) else scanLoop s filter nowMs left next out

def scanStep (s : Store) (cursor count : Nat) (filter : ScanFilter) (nowMs : Nat) :
    Nat × List CompactString :=
  if filter.typeFilter.any fun f => (normalizeTypeFilter f).isNone then (0, [])
  else if s.entryCount = 0 || s.scanModulo = 0 then (0, [])
  else s.scanLoop filter nowMs count (cursor % s.scanModulo) []

/-! ## Runs -/

/-- A call of `scan_step` and what happens to the store before the next one. -/
structure ScanRound where
  count : Nat
  now : Nat
  ops : List StoreOp := []

/-- A run of calls, each with the cursor that the last one returned, until one returns 0: the keys
that were returned, and if the run came to its end. -/
def scanRun (env : Env) (filter : ScanFilter) : Store → Nat → List ScanRound →
    List CompactString × Bool
  | _, _, [] => ([], false)
  | s, cursor, round :: rounds =>
    let (next, keys) := s.scanStep cursor round.count filter round.now
    if next = 0 then (keys, true)
    else
      let (found, complete) := scanRun env filter (StoreOp.run env s round.ops) next rounds
      (keys ++ found, complete)

/-- The index of the bucket that holds a key, in whichever table. -/
def bucketOf (s : Store) (key : Bytes) : Option Nat :=
  (s.keyspace.tables.primary.bucketOf slotKey key).or
    (s.keyspace.tables.resize.bind fun r => r.table.bucketOf slotKey key)

end Store

/-! ## The order of the cursor -/

theorem nextPowerOfTwo_spec (n : Nat) : ∃ bits, nextPowerOfTwo n = 2 ^ bits ∧ n ≤ 2 ^ bits := by
  unfold nextPowerOfTwo
  split
  · exact ⟨0, rfl, by simpa using ‹n ≤ 1›⟩
  · refine ⟨_, rfl, ?_⟩
    have := Nat.lt_log2_self (n := n - 1)
    omega

theorem trailingZeros_two_pow (bits : Nat) : trailingZeros (2 ^ bits) = bits := by
  have hfind : (List.range ((2 ^ bits).log2 + 1)).find? (2 ^ bits).testBit = some bits := by
    rw [Nat.log2_two_pow, find?_range_eq_some]
    refine ⟨by simp, by simp, fun j hj => ?_⟩
    simp [Nat.ne_of_gt hj]
  rw [trailingZeros, hfind, getD_some]

/-- **The next cursor** is the one of the next place in the order of the reversed bits. -/
theorem reverseBinaryNext_reverseLowBits (place bits : Nat) :
    reverseBinaryNext (reverseLowBits place bits) (2 ^ bits) = reverseLowBits (place + 1) bits := by
  rcases bits with _ | bits
  · rfl
  have hbig : ¬ 2 ^ (bits + 1) ≤ 1 := by
    have := Nat.one_lt_two_pow (n := bits + 1) (by omega)
    omega
  have hback := reverseLowBits_reverseLowBits (Nat.mod_lt place (Nat.two_pow_pos (bits + 1)))
  rw [reverseLowBits_mod] at hback
  unfold reverseBinaryNext
  simp only [if_neg hbig, trailingZeros_two_pow, Nat.max_eq_left (Nat.succ_pos bits),
    Nat.one_shiftLeft, Nat.and_two_pow_sub_one_eq_mod, reverseLowBits_mod, hback]
  rw [Nat.mod_eq_of_lt reverseLowBits_lt, ← reverseLowBits_mod, Nat.mod_add_mod, reverseLowBits_mod]

theorem iterate_reverseBinaryNext (place bits n : Nat) :
    (reverseBinaryNext · (2 ^ bits))^[n] (reverseLowBits place bits) =
      reverseLowBits (place + n) bits := by
  induction n generalizing place with
  | zero => rfl
  | succ n ih =>
    rw [Function.iterate_succ_apply, reverseBinaryNext_reverseLowBits, ih, Nat.add_assoc,
      Nat.add_comm 1]

namespace Store

variable {s : Store} {filter : ScanFilter} {key : CompactString} {bucket nowMs : Nat}

/-- A key that a scan has to return: it is live and passes the filters. -/
def scannable (s : Store) (filter : ScanFilter) (nowMs : Nat) (key : CompactString) : Bool :=
  (s.live nowMs key.bytes).any fun e => filter.passes key e.value.typeName

theorem mem_slots_of_getBucket {tableIndex : Nat} {table : HashTable (Slot Entry)}
    {slot : Slot Entry} (htable : s.tableAt tableIndex = some table)
    (hslot : table.getBucket bucket = some slot) : slot ∈ s.keyspace.tables.slots := by
  have hitem := mem_items_of_getBucket hslot
  unfold tableAt at htable
  split at htable
  · cases htable
    exact mem_append_left _ hitem
  · obtain ⟨r, hr, rfl⟩ := map_eq_some_iff.1 htable
    exact mem_append_right _ (by rwa [hr])
  · cases htable

/-- The bucket of a key belongs to one of the tables. -/
theorem exists_tableAt (h : s.bucketOf key.bytes = some bucket) :
    ∃ tableIndex ∈ [0, 1], ∃ table slot, s.tableAt tableIndex = some table ∧
      table.getBucket bucket = some slot ∧ slotKey slot = key.bytes := by
  rw [bucketOf, or_eq_some_iff] at h
  rcases h with hprimary | ⟨-, hresize⟩
  · obtain ⟨slot, hslot, hkey⟩ := getBucket_of_bucketOf hprimary
    exact ⟨0, by simp, _, slot, rfl, hslot, hkey⟩
  · obtain ⟨r, hr, hbucket⟩ := bind_eq_some_iff.1 hresize
    obtain ⟨slot, hslot, hkey⟩ := getBucket_of_bucketOf hbucket
    exact ⟨1, by simp, r.table, slot, by rw [tableAt, hr]; rfl, hslot, hkey⟩

/-- The buckets of a table are counted. -/
theorem numBuckets_le_count {tableIndex : Nat} {table : HashTable (Slot Entry)}
    (h : s.tableAt tableIndex = some table) :
    table.numBuckets ≤ if tableIndex = 0 then s.tableBucketCounts.1 else s.tableBucketCounts.2 := by
  unfold tableAt at h
  split at h
  · cases h
    exact Nat.le_max_left _ _
  · obtain ⟨r, hr, rfl⟩ := map_eq_some_iff.1 h
    simp [tableBucketCounts, hr]
  · cases h

/-- The keys of the buckets of one index. -/
def keysAt (s : Store) (cur : Nat) : List CompactString :=
  [0, 1].filterMap fun tableIndex =>
    ((s.tableAt tableIndex).bind fun t => t.getBucket cur).map Prod.fst

/-- **A scan that comes to a bucket** returns its key if the key is scannable. -/
theorem filterMap_scanBucket (cur : Nat) : [0, 1].filterMap (s.scanBucket filter nowMs cur) =
      (s.keysAt cur).filter (s.scannable filter nowMs) := by
  rw [keysAt, filter_filterMap]
  congr 1
  funext tableIndex
  unfold scanBucket bucketSnapshot
  rcases htable : s.tableAt tableIndex with _ | table
  · simp
  rcases hslot : table.getBucket cur with _ | slot
  · simp [hslot]
  have hcount := numBuckets_le_count htable
  have hlt := lt_numBuckets_of_getBucket hslot
  have hstored : s.lookup slot.1.bytes = some slot.2 :=
    Keyspace.lookup_eq_some.2 ⟨slot, mem_slots_of_getBucket htable hslot, rfl, rfl⟩
  have hlive : s.scannable filter nowMs slot.1 = (!isExpired slot.2.expiresAt nowMs &&
      filter.passes slot.1 slot.2.value.typeName) := by
    rw [scannable, live, hstored, filter_some]
    split <;> simp_all
  rw [if_neg (by simp only [Bool.or_eq_true, decide_eq_true_eq]; omega)]
  simp only [bind_some, hslot, map_some, filter_some, hlive]
  cases isExpired slot.2.expiresAt nowMs <;> simp

theorem mem_keysAt (hbucket : s.bucketOf key.bytes = some bucket) : key ∈ s.keysAt bucket := by
  obtain ⟨tableIndex, hindex, table, slot, htable, hslot, hkey⟩ := exists_tableAt hbucket
  refine mem_filterMap.2 ⟨tableIndex, hindex, ?_⟩
  rw [htable, bind_some, hslot, map_some, CompactString.ext hkey]

theorem exists_scanModulo (s : Store) : ∃ bits, s.scanModulo = 2 ^ bits := by
  obtain ⟨bits, hmodulo, -⟩ :=
    nextPowerOfTwo_spec (max (max s.tableBucketCounts.1 s.tableBucketCounts.2) 1)
  exact ⟨bits, hmodulo⟩

theorem numBuckets_le_scanModulo {tableIndex : Nat} {table : HashTable (Slot Entry)}
    (h : s.tableAt tableIndex = some table) : table.numBuckets ≤ s.scanModulo := by
  have hcount := numBuckets_le_count h
  obtain ⟨bits, hmodulo, hle⟩ :=
    nextPowerOfTwo_spec (max (max s.tableBucketCounts.1 s.tableBucketCounts.2) 1)
  rw [scanModulo, hmodulo]
  split at hcount <;> omega

theorem bucket_lt_scanModulo (h : s.bucketOf key.bytes = some bucket) : bucket < s.scanModulo := by
  obtain ⟨tableIndex, -, table, slot, htable, hslot, -⟩ := exists_tableAt h
  exact (lt_numBuckets_of_getBucket hslot).trans_le (numBuckets_le_scanModulo htable)

/-- The keys of the places from one to another in the order of the reversed bits. -/
def keysBetween (s : Store) (bits place stop : Nat) : List CompactString :=
  (List.range' place (stop - place)).flatMap fun i => s.keysAt (reverseLowBits i bits)

theorem keysBetween_append {bits place mid stop : Nat} (hmid : place ≤ mid) (hstop : mid ≤ stop) :
    s.keysBetween bits place mid ++ s.keysBetween bits mid stop =
      s.keysBetween bits place stop := by
  obtain ⟨m, rfl⟩ := Nat.exists_eq_add_of_le hmid
  obtain ⟨n, rfl⟩ := Nat.exists_eq_add_of_le hstop
  rw [keysBetween, keysBetween, ← flatMap_append, Nat.add_sub_cancel_left, Nat.add_sub_cancel_left,
    range'_append_1, keysBetween, Nat.add_assoc, Nat.add_sub_cancel_left]

theorem keysBetween_cons {bits place stop : Nat} (h : place < stop) :
    s.keysBetween bits place stop =
    s.keysAt (reverseLowBits place bits) ++ s.keysBetween bits (place + 1) stop := by
  rw [← keysBetween_append (Nat.le_succ place) h]
  simp [keysBetween]

/-- A call looks at the buckets, if there is anything to find. -/
theorem scanStep_cases (s : Store) (filter : ScanFilter) :
    ((∀ cursor count nowMs, s.scanStep cursor count filter nowMs = (0, [])) ∧
      ∀ nowMs key, s.scannable filter nowMs key = false) ∨
    ∀ cursor count nowMs, s.scanStep cursor count filter nowMs =
      s.scanLoop filter nowMs count (cursor % s.scanModulo) [] := by
  by_cases htype : (filter.typeFilter.any fun f => (normalizeTypeFilter f).isNone) = true
  · refine .inl ⟨fun _ _ _ => if_pos htype, fun nowMs key => ?_⟩
    obtain ⟨f, hf, hunknown⟩ := (Option.any_eq_true _ _).1 htype
    rw [scannable, Option.any_eq_false]
    intro e _
    simp [ScanFilter.passes, hf, typeMatches, isNone_iff_eq_none.1 hunknown]
  by_cases hentries : (s.entryCount = 0 || s.scanModulo = 0) = true
  · refine .inl ⟨fun _ _ _ => (if_neg htype).trans (if_pos hentries), fun nowMs key => ?_⟩
    obtain ⟨bits, hmodulo⟩ := s.exists_scanModulo
    have hempty : s.keyspace.tables.slots = [] := by
      simpa [entryCount_eq_length, hmodulo] using hentries
    rw [scannable, Option.any_eq_false]
    intro e hlive
    obtain ⟨slot, hslot, -⟩ := Keyspace.lookup_eq_some.1 (live_eq_some.1 hlive).1
    rw [hempty] at hslot
    cases hslot
  · exact .inr fun _ _ _ => (if_neg htype).trans (if_neg hentries)

section Found

variable {bits : Nat} (hmodulo : s.scanModulo = 2 ^ bits)

include hmodulo

/-- **The loop of a call** walks on by the rounds that are left, at most to the end of the order.
Induction on the rounds. -/
theorem scanLoop_eq (left place : Nat) (out : List CompactString) (hplace : place < 2 ^ bits) :
    s.scanLoop filter nowMs left (reverseLowBits place bits) out =
      (reverseLowBits (min (place + left) (2 ^ bits)) bits,
        out ++ (s.keysBetween bits place (min (place + left) (2 ^ bits))).filter
          (s.scannable filter nowMs)) := by
  induction left generalizing place out with
  | zero => simp [scanLoop, keysBetween, Nat.min_eq_left hplace.le]
  | succ left ih =>
    rw [scanLoop, hmodulo, reverseBinaryNext_reverseLowBits, filterMap_scanBucket,
      keysBetween_cons (by omega), filter_append, ← append_assoc]
    rcases Nat.lt_or_eq_of_le (show place + 1 ≤ 2 ^ bits from hplace) with hlt | hend
    · rw [if_neg (by simp [reverseLowBits_eq_zero hlt]), ih _ _ hlt, Nat.add_right_comm place 1,
        Nat.add_assoc]
    · rw [if_pos (by rw [hend, reverseLowBits_two_pow]), Nat.min_eq_right (by omega),
        reverseLowBits_two_pow]
      simp [keysBetween, ← hend]

/-- A call of `scan_step`: a key whose bucket the cursor has not passed is found, or the cursor
still has not passed it. -/
theorem scanStep_spec {count : Nat} (hbucket : s.bucketOf key.bytes = some bucket)
    (hscan : s.scannable filter nowMs key = true) (cursor : Nat) (hcount : count ≠ 0)
    (hahead : reverseLowBits (cursor % 2 ^ bits) bits ≤ reverseLowBits bucket bits) :
    key ∈ (s.scanStep cursor count filter nowMs).2 ∨ (s.scanStep cursor count filter nowMs).1 ≠ 0 ∧
        (s.scanStep cursor count filter nowMs).1 < 2 ^ bits ∧
        reverseLowBits (s.scanStep cursor count filter nowMs).1 bits ≤
          reverseLowBits bucket bits := by
  have hstep := (scanStep_cases s filter).resolve_left fun h => by simp [h.2] at hscan
  have hbound : bucket < 2 ^ bits := hmodulo ▸ bucket_lt_scanModulo hbucket
  have hlast : reverseLowBits bucket bits < 2 ^ bits := reverseLowBits_lt
  rw [hstep, hmodulo, ← reverseLowBits_reverseLowBits (Nat.mod_lt cursor (Nat.two_pow_pos bits)),
    scanLoop_eq hmodulo _ _ _ reverseLowBits_lt]
  generalize reverseLowBits (cursor % 2 ^ bits) bits = place at hahead
  by_cases hfound : reverseLowBits bucket bits < min (place + count) (2 ^ bits)
  · refine .inl (mem_filter.2 ⟨mem_flatMap.2 ⟨reverseLowBits bucket bits, ?_, ?_⟩, hscan⟩)
    · exact mem_range'_1.2 ⟨hahead, by omega⟩
    · rw [reverseLowBits_reverseLowBits hbound]
      exact mem_keysAt hbucket
  have hstop : min (place + count) (2 ^ bits) < 2 ^ bits := by omega
  refine .inr ⟨?_, reverseLowBits_lt, ?_⟩
  · rw [Ne, reverseLowBits_eq_zero hstop]
    omega
  · rw [reverseLowBits_reverseLowBits hstop]
    omega

end Found

/-- A stored key has a bucket. -/
theorem exists_bucketOf {e : Entry} (h : s.lookup key.bytes = some e) :
    ∃ bucket, s.bucketOf key.bytes = some bucket := by
  obtain ⟨slot, hslot, hkey, -⟩ := Keyspace.lookup_eq_some.1 h
  rw [← isSome_iff_exists, bucketOf, isSome_or, Bool.or_eq_true, ← hkey]
  refine (mem_append.1 hslot).imp isSome_bucketOf fun hresize => ?_
  cases hr : s.keyspace.tables.resize with
  | none => simp [hr] at hresize
  | some r =>
    rw [hr] at hresize
    exact isSome_bucketOf hresize

section Run

variable (env : Env) (filter key)

/-- The operation moves the key to no other bucket index. -/
def KeepsBucket (s : Store) (op : StoreOp) : Prop :=
  (op.step env s).bucketOf key.bytes = s.bucketOf key.bytes

/-- The key is scannable at every call of a run, and the operations between the calls meet a
condition. -/
def Present (between : Store → StoreOp → Prop) : Store → Nat → List ScanRound → Prop
  | _, _, [] => True
  | s, cursor, round :: rounds =>
    round.count ≠ 0 ∧ s.scannable filter round.now key = true ∧
      ((s.scanStep cursor round.count filter round.now).1 ≠ 0 →
        StoreOp.All env between s round.ops ∧
          Present between (StoreOp.run env s round.ops)
            (s.scanStep cursor round.count filter round.now).1 rounds)

variable {env filter key}

theorem bucketOf_run {ops : List StoreOp} (h : StoreOp.All env (KeepsBucket key env) s ops) :
    (StoreOp.run env s ops).bucketOf key.bytes = s.bucketOf key.bytes := by
  exact h.induction (P := fun s' => s'.bucketOf key.bytes = s.bucketOf key.bytes)
    (fun s' op hs' hop => hop.trans hs') rfl

/-- A key whose bucket the cursor has not passed is returned before the run ends. Induction on the
calls; between two of them the number of buckets may change. -/
theorem mem_scanRun (rounds : List ScanRound) (s : Store) (cursor bits : Nat)
    (hcursor : cursor < 2 ^ bits) (hbound : bucket < 2 ^ bits)
    (hahead : reverseLowBits cursor bits ≤ reverseLowBits bucket bits)
    (hbucket : s.bucketOf key.bytes = some bucket)
    (hsafe : Present filter key env (KeepsBucket key env) s cursor rounds)
    (hcomplete : (scanRun env filter s cursor rounds).2 = true) :
    key ∈ (scanRun env filter s cursor rounds).1 := by
  induction rounds generalizing s cursor bits with
  | nil => cases hcomplete
  | cons round rounds ih =>
    obtain ⟨hcount, hscan, hrest⟩ := hsafe
    obtain ⟨bits', hmodulo⟩ := s.exists_scanModulo
    have hstep := scanStep_spec hmodulo hbucket hscan cursor hcount
      (reverseLowBits_le_of_le hcursor hbound hahead)
    have hbound' : bucket < 2 ^ bits' := hmodulo ▸ bucket_lt_scanModulo hbucket
    rw [scanRun] at hcomplete ⊢
    generalize s.scanStep cursor round.count filter round.now = step at hstep hrest hcomplete ⊢
    obtain ⟨next, keys⟩ := step
    dsimp only at hstep hrest hcomplete ⊢
    rcases hstep with hfound | ⟨hne, hnext, hahead'⟩
    · split
      · exact hfound
      · exact mem_append_left _ hfound
    · rw [if_neg hne] at hcomplete ⊢
      obtain ⟨hkeeps, hlater⟩ := hrest hne
      exact mem_append_right _ (ih _ next bits' hnext hbound' hahead'
        ((bucketOf_run hkeeps).trans hbucket) hlater hcomplete)

end Run

/-- **A complete scan returns every key that stays**: in a run of calls from cursor 0 until 0 comes
back, with any operations between them that leave the key in the bucket index it has, a key that is
live and passes the filters at every call is returned. -/
theorem scan_complete (env : Env) (filter : ScanFilter) (key : CompactString) (s : Store)
    (rounds : List ScanRound) (hcomplete : (scanRun env filter s 0 rounds).2 = true)
    (hsafe : Present filter key env (KeepsBucket key env) s 0 rounds) :
    key ∈ (scanRun env filter s 0 rounds).1 := by
  rcases rounds with _ | ⟨round, rounds⟩
  · cases hcomplete
  obtain ⟨e, hlive, -⟩ := (Option.any_eq_true _ _).1 hsafe.2.1
  obtain ⟨bucket, hbucket⟩ := exists_bucketOf (live_eq_some.1 hlive).1
  obtain ⟨bits, hmodulo⟩ := s.exists_scanModulo
  exact mem_scanRun _ s 0 bits (Nat.two_pow_pos bits) (hmodulo ▸ bucket_lt_scanModulo hbucket)
    (by simp) hbucket hsafe hcomplete

/-- Tables with open addressing whose hash is the first byte of the key. -/
def byteHashEnv : Env :=
  { Env.plain with place := .probing fun slot => ((slotKey slot).headD 0).toNat }

instance neZero128 : NeZero 128 := ⟨by decide⟩

def asciiKey (b : Fin 128) : CompactString := ⟨[UInt8.ofNat b], by revert b; decide⟩

/-- A store with 49 keys in 64 buckets, which starts a resize. The key 64 found its bucket 0 taken
and lies in bucket 1; in the table of 128 buckets its bucket is 64. -/
def crowded : Store :=
  StoreOp.run byteHashEnv (Store.new byteHashEnv none 0)
    (([0, 64] ++ (List.range 47).map (· + 2)).map fun b =>
      .set 0 (asciiKey (Fin.ofNat 128 b)) (.int 0) {})

/-- Between two calls, a write to another key moves the key 5 to the same bucket of the larger
table. -/
theorem scan_complete_rehash :
    let write : StoreOp := .delete 0 [122]
    (crowded.keyspace.tables.primary.bucketOf slotKey [5] = none ∧
      (write.step byteHashEnv crowded).keyspace.tables.primary.bucketOf slotKey [5] = some 5) ∧
    asciiKey 5 ∈ (scanRun byteHashEnv {} crowded 0
      [{ count := 2, now := 0, ops := [write] }, { count := 1000, now := 0 }]).1 := by
  intro write
  refine ⟨by decide +kernel, scan_complete byteHashEnv {} (asciiKey 5) crowded _
    (by decide +kernel) ⟨by decide, by decide +kernel, fun _ => ⟨⟨?_, trivial⟩, by decide,
      by decide +kernel, fun hnext => absurd hnext (by decide +kernel)⟩⟩⟩
  show (write.step byteHashEnv crowded).bucketOf [5] = crowded.bucketOf [5]
  decide +kernel

/-! ### A store that does not change -/

theorem filterMap_tableAt (s : Store) (tableIndex : Nat) :
    ((List.range s.scanModulo).filterMap fun cur =>
        ((s.tableAt tableIndex).bind fun t => t.getBucket cur).map Prod.fst) =
      (((s.tableAt tableIndex).map items).getD []).map Prod.fst := by
  cases htable : s.tableAt tableIndex with
  | none => simp
  | some table =>
    simp only [bind_some, map_some, getD_some]
    rw [← map_filterMap, filterMap_getBucket (numBuckets_le_scanModulo htable)]

/-- **The whole order** goes over every slot once. -/
theorem keysBetween_perm {bits : Nat} (hmodulo : s.scanModulo = 2 ^ bits) :
    (s.keysBetween bits 0 (2 ^ bits)).Perm (s.keyspace.tables.slots.map Prod.fst) := by
  have hrange : ((List.range (2 ^ bits)).map (reverseLowBits · bits)).Perm
      (List.range (2 ^ bits)) := by
    refine (perm_ext_iff_of_nodup (nodup_range.map_on fun i hi j hj heq => ?_) nodup_range).2
      fun i => ⟨fun hi => ?_, fun hi => ?_⟩
    · rw [← reverseLowBits_reverseLowBits (mem_range.1 hi), heq,
        reverseLowBits_reverseLowBits (mem_range.1 hj)]
    · obtain ⟨j, -, rfl⟩ := List.mem_map.1 hi
      exact mem_range.2 reverseLowBits_lt
    · exact List.mem_map.2 ⟨_, mem_range.2 reverseLowBits_lt,
        reverseLowBits_reverseLowBits (mem_range.1 hi)⟩
  have hslots : s.keyspace.tables.slots = ((s.tableAt 0).map items).getD [] ++
      ((s.tableAt 1).map items).getD [] := by
    rw [tableAt, tableAt, Option.map_map]
    rfl
  rw [hslots, map_append, ← filterMap_tableAt, ← filterMap_tableAt, hmodulo, keysBetween,
    Nat.sub_zero, ← range_eq_range', ← flatMap_map]
  refine (hrange.flatMap_right _).trans ?_
  unfold keysAt
  simp only [filterMap_eq_flatMap_toList, flatMap_cons, flatMap_nil, append_nil]
  exact (flatMap_append_perm _ _ _).symm

/-- A call of a run on a store that does not change, at a time at which the same keys live. -/
def Repeats (s : Store) (filter : ScanFilter) (nowMs : Nat) (round : ScanRound) : Prop :=
  round.count ≠ 0 ∧ round.ops = [] ∧
    ∀ key, s.scannable filter round.now key = s.scannable filter nowMs key

/-- The run returns the scannable keys of the places that are left. Induction on the calls. -/
theorem scanRun_repeats {bits : Nat} (env : Env) (hmodulo : s.scanModulo = 2 ^ bits)
    (hstep : ∀ cursor count nowMs, s.scanStep cursor count filter nowMs =
      s.scanLoop filter nowMs count (cursor % s.scanModulo) []) (rounds : List ScanRound)
    (hrounds : ∀ round ∈ rounds, s.Repeats filter nowMs round) (place : Nat)
    (hplace : place < 2 ^ bits) :
    let run := scanRun env filter s (reverseLowBits place bits) rounds
    (2 ^ bits ≤ place + rounds.length → run.2 = true) ∧ (run.2 = true →
      run.1 = (s.keysBetween bits place (2 ^ bits)).filter (s.scannable filter nowMs)) := by
  induction rounds generalizing place with
  | nil => exact ⟨fun hlong => absurd hlong (Nat.not_le.2 hplace), fun h => nomatch h⟩
  | cons round rounds ih =>
    obtain ⟨hcount, hops, hsame⟩ := hrounds round mem_cons_self
    rw [scanRun, hstep, hmodulo, Nat.mod_eq_of_lt reverseLowBits_lt,
      scanLoop_eq hmodulo _ _ _ hplace, funext hsame, hops, nil_append]
    dsimp only
    rcases Nat.lt_or_ge (place + round.count) (2 ^ bits) with hlt | hge
    · obtain ⟨hends, hkeys⟩ := ih (fun r hr => hrounds r (mem_cons_of_mem _ hr)) _ hlt
      rw [Nat.min_eq_left hlt.le, if_neg (by rw [reverseLowBits_eq_zero hlt]; omega)]
      refine ⟨fun hlong => hends ?_, fun hcomplete => ?_⟩
      · rw [length_cons] at hlong
        omega
      · rw [← keysBetween_append (Nat.le_add_right place round.count) hlt.le, filter_append,
          ← hkeys hcomplete]
        rfl
    · rw [Nat.min_eq_right hge, reverseLowBits_two_pow, if_pos rfl]
      exact ⟨fun _ => rfl, fun _ => rfl⟩

/-- **A scan of a store that does not change is exact**: a run of calls with any counts ends after
at most as many calls as there are cursors, and returns every live key that passes the filters once
and no other key. The cursors are a single cycle. -/
theorem scan_exact (env : Env) (s : Store) (filter : ScanFilter) (nowMs : Nat)
    (rounds : List ScanRound) (hrounds : ∀ round ∈ rounds, s.Repeats filter nowMs round) :
    let run := scanRun env filter s 0 rounds
    (s.scanModulo ≤ rounds.length → run.2 = true) ∧
    (run.2 = true → run.1.Nodup ∧ ∀ key, key ∈ run.1 ↔ s.scannable filter nowMs key = true) ∧
    ∀ bits i j, i < 2 ^ bits → j < 2 ^ bits → reverseBinaryNext i (2 ^ bits) < 2 ^ bits ∧
      ∃ n, (reverseBinaryNext · (2 ^ bits))^[n] i = j := by
  intro run
  obtain ⟨bits, hmodulo⟩ := s.exists_scanModulo
  have hrun : (s.scanModulo ≤ rounds.length → run.2 = true) ∧ (run.2 = true →
      run.1.Perm ((s.keyspace.tables.slots.map Prod.fst).filter (s.scannable filter nowMs))) := by
    rcases scanStep_cases s filter with ⟨hstop, hnone⟩ | hstep
    · cases rounds with
      | nil => exact ⟨fun hlong => by simp [hmodulo] at hlong, fun h => nomatch h⟩
      | cons round rounds => simp [run, scanRun, hstop, hnone]
    · obtain ⟨hends, hkeys⟩ :=
        scanRun_repeats env hmodulo hstep rounds hrounds 0 (Nat.two_pow_pos bits)
      rw [reverseLowBits_zero] at hends hkeys
      refine ⟨fun hlong => hends (by omega), fun hcomplete => ?_⟩
      exact hkeys hcomplete ▸ (keysBetween_perm hmodulo).filter _
  refine ⟨hrun.1, fun hcomplete => ⟨?_, fun key => ?_⟩, fun bits i j hi hj => ?_⟩
  · rw [(hrun.2 hcomplete).nodup_iff]
    refine .filter _ (Nodup.of_map CompactString.bytes ?_)
    rw [List.map_map]
    exact s.keyspace.distinct
  · rw [(hrun.2 hcomplete).mem_iff, mem_filter, and_iff_right_iff_imp]
    intro hscan
    obtain ⟨e, hlive, -⟩ := (Option.any_eq_true _ _).1 hscan
    obtain ⟨slot, hslot, hkey, -⟩ := Keyspace.lookup_eq_some.1 (live_eq_some.1 hlive).1
    exact List.mem_map.2 ⟨slot, hslot, CompactString.ext hkey⟩
  · rw [← reverseLowBits_reverseLowBits hi, reverseBinaryNext_reverseLowBits]
    refine ⟨reverseLowBits_lt, reverseLowBits j bits + 2 ^ bits - reverseLowBits i bits, ?_⟩
    have hle : reverseLowBits i bits ≤ 2 ^ bits := reverseLowBits_lt.le
    rw [iterate_reverseBinaryNext, Nat.add_sub_cancel' (by omega), ← reverseLowBits_mod,
      Nat.add_mod_right, reverseLowBits_mod, reverseLowBits_reverseLowBits hj]

/-- Three calls over the two tables return no key twice, and the key 64. -/
theorem scan_exact_crowded :
    let run := scanRun byteHashEnv {} crowded 0
      [{ count := 50, now := 0 }, { count := 50, now := 0 }, { count := 50, now := 0 }]
    run.1.Nodup ∧ asciiKey 64 ∈ run.1 := by
  intro run
  have hrepeats : crowded.Repeats {} 0 { count := 50, now := 0 } := ⟨by decide, rfl, fun _ => rfl⟩
  obtain ⟨-, hexact, -⟩ := scan_exact byteHashEnv crowded {} 0
    [{ count := 50, now := 0 }, { count := 50, now := 0 }, { count := 50, now := 0 }]
    (by simpa using hrepeats)
  obtain ⟨hnodup, hkeys⟩ := hexact (by decide +kernel)
  exact ⟨hnodup, (hkeys _).2 (by decide +kernel)⟩

/-! ### A key that the rehash moves behind the cursor -/

/-- A write to another key. -/
def WritesOther (key : CompactString) (_ : Store) : StoreOp → Prop
  | .set _ other _ _ => other.bytes ≠ key.bytes
  | .delete _ other => other ≠ key.bytes
  | _ => False

/-- **A rehash makes a scan miss a key**: the first call visits the buckets 0 and 64, and then the
rehash step of a write moves the key from bucket 1 to bucket 64. -/
theorem scan_complete_fails :
    ¬ ∀ (env : Env) (filter : ScanFilter) (key : CompactString) (s : Store)
    (rounds : List ScanRound), (scanRun env filter s 0 rounds).2 = true →
    Present filter key env (WritesOther key) s 0 rounds →
    key ∈ (scanRun env filter s 0 rounds).1 := by
  intro h
  have hother : ([122] : Bytes) ≠ [64] := by decide
  have hmissed := h byteHashEnv {} (asciiKey 64) crowded
    [{ count := 2, now := 0, ops := [.delete 0 [122]] }, { count := 1000, now := 0 }]
    (by decide +kernel) ⟨by decide, by decide +kernel, fun _ => ⟨⟨hother, trivial⟩, by decide,
      by decide +kernel, fun hnext => absurd hnext (by decide +kernel)⟩⟩
  revert hmissed
  decide +kernel

end Store

end Senko
