import Senko.Cluster.Backlog
import Senko.Cluster.ReplicaStore
import Mathlib.Data.List.MinMax

/-!
# Senko — partial resynchronization

A replica that reconnects names one offset, the greatest one it has seen on any shard, and the
primary streams every shard from there. Each shard has offsets of its own, so this is where the
replica stands on a shard only if its part of the log ends at that very offset. The primary checks
no more than that the offset lies between tail and head on every shard. Hence the theorem: when the
primary accepts, the resynchronization is sound for every command semantics just if the replica has
applied the same number of bytes on all shards that it follows.
-/

namespace Senko.Cluster

open List PrimaryReplicationState ReplBuffer ReplFrame

variable {entry : ReplFrame × Nat} {s : ShardReplication} {frames : Nat → List ReplFrame}
  {r : ReplicaApplyState} {indices : List Nat} {σ : Type} {ops : StoreOps σ} {log : List Bytes}
  {shard evicted : Nat} {frame : ReplFrame} {stream received : List (ReplFrame × Nat)}
  {initial final : List σ} {done : Nat → Nat}

/-! ## Streams of commands -/

section Streams

/-- The frames for a stretch of log that starts at an offset. -/
def commandFrames (shard : Nat) : Nat → List Bytes → List ReplFrame
  | _, [] => []
  | start, payload :: log =>
    .command shard (start + (4 + payload.length)) payload ::
      commandFrames shard (start + (4 + payload.length)) log

/-- Commands run one after the other; `none` if one of them fails. -/
def runCommands (ops : StoreOps σ) : σ → List Bytes → Option σ
  | store, [] => some store
  | store, wire :: log =>
    match ops.execute store wire with
    | some (.ok _, store) => runCommands ops store log
    | _ => none

/-- What the store of a shard becomes when it runs a stretch of log. -/
def ranOn (ops : StoreOps σ) (stores : List σ) (shard : Nat) (log : List Bytes) : Option σ :=
  stores[shard]?.bind fun store => runCommands ops store log

/-- The frames of a stream that are for a shard. -/
def seenBy (shard : Nat) (stream : List (ReplFrame × Nat)) : List ReplFrame :=
  (stream.map Prod.fst).filter fun frame => frame.shard = shard

/-- The greatest offset of a stream. -/
def maxOffset (stream : List (ReplFrame × Nat)) : Nat :=
  (stream.map fun (frame, _) => frame.offset).foldr max 0

theorem runCommands_append (store : σ) (front back : List Bytes) :
    runCommands ops store (front ++ back) =
      (runCommands ops store front).bind fun store => runCommands ops store back := by
  induction front generalizing store with
  | nil => rfl
  | cons wire front ih =>
    rw [cons_append, runCommands, runCommands]
    split
    · exact ih _
    · rfl

theorem ranOn_append (stores : List σ) (shard : Nat) (front back : List Bytes) :
    ranOn ops stores shard (front ++ back) =
      (ranOn ops stores shard front).bind fun store => runCommands ops store back := by
  simp only [ranOn, runCommands_append, Option.bind_assoc]

theorem runCommands_cons {store store' : σ} {wire : Bytes}
    (h : runCommands ops store (wire :: log) = some store') :
    ∃ next, ops.execute store wire = some (.ok (), next) ∧
      runCommands ops next log = some store' := by
  rw [runCommands] at h
  split at h
  · exact ⟨_, by assumption, h⟩
  · cases h

theorem payloads_commandFrames (shard start : Nat) (log : List Bytes) :
    (commandFrames shard start log).map payload = log := by
  induction log generalizing start with
  | nil => rfl
  | cons payload log ih =>
    rw [commandFrames, map_cons, ih]
    rfl

theorem mem_commandFrames {start : Nat} (h : frame ∈ commandFrames shard start log) :
    frame.frameType = .command ∧ frame.shard = shard ∧ frame.offset ≤ start + logSize log := by
  induction log generalizing start with
  | nil => cases h
  | cons payload log ih =>
    rw [logSize_cons]
    rcases mem_cons.1 h with rfl | h
    · refine ⟨rfl, rfl, ?_⟩
      show start + (4 + payload.length) ≤ _
      omega
    · obtain ⟨htype, hshard, hoffset⟩ := ih h
      exact ⟨htype, hshard, by omega⟩

/-- The last frame of a stretch ends where the stretch ends. -/
theorem exists_mem_commandFrames {start : Nat} (h : log ≠ []) :
    ∃ frame ∈ commandFrames shard start log, frame.offset = start + logSize log := by
  induction log generalizing start with
  | nil => exact absurd rfl h
  | cons payload log ih =>
    rw [logSize_cons]
    by_cases hlast : log = []
    · subst hlast
      exact ⟨_, mem_cons_self, by rw [logSize_nil]; rfl⟩
    · have hrest : ∃ frame ∈ commandFrames shard (start + (4 + payload.length)) log,
          frame.offset = start + (4 + payload.length) + logSize log := ih hlast
      obtain ⟨frame, hmem, hoffset⟩ := hrest
      exact ⟨frame, mem_cons_of_mem _ hmem, by rw [hoffset]; omega⟩

theorem seenBy_cons (shard : Nat) (frame : ReplFrame) (nowMs : Nat)
    (stream : List (ReplFrame × Nat)) :
    seenBy shard ((frame, nowMs) :: stream) =
      if frame.shard = shard then frame :: seenBy shard stream else seenBy shard stream := by
  rw [seenBy, map_cons, filter_cons]
  simp only [decide_eq_true_eq]
  rfl

theorem mem_seenBy (h : entry ∈ stream) : entry.1 ∈ seenBy entry.1.shard stream := by
  rw [seenBy, mem_filter]
  exact ⟨mem_map_of_mem h, by simp⟩

theorem of_mem_seenBy (h : frame ∈ seenBy shard stream) :
    frame.shard = shard ∧ ∃ entry ∈ stream, entry.1 = frame := by
  rw [seenBy, mem_filter] at h
  exact ⟨by simpa using h.2, mem_map.1 h.1⟩

theorem le_maxOffset (h : entry ∈ stream) : entry.1.offset ≤ maxOffset stream :=
  le_max_of_le (mem_map_of_mem h) le_rfl

theorem maxOffset_le {bound : Nat} (h : ∀ entry ∈ stream, entry.1.offset ≤ bound) :
    maxOffset stream ≤ bound :=
  max_le_of_forall_le _ _ (forall_mem_map.2 h)

namespace ReplicaApplyState

theorem noteProgress_spec (r : ReplicaApplyState) (offset bytes nowMs : Nat) :
    (r.noteProgress offset bytes nowMs).2.replicationOffset = max r.replicationOffset offset ∧
      (r.noteProgress offset bytes nowMs).2.shardMask = r.shardMask := by
  unfold noteProgress
  dsimp only
  split_ifs <;> exact ⟨rfl, rfl⟩

/-- A command frame for a shard that is followed. -/
theorem applyFrame_command {stores : List σ} {store next : σ} (nowMs : Nat)
    (htype : frame.frameType = .command) (hmask : maskContainsShard r.shardMask frame.shard)
    (hstore : stores[frame.shard]? = some store)
    (hrun : ops.execute store frame.payload = some (.ok (), next)) :
    ∃ ack r', r.applyFrame ops frame stores nowMs =
        some (.ok ack, r', stores.set frame.shard next) ∧
      r'.replicationOffset = max r.replicationOffset frame.offset ∧ r'.shardMask = r.shardMask := by
  refine ⟨(r.noteProgress frame.offset frame.payload.length nowMs).1, _, ?_,
    r.noteProgress_spec frame.offset frame.payload.length nowMs⟩
  simp only [applyFrame, htype, applyTo, hmask, Bool.not_true, Bool.false_eq_true, if_false, hstore,
    hrun]

variable (ops) in
/-- **A stream of commands**, in any interleaving of the shards: every shard runs the commands that
it sees, and the offset becomes the greatest of all. -/
theorem applyAll_commands (r : ReplicaApplyState) (stores : List σ)
    (stream : List (ReplFrame × Nat))
    (hcommand : ∀ entry ∈ stream,
      entry.1.frameType = .command ∧ maskContainsShard r.shardMask entry.1.shard)
    (hruns : ∀ entry ∈ stream, (ranOn ops stores entry.1.shard
      ((seenBy entry.1.shard stream).map payload)).isSome) :
    ∃ r' stores', r.applyAll ops stores stream = some (r', stores') ∧
      r'.replicationOffset = max r.replicationOffset (maxOffset stream) ∧
      r'.shardMask = r.shardMask ∧ ∀ shard,
        stores'[shard]? = ranOn ops stores shard ((seenBy shard stream).map payload) := by
  induction stream generalizing r stores with
  | nil =>
    refine ⟨r, stores, rfl, (Nat.max_zero _).symm, rfl, fun shard => ?_⟩
    exact (Option.bind_fun_some _).symm
  | cons first stream ih =>
    obtain ⟨frame, nowMs⟩ := first
    obtain ⟨htype, hmask⟩ := hcommand _ mem_cons_self
    obtain ⟨store', hrun⟩ := Option.isSome_iff_exists.1 (hruns _ mem_cons_self)
    obtain ⟨store, hstore, hrun⟩ := Option.bind_eq_some_iff.1 hrun
    rw [seenBy_cons, if_pos rfl, map_cons] at hrun
    obtain ⟨next, hexecute, -⟩ := runCommands_cons hrun
    obtain ⟨ack, r₁, happly, hoffset, hmask₁⟩ :=
      applyFrame_command nowMs htype hmask hstore hexecute
    -- the frame is run where it belongs, and the other shards see nothing of it
    have hlater : ∀ shard, ranOn ops (stores.set frame.shard next) shard
        ((seenBy shard stream).map payload) =
          ranOn ops stores shard ((seenBy shard ((frame, nowMs) :: stream)).map (·.payload)) := by
      intro shard
      rw [seenBy_cons, ranOn, ranOn]
      by_cases hshard : frame.shard = shard
      · subst hshard
        have hlt := (List.getElem?_eq_some_iff.1 hstore).1
        rw [if_pos rfl, map_cons, getElem?_set_self hlt, hstore, Option.bind_some, Option.bind_some,
          runCommands, hexecute]
      · rw [if_neg hshard, getElem?_set_ne hshard]
    obtain ⟨r', stores', hall, hoffset', hmask', hstores⟩ := ih r₁
      (stores.set frame.shard next)
      (fun entry hmem => hmask₁ ▸ hcommand entry (mem_cons_of_mem _ hmem))
      (fun entry hmem => hlater _ ▸ hruns entry (mem_cons_of_mem _ hmem))
    refine ⟨r', stores', ?_, ?_, hmask'.trans hmask₁, fun shard => ?_⟩
    · rw [applyAll, happly]
      exact hall
    · rw [hoffset', hoffset, Nat.max_assoc]
      rfl
    · rw [hstores, hlater]

end ReplicaApplyState

end Streams

/-! ## Streaming a shard -/

/-- From the start of a record that is kept, the rest of the log is streamed. -/
theorem streamLoop_boundary (h : s.backlog.Holds log evicted) {k room : Nat} (hk : evicted ≤ k)
    (hroom : log.length - k ≤ room) :
    streamLoop s room (logSize (log.take k)) =
      .ok (commandFrames s.shard (logSize (log.take k)) (log.drop k)) := by
  induction room generalizing k with
  | zero =>
    rw [drop_of_length_le (by omega)]
    rfl
  | succ room ih =>
    cases hget : log[k]? with
    | none =>
      -- the end of the log: there is no data at the head
      have hle : log.length ≤ k := List.getElem?_eq_none_iff.1 hget
      have hhead := h.head_eq
      have htail := h.tail
      rw [take_of_length_le hle, drop_of_length_le hle, streamLoop,
        ShardReplication.nextFrame, readRecord,
        readFrom, if_neg (by omega), if_pos (by omega)]
      rfl
    | some payload =>
      obtain ⟨hlt, hval⟩ := List.getElem?_eq_some_iff.1 hget
      have hdrop : log.drop k = payload :: log.drop (k + 1) := by
        rw [← hval, getElem_cons_drop]
      have hrest := ih (k := k + 1) (by omega) (by omega)
      rw [logSize_take_succ hget] at hrest
      rw [streamLoop, ShardReplication.nextFrame, h.readRecord hk hget, logSize_take_succ hget]
      simp only [command, hrest]
      rw [hdrop, commandFrames]
      rfl

/-- Wherever streaming starts, what is streamed fits between the start and the head. -/
theorem streamLoop_bound {bytes : Bytes} (h : s.backlog.Logs bytes)
    (hfar : s.backlog.head < 2 ^ 63) {room offset : Nat} {frames : List ReplFrame}
    (hoffset : offset ≤ s.backlog.head)
    (hframes : streamLoop s room offset = .ok frames) :
    offset + logSize (frames.map payload) ≤ s.backlog.head ∧
      ∀ frame ∈ frames, frame.frameType = .command ∧ frame.shard = s.shard := by
  induction room generalizing offset frames with
  | zero =>
    cases hframes
    exact ⟨hoffset, fun frame hmem => by cases hmem⟩
  | succ room ih =>
    rw [streamLoop, ShardReplication.nextFrame] at hframes
    rcases hread : s.backlog.readRecord offset with e | record
    · rw [hread] at hframes
      cases e <;> cases hframes
      exact ⟨hoffset, fun frame hmem => by cases hmem⟩
    obtain ⟨hend, hbefore⟩ := h.readRecord_bound hfar hread
    rw [hread] at hframes
    simp only [command] at hframes
    rcases hrest : streamLoop s room record.endOffset with e | rest
    · rw [hrest] at hframes
      cases hframes
    rw [hrest] at hframes
    cases hframes
    obtain ⟨hsize, hall⟩ := ih hbefore hrest
    constructor
    · rw [map_cons, logSize_cons]
      show offset + (4 + record.payload.length + _) ≤ _
      omega
    · exact forall_mem_cons.2 ⟨⟨rfl, rfl⟩, hall⟩

/-! ## The handshake -/

theorem mem_shardIndices {mask : BitVec 64} {count : Nat} (hlt : shard < count)
    (hmask : maskContainsShard mask shard) (h : shardIndicesFromMask mask count = .ok indices) :
    shard ∈ indices := by
  rw [maskContainsShard, Bool.and_eq_true, decide_eq_true_eq] at hmask
  rw [shardIndicesFromMask] at h
  split_ifs at h
  · simp only at h
    split_ifs at h
    cases h
    rw [mem_filter, mem_range, Nat.mod_eq_of_lt hmask.1]
    exact ⟨hlt, hmask.2⟩

theorem PrimaryReplicationState.le_bounds {p : PrimaryReplicationState}
    (hmem : shard ∈ indices) (hshard : p.shards[shard]? = some s) :
    s.backlog.tail ≤ (p.bounds indices).1 ∧ (p.bounds indices).2 ≤ s.backlog.head := by
  have hs : s ∈ indices.filterMap (p.shards[·]?) := mem_filterMap.2 ⟨shard, hmem, hshard⟩
  -- the fold only widens what it has, and takes every shard in
  have hfold : ∀ (shards : List ShardReplication) (start : Nat × Nat),
      let bounds := shards.foldl (fun bounds shard =>
        (max bounds.1 shard.backlog.tail, min bounds.2 shard.backlog.head)) start
      (start.1 ≤ bounds.1 ∧ bounds.2 ≤ start.2) ∧
        (s ∈ shards → s.backlog.tail ≤ bounds.1 ∧ bounds.2 ≤ s.backlog.head) := by
    intro shards
    induction shards with
    | nil => exact fun start => ⟨⟨le_refl _, le_refl _⟩, fun hmem => by cases hmem⟩
    | cons first shards ih =>
      intro start
      obtain ⟨⟨hold, hnew⟩, hin⟩ :=
        ih (max start.1 first.backlog.tail, min start.2 first.backlog.head)
      refine ⟨⟨le_trans (le_max_left _ _) hold, le_trans hnew (min_le_left _ _)⟩, fun hmem => ?_⟩
      rcases mem_cons.1 hmem with rfl | hmem
      · exact ⟨le_trans (le_max_right _ _) hold, le_trans hnew (min_le_right _ _)⟩
      · exact hin hmem
  exact (hfold _ (0, u64Max)).2 hs

/-! ## Reconnecting -/

/-- A replica that has applied the first `done i` records of every shard `i` that it follows, as
the frames of `received`. -/
structure Reconnect where
  primary : PrimaryReplicationState
  log : Nat → List Bytes
  mask : BitVec 64
  done : Nat → Nat
  received : List (ReplFrame × Nat)

namespace Reconnect

variable (c : Reconnect)

/-- The shards that the replica follows. -/
def Follows (shard : Nat) : Prop :=
  shard < c.primary.shards.length ∧ maskContainsShard c.mask shard
deriving Decidable

/-- The number of bytes of the log that the replica has applied on a shard. -/
def appliedBytes (shard : Nat) : Nat := logSize ((c.log shard).take (c.done shard))

/-- The backlog of every shard was filled by appends whose lengths can be counted, and the replica
has received the front parts of the logs, in any interleaving. -/
structure Valid : Prop where
  mask : c.mask ≠ 0#64
  backlog : ∀ shard s, c.primary.shards[shard]? = some s → s.shard = shard ∧
    ∃ capacity calls, ReplBuffer.Countable (max capacity 8) calls ∧
      (ReplBuffer.withCapacity capacity).appendAll [] calls = some (s.backlog, c.log shard)
  received : ∀ shard, seenBy shard c.received =
    if c.Follows shard then commandFrames shard 0 ((c.log shard).take (c.done shard)) else []

/-- The offsets of the logs are below `2 ^ 63`: no length that is read from a place between two
records leads around the end of `u64`. -/
def Near : Prop :=
  ∀ shard < c.primary.shards.length, logSize (c.log shard) < 2 ^ 63

/-- What the replica sends when it reconnects. -/
def hello (offset : Nat) : ReplHello := ⟨0, 0, offset, c.mask⟩

/-- The primary lets the replica go on from an offset. -/
def Accepts (offset : Nat) : Prop :=
  ∃ ack, c.primary.handshake (c.hello offset) = .ok ack ∧ ack.status = .ok

/-- **The replica stands at the same offset on all shards that it follows.** -/
def Aligned : Prop :=
  ∀ shard shard', c.Follows shard → c.Follows shard' → c.appliedBytes shard = c.appliedBytes shard'

/-- The stores of the primary: it has run the whole logs. -/
def Runs {σ : Type} (ops : StoreOps σ) (initial final : List σ) : Prop :=
  ∀ shard, c.Follows shard → ∃ store store', initial[shard]? = some store ∧
    runCommands ops store (c.log shard) = some store' ∧ final[shard]? = some store'

/-- **The resynchronization is sound**: the replica has applied what it received, and if the
primary accepts the offset, then every shard can be streamed from it, and applying the frames, in
any interleaving and at any times, gives the stores of the primary. -/
def Resyncs {σ : Type} (ops : StoreOps σ) (initial final : List σ) : Prop :=
  ∃ start r stores, ReplicaApplyState.new 0 c.mask = .ok start ∧
    start.applyAll ops initial c.received = some (r, stores) ∧
    (c.Accepts r.replicationOffset →
      ∀ maxFrames, (∀ shard, c.Follows shard → (c.log shard).length ≤ maxFrames) →
      ∃ frames : Nat → List ReplFrame,
        (∀ shard, c.Follows shard →
          c.primary.streamAvailable shard r.replicationOffset maxFrames = .ok (frames shard)) ∧
        ∀ stream, (∀ shard, seenBy shard stream = if c.Follows shard then frames shard else []) →
          ∃ r' stores', r.applyAll ops stores stream = some (r', stores') ∧
            ∀ shard, c.Follows shard → stores'[shard]? = final[shard]?)

variable {c}

theorem Valid.holds (h : c.Valid) (hshard : c.primary.shards[shard]? = some s) :
    ∃ evicted, s.backlog.Holds (c.log shard) evicted := by
  obtain ⟨-, capacity, calls, hcount, hrun⟩ := h.backlog shard s hshard
  obtain ⟨b, evicted, hrun', hholds⟩ := holds_appendAll hcount
  obtain ⟨hb, hlog⟩ := Prod.mk.inj (Option.some.inj (hrun.symm.trans hrun'))
  rw [hb, hlog]
  exact ⟨evicted, hholds⟩

theorem Valid.mem_received (h : c.Valid) (hmem : entry ∈ c.received) :
    c.Follows entry.1.shard ∧ entry.1.offset ≤ c.appliedBytes entry.1.shard := by
  have hseen := mem_seenBy hmem
  rw [h.received] at hseen
  split_ifs at hseen with hfollows
  · have hoffset := (mem_commandFrames hseen).2.2
    rw [Nat.zero_add] at hoffset
    exact ⟨hfollows, hoffset⟩
  · cases hseen

/-- The offset is at or after the place where the replica stands on any shard. -/
theorem Valid.appliedBytes_le (h : c.Valid) (hfollows : c.Follows shard) :
    c.appliedBytes shard ≤ maxOffset c.received := by
  by_cases hempty : (c.log shard).take (c.done shard) = []
  · rw [appliedBytes, hempty]
    exact Nat.zero_le _
  have hlast : ∃ frame ∈ commandFrames shard 0 ((c.log shard).take (c.done shard)),
      frame.offset = 0 + logSize ((c.log shard).take (c.done shard)) :=
    exists_mem_commandFrames hempty
  obtain ⟨frame, hmem, hoffset⟩ := hlast
  have hseen := h.received shard
  rw [if_pos hfollows] at hseen
  rw [← hseen] at hmem
  obtain ⟨-, entry, hreceived, rfl⟩ := of_mem_seenBy hmem
  rw [Nat.zero_add] at hoffset
  rw [appliedBytes, ← hoffset]
  exact le_maxOffset hreceived

theorem Valid.offset_of_aligned (h : c.Valid) (haligned : c.Aligned)
    (hfollows : c.Follows shard) : maxOffset c.received = c.appliedBytes shard := by
  apply le_antisymm
  · apply maxOffset_le
    intro entry hmem
    obtain ⟨hfollows', hoffset⟩ := h.mem_received hmem
    rwa [haligned shard entry.1.shard hfollows hfollows']
  · exact h.appliedBytes_le hfollows

/-- An accepted offset lies between tail and head on every shard that is followed. -/
theorem Accepts.between {offset : Nat} (h : c.Accepts offset) (hfollows : c.Follows shard)
    (hshard : c.primary.shards[shard]? = some s) :
    s.backlog.tail ≤ offset ∧ offset ≤ s.backlog.head := by
  obtain ⟨ack, hshake, hstatus⟩ := h
  rw [handshake] at hshake
  rcases hindices : shardIndicesFromMask (c.hello offset).shardMask c.primary.shards.length with
    e | indices
  · rw [hindices] at hshake
    cases hshake
  have hmem : shard ∈ indices := mem_shardIndices hfollows.1 hfollows.2 hindices
  have hbounds := le_bounds hmem hshard
  rw [hindices] at hshake
  simp only at hshake
  split_ifs at hshake with hold hnew
  · cases hshake
    cases hstatus
  · cases hshake
    cases hstatus
  · have hoffset : (c.hello offset).offset = offset := rfl
    omega

/-- There is a limit that does not cut a shard off. -/
theorem exists_maxFrames (c : Reconnect) :
    ∃ maxFrames, ∀ shard, c.Follows shard → (c.log shard).length ≤ maxFrames := by
  refine ⟨(Finset.range c.primary.shards.length).sup fun shard => (c.log shard).length, ?_⟩
  exact fun shard hfollows => Finset.le_sup (f := fun i => (c.log i).length)
    (Finset.mem_range.2 hfollows.1)

/-- The frames of the shards one shard after the other: an interleaving of them. -/
def oneByOne (c : Reconnect) (frames : Nat → List ReplFrame) : List (ReplFrame × Nat) :=
  ((List.range c.primary.shards.length).filter fun shard => c.Follows shard).flatMap fun shard =>
    (frames shard).map fun frame => (frame, 0)

theorem seenBy_oneByOne (h : ∀ shard, c.Follows shard → ∀ frame ∈ frames shard, frame.shard = shard)
    (shard : Nat) :
    seenBy shard (c.oneByOne frames) = if c.Follows shard then frames shard else [] := by
  have hpart : ∀ shards : List Nat, shards.Nodup → (∀ i ∈ shards, c.Follows i) →
      seenBy shard (shards.flatMap fun i => (frames i).map fun frame => (frame, 0)) =
        if shard ∈ shards then frames shard else [] := by
    intro shards hnodup hfollows
    induction shards with
    | nil => rfl
    | cons i shards ih =>
      obtain ⟨hi, hnodup⟩ := nodup_cons.1 hnodup
      have hrest := ih hnodup fun j hj => hfollows j (mem_cons_of_mem _ hj)
      have hshards := h i (hfollows i mem_cons_self)
      have hmap : ((frames i).map fun frame => (frame, 0)).map Prod.fst = frames i := by
        rw [map_map]
        exact map_id _
      rw [seenBy] at hrest ⊢
      rw [flatMap_cons, map_append, filter_append, hrest, hmap]
      by_cases hshard : i = shard
      · subst hshard
        rw [if_neg hi, if_pos mem_cons_self, append_nil,
          filter_eq_self.2 fun frame hmem => by simpa using hshards frame hmem]
      have hnone : (frames i).filter (fun frame => decide (frame.shard = shard)) = [] := by
        rw [filter_eq_nil_iff]
        intro frame hmem
        simpa [hshards frame hmem] using hshard
      rw [hnone]
      simp [Ne.symm hshard]
  have hmem : shard ∈ (List.range c.primary.shards.length).filter (fun i => c.Follows i) ↔
      c.Follows shard := by
    rw [mem_filter, mem_range, decide_eq_true_eq]
    exact ⟨.right, fun hfollows => ⟨hfollows.1, hfollows⟩⟩
  rw [oneByOne, hpart _ (nodup_range.filter _) (by simp)]
  simp only [hmem]

/-- A store that remembers the commands it has run. -/
def recorder : StoreOps (List Bytes) where
  execute store wire := some (.ok (), store ++ [wire])
  applySnapshotRecord store _ := some (.ok (), store)

theorem runCommands_recorder (store log : List Bytes) :
    runCommands recorder store log = some (store ++ log) := by
  induction log generalizing store with
  | nil => rw [append_nil]; rfl
  | cons wire log ih =>
    show runCommands recorder (store ++ [wire]) log = _
    rw [ih, append_assoc]
    rfl

/-- A primary whose stores are recorders has the logs as its stores. -/
theorem runs_recorder (c : Reconnect) : c.Runs recorder (List.replicate c.primary.shards.length [])
      ((List.range c.primary.shards.length).map c.log) := by
  intro shard hfollows
  have hlt := hfollows.1
  exact ⟨[], c.log shard, by simp [hlt], runCommands_recorder [] _, by simp [hlt]⟩

section Sound

theorem Valid.new_eq (h : c.Valid) : ReplicaApplyState.new 0 c.mask = .ok ⟨0, 0, c.mask, 0, 0⟩ := by
  rw [ReplicaApplyState.new, if_neg h.mask]

theorem Runs.ranOn_eq (h : c.Runs ops initial final) (hfollows : c.Follows shard) :
    ranOn ops initial shard (c.log shard) = final[shard]? ∧ final[shard]?.isSome := by
  obtain ⟨store, store', hinitial, hrun, hfinal⟩ := h shard hfollows
  rw [ranOn, hinitial, hfinal]
  exact ⟨hrun, rfl⟩

variable (ops) in
/-- A stream that carries the frames of a stretch of log to every shard that is followed. -/
theorem applyAll_of_seenBy (stores : List σ) {stream : List (ReplFrame × Nat)}
    (hmask : r.shardMask = c.mask)
    (hseen : ∀ shard, seenBy shard stream = if c.Follows shard then frames shard else [])
    (htype : ∀ shard, c.Follows shard → ∀ frame ∈ frames shard, frame.frameType = .command)
    (hruns : ∀ shard, c.Follows shard →
      (ranOn ops stores shard ((frames shard).map payload)).isSome) :
    ∃ r' stores', r.applyAll ops stores stream = some (r', stores') ∧
      r'.replicationOffset = max r.replicationOffset (maxOffset stream) ∧ r'.shardMask = c.mask ∧
      ∀ shard, c.Follows shard →
        stores'[shard]? = ranOn ops stores shard ((frames shard).map payload) := by
  have hmem : ∀ entry ∈ stream, c.Follows entry.1.shard ∧ entry.1.frameType = .command := by
    intro entry hentry
    have hframe := mem_seenBy hentry
    rw [hseen] at hframe
    split_ifs at hframe with hfollows
    · exact ⟨hfollows, htype _ hfollows _ hframe⟩
    · cases hframe
  obtain ⟨r', stores', hall, hoffset, hmask', hstores⟩ := r.applyAll_commands ops
    stores stream (fun entry h => ⟨(hmem entry h).2, hmask ▸ (hmem entry h).1.2⟩)
    (fun entry h => by
      rw [hseen, if_pos (hmem entry h).1]
      exact hruns _ (hmem entry h).1)
  refine ⟨r', stores', hall, hoffset, hmask'.trans hmask, fun shard hfollows => ?_⟩
  rw [hstores, hseen, if_pos hfollows]

/-- What the replica has when it reconnects: the front parts of the logs were run. -/
theorem Valid.applyAll_received (hvalid : c.Valid) (hruns : c.Runs ops initial final) :
    ∃ r stores, ReplicaApplyState.applyAll ops ⟨0, 0, c.mask, 0, 0⟩ initial c.received =
        some (r, stores) ∧
      r.replicationOffset = maxOffset c.received ∧ r.shardMask = c.mask ∧
      ∀ shard, c.Follows shard →
        stores[shard]? = ranOn ops initial shard ((c.log shard).take (c.done shard)) := by
  obtain ⟨r, stores, hall, hoffset, hmask, hstores⟩ :=
    applyAll_of_seenBy ops (r := ⟨0, 0, c.mask, 0, 0⟩) initial rfl
      hvalid.received (fun shard _ frame hmem => (mem_commandFrames hmem).1) (by
        intro shard hfollows
        have hrun := hruns.ranOn_eq hfollows
        rw [← hrun.1, ← take_append_drop (c.done shard) (c.log shard), ranOn_append] at hrun
        rw [payloads_commandFrames]
        exact Option.isSome_of_isSome_bind hrun.2)
  refine ⟨r, stores, hall, hoffset.trans (Nat.zero_max _), hmask, fun shard hfollows => ?_⟩
  rw [hstores shard hfollows, payloads_commandFrames]

/-- **Aligned replicas are brought up to date.** -/
theorem Valid.resyncs_of_aligned (hvalid : c.Valid) (haligned : c.Aligned)
    (hruns : c.Runs ops initial final) : c.Resyncs ops initial final := by
  obtain ⟨r, stores, hall, hoffset, hmask, hstores⟩ := hvalid.applyAll_received hruns
  refine ⟨_, r, stores, hvalid.new_eq, hall, ?_⟩
  intro haccepts maxFrames hmax
  refine ⟨fun shard => commandFrames shard (c.appliedBytes shard)
    ((c.log shard).drop (c.done shard)), ?_, ?_⟩
  · -- the offset is the start of the first record that the replica has not applied
    intro shard hfollows
    obtain ⟨s, hs⟩ : ∃ s, c.primary.shards[shard]? = some s :=
      ⟨_, getElem?_eq_getElem hfollows.1⟩
    obtain ⟨evicted, hholds⟩ := hvalid.holds hs
    have hstart : r.replicationOffset = c.appliedBytes shard := by
      rw [hoffset, hvalid.offset_of_aligned haligned hfollows]
    have htail := (haccepts.between hfollows hs).1
    rw [hstart, hholds.tail_eq] at htail
    have hkept : evicted ≤ c.done shard := by
      by_contra hlt
      have hless := logSize_take_lt (not_le.1 hlt) hholds.evicted_le
      rw [appliedBytes] at htail
      omega
    have hlen := hmax shard hfollows
    rw [streamAvailable, hs, hstart]
    show streamLoop s maxFrames _ = _
    rw [appliedBytes, streamLoop_boundary hholds hkept (by omega), (hvalid.backlog shard s hs).1]
    rfl
  · -- the frames run the rest of every log
    intro stream hstream
    have hrest : ∀ shard, c.Follows shard → ranOn ops stores shard ((commandFrames shard
        (c.appliedBytes shard) ((c.log shard).drop (c.done shard))).map payload) =
          final[shard]? := by
      intro shard hfollows
      rw [payloads_commandFrames, ranOn, hstores shard hfollows, ← ranOn_append, take_append_drop,
        (hruns.ranOn_eq hfollows).1]
    obtain ⟨r', stores', hall', -, -, hfinal⟩ := applyAll_of_seenBy ops stores hmask
      hstream (fun shard _ frame hmem => (mem_commandFrames hmem).1)
      fun shard hfollows => hrest shard hfollows ▸ (hruns.ranOn_eq hfollows).2
    exact ⟨r', stores', hall', fun shard hfollows =>
      (hfinal shard hfollows).trans (hrest shard hfollows)⟩

/-- What a sound resynchronization says of the frames that are streamed: they fit between the offset
and the head, and they run the rest of every log, if they run at all. -/
theorem Valid.streamed_of_resyncs (hvalid : c.Valid) (hnear : c.Near)
    (hruns : c.Runs ops initial final) (haccepts : c.Accepts (maxOffset c.received))
    (h : c.Resyncs ops initial final) (maxFrames : Nat)
    (hmax : ∀ shard, c.Follows shard → (c.log shard).length ≤ maxFrames) :
    ∃ frames : Nat → List ReplFrame,
      (∀ shard, c.Follows shard →
        c.primary.streamAvailable shard (maxOffset c.received) maxFrames = .ok (frames shard) ∧
        maxOffset c.received + logSize ((frames shard).map payload) ≤
          logSize (c.log shard)) ∧
      ((∀ shard, c.Follows shard → (ranOn ops initial shard
          ((c.log shard).take (c.done shard) ++ (frames shard).map payload)).isSome) →
        ∀ shard, c.Follows shard → final[shard]? = ranOn ops initial shard
          ((c.log shard).take (c.done shard) ++ (frames shard).map payload)) := by
  obtain ⟨r, stores, hall, hoffset, hmask, hstores⟩ := hvalid.applyAll_received hruns
  obtain ⟨start, r₁, stores₁, hnew, hall₁, hsound⟩ := h
  rw [hvalid.new_eq] at hnew
  cases hnew
  rw [hall] at hall₁
  cases hall₁
  rw [hoffset] at hsound
  obtain ⟨frames, hframes, happly⟩ := hsound haccepts maxFrames hmax
  have hstreamed : ∀ shard, c.Follows shard →
      maxOffset c.received + logSize ((frames shard).map payload) ≤
        logSize (c.log shard) ∧
      ∀ frame ∈ frames shard, frame.frameType = .command ∧ frame.shard = shard := by
    intro shard hfollows
    obtain ⟨s, hs⟩ : ∃ s, c.primary.shards[shard]? = some s :=
      ⟨_, getElem?_eq_getElem hfollows.1⟩
    obtain ⟨evicted, hholds⟩ := hvalid.holds hs
    have hstream := hframes shard hfollows
    rw [streamAvailable, hs] at hstream
    have hhead := hnear shard hfollows.1
    rw [← hholds.head_eq] at hhead
    have hbound := streamLoop_bound hholds.toLogs hhead (haccepts.between hfollows hs).2 hstream
    rwa [hholds.head_eq, (hvalid.backlog shard s hs).1] at hbound
  have hseen : ∀ shard, seenBy shard (c.oneByOne frames) =
      if c.Follows shard then frames shard else [] :=
    seenBy_oneByOne fun shard hfollows frame hmem => ((hstreamed shard hfollows).2 frame hmem).2
  obtain ⟨r', stores', hall', hfinal⟩ := happly _ hseen
  refine ⟨frames, fun shard hfollows => ⟨hframes shard hfollows, (hstreamed shard hfollows).1⟩,
    fun hsome => ?_⟩
  have hrun : ∀ shard, c.Follows shard →
      ranOn ops stores shard ((frames shard).map payload) = ranOn ops initial shard
        ((c.log shard).take (c.done shard) ++ (frames shard).map payload) := by
    intro shard hfollows
    rw [ranOn, hstores shard hfollows, ← ranOn_append]
  obtain ⟨r'', stores'', hall'', -, -, hstores''⟩ := applyAll_of_seenBy ops stores
    hmask hseen (fun shard hfollows frame hmem => ((hstreamed shard hfollows).2 frame hmem).1)
    fun shard hfollows => hrun shard hfollows ▸ hsome shard hfollows
  rw [hall'] at hall''
  cases hall''
  intro shard hfollows
  rw [← hfinal shard hfollows, hstores'' shard hfollows, hrun shard hfollows]

/-- **A replica that is brought up to date whatever the commands do is aligned**: the stores of the
primary that remember all commands have no room for one that is missing or repeated. -/
theorem Valid.aligned_of_resyncs (hvalid : c.Valid) (hnear : c.Near)
    (haccepts : c.Accepts (maxOffset c.received))
    (h : c.Resyncs recorder (List.replicate c.primary.shards.length [])
      ((List.range c.primary.shards.length).map c.log)) : c.Aligned := by
  obtain ⟨maxFrames, hmax⟩ := c.exists_maxFrames
  obtain ⟨frames, hframes, hfinal⟩ :=
    hvalid.streamed_of_resyncs hnear c.runs_recorder haccepts h maxFrames hmax
  have hran : ∀ shard log, c.Follows shard →
      ranOn recorder (List.replicate c.primary.shards.length []) shard log = some log := by
    intro shard log hfollows
    simp [ranOn, hfollows.1, runCommands_recorder]
  have hat : ∀ shard, c.Follows shard → c.appliedBytes shard = maxOffset c.received := by
    intro shard hfollows
    have hlog := hfinal (fun shard hfollows => by rw [hran shard _ hfollows]; rfl) shard hfollows
    rw [hran shard _ hfollows, getElem?_map, getElem?_range hfollows.1] at hlog
    have hsize := congrArg logSize (Option.some.inj hlog)
    rw [logSize_append] at hsize
    have hbound := (hframes shard hfollows).2
    have hle := hvalid.appliedBytes_le hfollows
    rw [appliedBytes] at hle ⊢
    omega
  intro shard shard' hfollows hfollows'
  rw [hat shard hfollows, hat shard' hfollows']

end Sound

/-- **Partial resynchronization**: when the primary accepts the offset of a replica that has applied
the same number of bytes on all shards that it follows, the replica is brought up to date, whatever
the commands do to the stores. As long as the logs are shorter than `2 ^ 63` bytes, no other replica
is. -/
theorem partial_resync_sound (c : Reconnect) (hvalid : c.Valid)
    (haccepts : c.Accepts (maxOffset c.received)) :
    (c.Aligned → ∀ (σ : Type) (ops : StoreOps σ) (initial final : List σ),
      c.Runs ops initial final → c.Resyncs ops initial final) ∧
    (c.Near → (∀ (σ : Type) (ops : StoreOps σ) (initial final : List σ),
      c.Runs ops initial final → c.Resyncs ops initial final) → c.Aligned) := by
  constructor
  · intro haligned σ ops initial final hruns
    exact hvalid.resyncs_of_aligned haligned hruns
  · intro hnear hall
    apply hvalid.aligned_of_resyncs hnear haccepts
    exact hall _ recorder _ _ c.runs_recorder

/-! ### Two shards -/

/-- `SET key 1`. -/
def setWire (key : UInt8) : Bytes :=
  ascii "*3\r\n$3\r\nSET\r\n$1\r\n" ++ key :: ascii "\r\n$1\r\n1\r\n"

def setOps : StoreOps Store :=
  storeOps Env.plain (fun _ => 0) 0 fun command =>
    if isOpt command "SET" then some (set Env.plain fun _ => 0) else none

/-- A shard with a backlog of 64 bytes. -/
def filled (shard : Nat) (calls : List Bytes) : ShardReplication :=
  { ShardReplication.new shard 64 with
    backlog := (((ReplBuffer.withCapacity 64).appendAll [] calls).map Prod.fst).getD
      (.withCapacity 64) }

/-- Shard 0 has run `SET a 1`, and shard 1 `SET a 1` and `SET b 1`. -/
def twoShards (done : Nat → Nat) (received : List (ReplFrame × Nat)) : Reconnect where
  primary := ⟨0, [filled 0 [setWire 97], filled 1 [setWire 97, setWire 98]]⟩
  log shard := if shard = 0 then [setWire 97] else [setWire 97, setWire 98]
  mask := 3#64
  done := done
  received := received

theorem filled_backlog {calls : List Bytes}
    (h : ((withCapacity 64).appendAll [] calls).map Prod.snd = some calls) :
    (withCapacity 64).appendAll [] calls = some
    ((filled shard calls).backlog, calls) := by
  obtain ⟨⟨b, log⟩, hrun, hlog⟩ := Option.map_eq_some_iff.1 h
  rw [filled, hrun]
  cases hlog
  rfl

theorem follows_twoShards : (twoShards done received).Follows shard ↔ shard < 2 := by
  constructor
  · exact And.left
  · intro hlt
    have hmask : ∀ i < 2, maskContainsShard 3#64 i := by decide
    exact ⟨hlt, hmask shard hlt⟩

theorem twoShards_valid (hzero : seenBy 0 received = commandFrames 0 0 ([setWire 97].take (done 0)))
    (hone : seenBy 1 received = commandFrames 1 0 ([setWire 97, setWire 98].take (done 1)))
    (hothers : ∀ entry ∈ received, entry.1.shard < 2) : (twoShards done received).Valid where
  mask := show 3#64 ≠ 0#64 by decide
  backlog := by
    intro shard s hs
    match shard with
    | 0 =>
      cases hs
      exact ⟨rfl, 64, [setWire 97], ⟨by decide +kernel, by decide +kernel⟩,
        filled_backlog (by decide +kernel)⟩
    | 1 =>
      cases hs
      exact ⟨rfl, 64, [setWire 97, setWire 98], ⟨by decide +kernel, by decide +kernel⟩,
        filled_backlog (by decide +kernel)⟩
    | n + 2 => cases hs
  received := by
    intro shard
    by_cases hfollows : (twoShards done received).Follows shard
    · rw [if_pos hfollows]
      match shard, follows_twoShards.1 hfollows with
      | 0, _ => exact hzero
      | 1, _ => exact hone
    · rw [if_neg hfollows, eq_nil_iff_forall_not_mem]
      intro frame hmem
      obtain ⟨rfl, entry, hentry, rfl⟩ := of_mem_seenBy hmem
      exact hfollows (follows_twoShards.2 (hothers _ hentry))

theorem twoShards_near : (twoShards done received).Near := by
  have hsizes :
      ∀ shard < 2, logSize (if shard = 0 then [setWire 97] else [setWire 97, setWire 98]) <
      2 ^ 63 := by decide +kernel
  exact hsizes

/-- A replica that has the first command of both shards. -/
theorem partial_resync_sound_aligned :
    let c := twoShards (fun _ => 1)
      [(.command 1 31 (setWire 97), 5), (.command 0 31 (setWire 97), 7)]
    (∀ (σ : Type) (ops : StoreOps σ) (initial final : List σ),
      c.Runs ops initial final → c.Resyncs ops initial final) ∧ c.Aligned := by
  intro c
  have hvalid : c.Valid := twoShards_valid (by decide +kernel) (by decide +kernel) (by decide)
  have haccepts : c.Accepts (maxOffset c.received) := ⟨⟨.ok, 0, 31⟩, by decide +kernel, rfl⟩
  have hbytes : ∀ shard < 2, c.appliedBytes shard = 31 := by decide +kernel
  have haligned : c.Aligned := fun shard shard' hfollows hfollows' =>
    (hbytes shard hfollows.1).trans (hbytes shard' hfollows'.1).symm
  have hsound := (partial_resync_sound c hvalid haccepts).1 haligned
  exact ⟨hsound, (partial_resync_sound c hvalid haccepts).2 twoShards_near hsound⟩

/-- **A replica misses a command**: it has the only command of shard 0 and nothing of shard 1. It
reconnects at the offset 31 of shard 0, and shard 1 is streamed from its second command on. -/
theorem partial_resync_sound_fails :
    ¬∀ (c : Reconnect) (initial final : List Store), c.Valid → c.Near →
      c.Runs setOps initial final → c.Resyncs setOps initial final := by
  intro hall
  let c := twoShards (fun shard => if shard = 0 then 1 else 0) [(.command 0 31 (setWire 97), 0)]
  have hvalid : c.Valid :=
    twoShards_valid (by decide +kernel) (by decide +kernel) (by decide)
  let empty := Store.new Env.plain none 0
  -- what the logs do: only the whole log of shard 1 sets `a`
  have hzero : (runCommands setOps empty [setWire 97]).isSome := by decide +kernel
  have hone : (runCommands setOps empty [setWire 97, setWire 98]).map
      (fun s => (s.lookup (ascii "a")).isSome) = some true := by decide +kernel
  have hlast : (ranOn setOps [empty, empty] 1 [setWire 98]).map
      (fun s => (s.lookup (ascii "a")).isSome) = some false := by decide +kernel
  obtain ⟨f₀, hf₀⟩ := Option.isSome_iff_exists.1 hzero
  obtain ⟨f₁, hf₁, ha₁⟩ := Option.map_eq_some_iff.1 hone
  have hruns : c.Runs setOps [empty, empty] [f₀, f₁] := by
    intro shard hfollows
    match shard, follows_twoShards.1 hfollows with
    | 0, _ => exact ⟨empty, f₀, rfl, hf₀, rfl⟩
    | 1, _ => exact ⟨empty, f₁, rfl, hf₁, rfl⟩
  obtain ⟨frames, hframes, hfinal⟩ := hvalid.streamed_of_resyncs twoShards_near hruns
    ⟨⟨.ok, 0, 31⟩, by decide +kernel, rfl⟩ (hall c _ _ hvalid twoShards_near hruns) 2 (by
      intro shard hfollows
      match shard, follows_twoShards.1 hfollows with
      | 0, _ => decide
      | 1, _ => decide)
  have hfollows₁ : c.Follows 1 := follows_twoShards.2 (by decide)
  have hframes₀ : frames 0 = [] := Except.ok.inj
    ((hframes 0 (follows_twoShards.2 (by decide))).1.symm.trans (by decide +kernel))
  have hframes₁ : frames 1 = [.command 1 62 (setWire 98)] :=
    Except.ok.inj ((hframes 1 hfollows₁).1.symm.trans (by decide +kernel))
  have hmissed := hfinal (by
    intro shard hfollows
    match shard, follows_twoShards.1 hfollows with
    | 0, _ => rw [hframes₀]; decide +kernel
    | 1, _ => rw [hframes₁]; decide +kernel) 1 hfollows₁
  rw [hframes₁] at hmissed
  replace hmissed : some f₁ = ranOn setOps [empty, empty] 1 [setWire 98] := hmissed
  rw [← hmissed, Option.map_some, ha₁] at hlast
  cases hlast

end Reconnect

end Senko.Cluster
