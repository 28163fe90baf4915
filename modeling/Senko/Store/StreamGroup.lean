import Senko.Core.Stream
import Senko.Lib.Assoc
import Senko.Lib.Run

/-!
# Senko — consumer groups (`senko-store/src/stream/group.rs`)

A group keeps its pending entries three times: in the list of the consumer that has them, in the
group's map from ids to consumers, and in a counter. `Consistent` says that the three agree. The
functions keep it as long as an id that is pending for one consumer is not given to another.
-/

namespace Senko

open Std (TreeMap)

namespace ConsumerGroup

def createConsumer (group : ConsumerGroup) (consumer : CompactString) (nowMs : Nat) :
    ConsumerGroup × Bool :=
  if (group.consumers.lookup consumer).isSome then (group, false)
  else
    let state : ConsumerState := { seenTime := nowMs, activeTime := nowMs }
    ({ group with consumers := group.consumers.insert consumer state }, true)

/-- The number of entries that were pending for the consumer. -/
def deleteConsumer (group : ConsumerGroup) (consumer : Bytes) : ConsumerGroup × Nat :=
  match CompactString.fromUtf8 consumer with
  | none => (group, 0)
  | some consumer =>
    match group.consumers.lookup consumer with
    | none => (group, 0)
    | some state =>
      ({ group with
          consumers := group.consumers.erase consumer
          globalPel := eraseAll state.pel.keys group.globalPel
          pelCount := group.pelCount - state.pel.size }, state.pel.size)

def setGroupId (stream : StreamObject) (group : ConsumerGroup) (lastDeliveredId : StreamId)
    (entriesRead : Option Nat) : ConsumerGroup :=
  { group with
    lastDeliveredId := if lastDeliveredId = .max then stream.tree.lastId else lastDeliveredId
    entriesRead := entriesRead.getD group.entriesRead }

def insertPending (group : ConsumerGroup) (consumer : CompactString) (entry : PelEntry) :
    ConsumerGroup :=
  let group :=
    if (group.consumers.lookup consumer).isSome then group
    else (group.createConsumer consumer entry.deliveryTime).1
  match group.consumers.lookup consumer with
  | none => group
  | some state =>
    let existed := state.pel.contains entry.id
    let state : ConsumerState :=
      { seenTime := entry.deliveryTime
        activeTime := entry.deliveryTime
        pel := state.pel.insert entry.id entry }
    { group with
      consumers := group.consumers.insert consumer state
      globalPel := group.globalPel.insert entry.id consumer
      globalPelRoot := true
      pelCount := if existed then group.pelCount else group.pelCount + 1 }

def addPendingEntry (group : ConsumerGroup) (consumer : CompactString) (id : StreamId)
    (deliveryTime deliveryCount : Nat) : ConsumerGroup :=
  group.insertPending consumer { id, consumer, deliveryTime, deliveryCount }

def removePendingEntry (group : ConsumerGroup) (id : StreamId) : ConsumerGroup × Option PelEntry :=
  match group.globalPel[id]? with
  | none => (group, none)
  | some owner =>
    let group := { group with globalPel := group.globalPel.erase id }
    match group.consumers.lookup owner with
    | none => (group, none)
    | some state =>
      match state.pel[id]? with
      | none => (group, none)
      | some entry =>
        let state := { state with pel := state.pel.erase id }
        ({ group with
            consumers := group.consumers.insert owner state
            pelCount := group.pelCount - 1 }, some entry)

def ackId (group : ConsumerGroup) (id : StreamId) : ConsumerGroup × Bool :=
  ((group.removePendingEntry id).1, (group.removePendingEntry id).2.isSome)

/-! ## Consistency -/

/-- The ids that are pending for a consumer. -/
def Pending (group : ConsumerGroup) (consumer : CompactString) (id : StreamId) : Prop :=
  ∃ state, group.consumers.lookup consumer = some state ∧ id ∈ state.pel

/-- **The pending lists agree**: the map of the group sends an id to the consumer that has it
pending, and the counter is the size of the map and of the lists together. -/
structure Consistent (group : ConsumerGroup) : Prop where
  owner : ∀ id consumer, group.globalPel[id]? = some consumer ↔ group.Pending consumer id
  size : group.pelCount = group.globalPel.size
  sum : group.pelCount = total (fun state : ConsumerState => state.pel.size) group.consumers

/-- What is done to a group. -/
inductive Op where
  | addPendingEntry (consumer : CompactString) (id : StreamId) (deliveryTime deliveryCount : Nat)
  | insertPending (consumer : CompactString) (entry : PelEntry)
  | ackId (id : StreamId)
  | removePendingEntry (id : StreamId)
  | deleteConsumer (consumer : Bytes)
  | createConsumer (consumer : CompactString) (nowMs : Nat)
  | setGroupId (stream : StreamObject) (lastDeliveredId : StreamId) (entriesRead : Option Nat)

def step (group : ConsumerGroup) : Op → ConsumerGroup
  | .addPendingEntry consumer id deliveryTime deliveryCount =>
    group.addPendingEntry consumer id deliveryTime deliveryCount
  | .insertPending consumer entry => group.insertPending consumer entry
  | .ackId id => (group.ackId id).1
  | .removePendingEntry id => (group.removePendingEntry id).1
  | .deleteConsumer consumer => (group.deleteConsumer consumer).1
  | .createConsumer consumer nowMs => (group.createConsumer consumer nowMs).1
  | .setGroupId stream lastDeliveredId entriesRead =>
    setGroupId stream group lastDeliveredId entriesRead

/-- The id is not pending, or pending for the consumer already. -/
def Free (group : ConsumerGroup) (consumer : CompactString) (id : StreamId) : Prop :=
  ∀ owner, group.globalPel[id]? = some owner → owner = consumer

/-- An operation that takes no id from another consumer. -/
def TakesNone (group : ConsumerGroup) : Op → Prop
  | .addPendingEntry consumer id _ _ => group.Free consumer id
  | .insertPending consumer entry => group.Free consumer entry.id
  | _ => True

section Steps

variable {group : ConsumerGroup} {consumer : CompactString} {id : StreamId}

theorem consistent_new (lastDeliveredId : StreamId) (entriesRead : Nat) :
    Consistent { lastDeliveredId, entriesRead } where
  owner id consumer := by
    constructor
    · intro h
      simp at h
    · rintro ⟨state, h, -⟩
      simp at h
  size := rfl
  sum := rfl

section Consistent

variable (h : group.Consistent)

include h

/-- An id that is free for a consumer is pending for it or for nobody. -/
theorem Consistent.mem_iff {state : ConsumerState}
    (hstate : group.consumers.lookup consumer = some state) (hfree : group.Free consumer id) :
    id ∈ group.globalPel ↔ id ∈ state.pel := by
  rw [TreeMap.mem_iff_isSome_getElem?, Option.isSome_iff_exists]
  constructor
  · rintro ⟨owner, howner⟩
    obtain ⟨state', hstate', hmem⟩ := (h.owner id owner).1 howner
    rw [hfree owner howner, hstate, Option.some.injEq] at hstate'
    exact hstate' ▸ hmem
  · exact fun hmem => ⟨consumer, (h.owner id consumer).2 ⟨state, hstate, hmem⟩⟩

theorem Consistent.createConsumer (consumer : CompactString) (nowMs : Nat) :
    (group.createConsumer consumer nowMs).1.Consistent := by
  unfold ConsumerGroup.createConsumer
  split
  · exact h
  rename_i hnone
  rw [Option.not_isSome_iff_eq_none] at hnone
  refine ⟨fun id other => ?_, h.size, ?_⟩
  · -- the new consumer has nothing pending, and had nothing before
    rw [show _ ↔ _ from h.owner id other]
    unfold Pending
    by_cases hother : other = consumer
    · subst hother
      simp [hnone]
    · simp only [AList.lookup_insert_ne hother]
  · show group.pelCount = total _ (group.consumers.insert consumer _)
    rw [total_insert, erase_of_lookup_eq_none hnone, h.sum]
    simp

/-- A consumer that has a record takes a free id. -/
theorem Consistent.insertPending {entry : PelEntry} (hfree : group.Free consumer entry.id) :
    (group.insertPending consumer entry).Consistent := by
  unfold ConsumerGroup.insertPending
  dsimp only
  generalize hensured : (if (group.consumers.lookup consumer).isSome then group
    else (group.createConsumer consumer entry.deliveryTime).1) = ensured
  have hconsistent : ensured.Consistent := by
    rw [← hensured]
    split
    · exact h
    · exact h.createConsumer consumer _
  replace hfree : ensured.Free consumer entry.id := by
    rw [← hensured]
    split
    · exact hfree
    · unfold ConsumerGroup.createConsumer
      split <;> exact hfree
  rcases hstate : ensured.consumers.lookup consumer with _ | state
  · exact hconsistent
  have hmem := hconsistent.mem_iff hstate hfree
  refine ⟨fun id other => ?_, ?_, ?_⟩
  · rw [getElem?_insert_eq]
    unfold Pending
    by_cases hother : other = consumer
    · subst hother
      have howner := hconsistent.owner id other
      rw [Pending, hstate] at howner
      by_cases hid : entry.id = id
      · simp [hid]
      · simp [hid, howner]
    simp only [AList.lookup_insert_ne hother]
    have howner := hconsistent.owner id other
    rw [Pending] at howner
    rw [← howner]
    by_cases hid : entry.id = id
    · subst hid
      simp only [if_true, Option.some.injEq, Ne.symm hother, false_iff]
      exact fun hpending => hother (hfree other hpending)
    · simp [hid]
  · have hcontains : ensured.globalPel.contains entry.id = state.pel.contains entry.id := by
      rw [Bool.eq_iff_iff, TreeMap.contains_iff_mem, TreeMap.contains_iff_mem]
      exact hmem
    rw [TreeMap.size_insert, hcontains, hconsistent.size]
  · dsimp only
    rw [total_insert, TreeMap.size_insert, hconsistent.sum, total_of_lookup hstate]
    split <;> omega

/-- A pending id is taken out of all three. -/
theorem Consistent.removePendingEntry (id : StreamId) :
    (group.removePendingEntry id).1.Consistent := by
  unfold ConsumerGroup.removePendingEntry
  rcases howner : group.globalPel[id]? with _ | owner
  · exact h
  obtain ⟨state, hstate, hmem⟩ := (h.owner id owner).1 howner
  obtain ⟨entry, hentry⟩ := Option.isSome_iff_exists.1 (TreeMap.mem_iff_isSome_getElem?.1 hmem)
  have hglobal : group.globalPel.contains id = true := by
    rw [TreeMap.contains_eq_isSome_getElem?, howner]
    rfl
  dsimp only
  rw [hstate]
  dsimp only
  rw [hentry]
  refine ⟨fun other consumer => ?_, ?_, ?_⟩
  · rw [getElem?_erase_eq]
    unfold Pending
    have hold := h.owner other consumer
    rw [Pending] at hold
    by_cases hconsumer : consumer = owner
    · subst hconsumer
      rw [hstate] at hold
      by_cases hid : id = other
      · simp [hid]
      · simp [hold]
    simp only [AList.lookup_insert_ne hconsumer]
    rw [← hold]
    by_cases hid : id = other
    · subst hid
      simp [howner, Ne.symm hconsumer]
    · simp [hid]
  · rw [TreeMap.size_erase, if_pos hglobal, h.size]
  · dsimp only
    rw [total_insert, TreeMap.size_erase, if_pos (TreeMap.contains_iff_mem.2 hmem), h.sum,
      total_of_lookup hstate]
    have hpos : state.pel.size ≠ 0 := by
      have hempty := TreeMap.isEmpty_eq_false_of_contains (TreeMap.contains_iff_mem.2 hmem)
      rw [TreeMap.isEmpty_eq_size_eq_zero] at hempty
      simpa using hempty
    omega

/-- A consumer goes with everything that is pending for it. -/
theorem Consistent.deleteConsumer (consumer : Bytes) :
    (group.deleteConsumer consumer).1.Consistent := by
  unfold ConsumerGroup.deleteConsumer
  split
  · exact h
  rename_i name _
  rcases hstate : group.consumers.lookup name with _ | state
  · exact h
  have hpending : ∀ id, group.globalPel[id]? = some name ↔ id ∈ state.pel := by
    intro id
    have howner := h.owner id name
    rw [Pending, hstate] at howner
    simpa only [Option.some.injEq, exists_eq_left'] using howner
  have hsize := size_eraseAll (TreeMap.nodup_keys (t := state.pel)) group.globalPel fun id hid => by
    rw [TreeMap.mem_iff_isSome_getElem?, (hpending id).2 (TreeMap.mem_keys.1 hid)]
    rfl
  rw [TreeMap.length_keys] at hsize
  refine ⟨fun id other => ?_, ?_, ?_⟩
  · rw [getElem?_eraseAll]
    unfold Pending
    by_cases hother : other = name
    · subst hother
      by_cases hid : id ∈ state.pel
      · simp [hid]
      · simp [hpending]
    simp only [AList.lookup_erase_ne hother]
    have howner := h.owner id other
    rw [Pending] at howner
    rw [← howner]
    by_cases hid : id ∈ state.pel
    · simp [(hpending id).2 hid, Ne.symm hother]
    · simp [hid]
  · dsimp only
    rw [h.size]
    omega
  · dsimp only
    rw [h.sum, total_of_lookup hstate]
    omega

/-- **One operation that takes no id from another consumer keeps the pending lists in agreement.**
-/
theorem Consistent.step (op : Op) (hsafe : group.TakesNone op) : (group.step op).Consistent := by
  cases op with
  | addPendingEntry | insertPending => exact h.insertPending hsafe
  | ackId id | removePendingEntry id => exact h.removePendingEntry id
  | deleteConsumer consumer => exact h.deleteConsumer consumer
  | createConsumer consumer nowMs => exact h.createConsumer consumer nowMs
  | setGroupId stream lastDeliveredId entriesRead => exact ⟨h.owner, h.size, h.sum⟩

end Consistent

end Steps

/-! ## Runs -/

/-- **The pending lists of a group agree** after every run in which no id is delivered to a consumer
while it is pending for another. -/
theorem pending_lists_agree (lastDeliveredId : StreamId) (entriesRead : Nat) (ops : List Op)
    (hsafe : RunAll step TakesNone { lastDeliveredId, entriesRead } ops) :
    Consistent (ops.foldl step { lastDeliveredId, entriesRead }) :=
  hsafe.induction (fun _ op h hop => h.step op hop) (consistent_new lastDeliveredId entriesRead)

/-- An id is delivered to a consumer again, after the group was set back, and then acknowledged. -/
theorem pending_lists_agree_redelivered : let alice : CompactString := ⟨[97], by decide⟩
    let id : StreamId := ⟨1, 0⟩
    let ops : List Op := [.addPendingEntry alice id 5 1, .setGroupId {} .zero none,
      .addPendingEntry alice id 6 1, .ackId id]
    (ops.foldl step { lastDeliveredId := .zero, entriesRead := 0 }).pelCount = 0 := by
  intro alice id ops
  have hsafe : RunAll step TakesNone { lastDeliveredId := .zero, entriesRead := 0 } ops := by
    refine ⟨fun owner h => ?_, trivial, fun owner h => ?_, trivial, trivial⟩
    · simp at h
    · exact (Option.some.inj h).symm
  have hagree := pending_lists_agree .zero 0 ops hsafe
  rw [hagree.size]
  decide

/-- **A redelivery to another consumer breaks the agreement**: the first consumer keeps its record,
and the entry is counted twice. -/
theorem pending_lists_agree_fails : ¬ ∀ (lastDeliveredId : StreamId) (entriesRead : Nat)
    (ops : List Op), Consistent (ops.foldl step { lastDeliveredId, entriesRead }) := by
  intro h
  have hsize := (h .zero 0 [.addPendingEntry ⟨[97], by decide⟩ ⟨1, 0⟩ 5 1,
    .setGroupId {} .zero none, .addPendingEntry ⟨[98], by decide⟩ ⟨1, 0⟩ 6 1]).size
  revert hsize
  decide

end ConsumerGroup

end Senko
