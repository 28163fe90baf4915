import Senko.Store.Command
import Senko.Store.StreamGroup

/-!
# Senko — the list of `XPENDING` (`senko-store/src/commands/stream/group.rs`)

The ids of the range reach the map of the group as the client gives them, so there is a list only
where the first is not above the second, or where the map never had an entry. A consumer whose name
is no text is not looked for at all.
-/

namespace Senko

open List Option ConsumerGroup
open Std (TreeMap)

def u64Response (n : Nat) : Response := .integer (Store.asI64 n)

structure PendingQuery where
  minIdleMs : Option Nat
  start : StreamId
  stop : StreamId
  count : Nat
  consumer : Option Bytes

/-- `pending_detail`. A range whose start lies above its end makes `BTreeMap::range` panic, but a
map without a root has no entries in any range. -/
def pendingDetail (group : ConsumerGroup) (query : PendingQuery) (nowMs : Nat) :
    Option (List Response) :=
  if query.count = 0 then some []
  else if query.stop < query.start then if group.hasRoot then none else some []
  else
    let consumer := query.consumer.bind CompactString.fromUtf8
    let inRange := group.globalPel.toList.filter fun pending =>
      query.start ≤ pending.1 && pending.1 ≤ query.stop
    let details := inRange.filterMap fun pending =>
      if consumer.any fun expected => expected ≠ pending.2 then none
      else
        ((group.consumers.lookup pending.2).bind fun state => state.pel[pending.1]?).bind
          fun entry =>
          let idleMs := nowMs - entry.deliveryTime
          if query.minIdleMs.any fun minIdle => idleMs ≤ minIdle then none
          else some (.array
            [rawResponse pending.1.toString, rawResponse pending.2.bytes, u64Response idleMs,
              u64Response entry.deliveryCount])
    some (details.take query.count)

/-! ## What is to be listed -/

/-- The record of an id in the list of a consumer. -/
def ConsumerGroup.record (group : ConsumerGroup) (consumer : CompactString) (id : StreamId) :
    Option PelEntry :=
  (group.consumers.lookup consumer).bind fun state => state.pel[id]?

variable {group : ConsumerGroup} {query : PendingQuery} {nowMs : Nat}

/-- What is shown of a pending entry, if it has been idle for long enough. -/
def shownPending (group : ConsumerGroup) (query : PendingQuery) (nowMs : Nat)
    (pending : StreamId × CompactString) : Option Response :=
  (group.record pending.2 pending.1).bind fun entry =>
    let idleMs := nowMs - entry.deliveryTime
    if query.minIdleMs.any fun minIdle => idleMs ≤ minIdle then none
    else some (.array
      [rawResponse pending.1.toString, rawResponse pending.2.bytes, u64Response idleMs,
        u64Response entry.deliveryCount])

/-- The entries in the range of the query whose owner is selected, in the order of their ids. -/
def pendingInRange (group : ConsumerGroup) (query : PendingQuery) (nowMs : Nat)
    (selects : CompactString → Bool) : List Response :=
  (group.globalPel.toList.filter fun pending =>
    query.start ≤ pending.1 && pending.1 ≤ query.stop).filterMap fun pending =>
      if selects pending.2 then shownPending group query nowMs pending else none

/-- **What `XPENDING` is to list**: the first entries in the range that pass the filters. -/
def pendingMatches (group : ConsumerGroup) (query : PendingQuery) (nowMs : Nat) : List Response :=
  (pendingInRange group query nowMs fun owner => query.consumer.all (· = owner.bytes)).take
    query.count

/-- The ids are in order, and the name of the consumer is a text or there is nothing to show. -/
def PendingQuery.Answered (query : PendingQuery) (group : ConsumerGroup) (nowMs : Nat) : Prop :=
  query.start ≤ query.stop ∧ ((∀ name ∈ query.consumer, validUtf8 name) ∨
    pendingInRange group query nowMs (fun _ => true) = [])

theorem pendingDetail_eq (hcount : query.count ≠ 0) (hrange : query.start ≤ query.stop) :
    pendingDetail group query nowMs = some ((pendingInRange group query nowMs fun owner =>
      (query.consumer.bind CompactString.fromUtf8).all (· = owner)).take query.count) := by
  rw [pendingDetail, if_neg hcount, if_neg (not_lt.2 hrange)]
  dsimp only [pendingInRange, shownPending, record]
  cases query.consumer.bind CompactString.fromUtf8 <;> simp

/-- **`XPENDING` is exact where the ids are in order and the name of the consumer is a text**, and
in a group that never had a pending entry. -/
theorem pending_detail_exact (group : ConsumerGroup) (query : PendingQuery) (nowMs : Nat) :
    pendingDetail group query nowMs = some (pendingMatches group query nowMs) ↔
      query.count = 0 ∨ group.hasRoot = false ∨ query.Answered group nowMs := by
  by_cases hcount : query.count = 0
  · simp [pendingDetail, pendingMatches, hcount]
  by_cases hroot : group.hasRoot = false
  · have hempty : group.globalPel.toList = [] := by
      rw [← List.isEmpty_iff, TreeMap.isEmpty_toList]
      simpa using (Bool.or_eq_false_iff.1 hroot).2
    simp [pendingDetail, pendingMatches, pendingInRange, hroot, hempty]
  by_cases hrange : query.start ≤ query.stop
  · rw [pendingDetail_eq hcount hrange, pendingMatches, PendingQuery.Answered]
    rcases hname : query.consumer with _ | name
    · simp [hrange]
    by_cases hvalid : validUtf8 name
    · simp [CompactString.fromUtf8, hvalid, hrange, CompactString.ext_iff]
    -- no owner has the name, and all entries are shown
    have hnone : pendingInRange group query nowMs (fun owner => (some name).all (· = owner.bytes)) =
        [] := by
      refine filterMap_eq_nil_iff.2 fun pending _ => if_neg fun hsame => ?_
      rw [of_decide_eq_true hsame] at hvalid
      exact hvalid pending.2.valid
    rw [hnone]
    simp [CompactString.fromUtf8, hvalid, hrange, hcount, hroot]
  · simp [pendingDetail, hcount, hrange, not_le.1 hrange, hroot, PendingQuery.Answered]

/-- A range that starts above its end has no list, in a group with a pending entry. -/
theorem pending_detail_exact_fails :
    ¬ ∀ (group : ConsumerGroup) (query : PendingQuery) (nowMs : Nat),
      pendingDetail group query nowMs = some (pendingMatches group query nowMs) := by
  intro h
  have hpanic := h (addPendingEntry { lastDeliveredId := .zero, entriesRead := 1 } ⟨[99], by decide⟩
    ⟨1, 0⟩ 0 1) ⟨none, ⟨1, 0⟩, .zero, 1, none⟩ 0
  cases hpanic

end Senko
