import Senko.Core.Utf8
import Senko.Lib.Run

/-!
# Senko — votes of a sentinel

A sentinel keeps, for every master, the last epoch it has heard of and the vote it gave in it. A
vote request raises that epoch by the epoch of the request, an election of its own takes the epoch
after that of its world, which requests do not raise. So its own election can come back to an epoch
in which it has voted for another sentinel. Where each own election takes an epoch the sentinel has
not voted in yet, it votes once in an epoch.
-/

namespace Senko.Sentinel

abbrev SentinelId := CompactString

/-- The part of a master's state that elections write. -/
structure MasterState where
  leader : Option SentinelId := none
  leaderEpoch : Nat := 0
  failoverEpoch : Nat := 0

structure WorldSnapshot where
  masters : String → Option MasterState
  epoch : Nat

structure ElectionState where
  epoch : Nat := 0
  votesReceived : SentinelId → Option Nat := fun _ => none
  voteGrantedTo : Option (SentinelId × Nat) := none
  electionStart : Nat := 0

namespace ElectionState

/-- A request of a later epoch ends the vote of the last one. -/
def raise (state : ElectionState) (epoch : Nat) : ElectionState :=
  if epoch > state.epoch then { state with epoch, voteGrantedTo := none } else state

def grant (state : ElectionState) (candidate : SentinelId) (epoch : Nat) : ElectionState :=
  if state.voteGrantedTo = none ∧ epoch ≥ state.epoch then
    { state with voteGrantedTo := some (candidate, epoch) }
  else state

theorem le_raise (state : ElectionState) (epoch : Nat) : epoch ≤ (state.raise epoch).epoch := by
  unfold raise
  split
  · exact le_rfl
  · exact not_lt.1 ‹_›

end ElectionState

structure ElectionBook where
  states : String → Option ElectionState := fun _ => none

namespace ElectionBook

/-- `entry(master_name).or_default()` -/
def state (book : ElectionBook) (masterName : String) : ElectionState :=
  (book.states masterName).getD {}

def startElection (book : ElectionBook) (world : WorldSnapshot) (masterName : String)
    (myId : SentinelId) (now : Nat) : ElectionBook × WorldSnapshot × Nat :=
  let epoch := (world.epoch + 1) % 2 ^ 64
  let elect (master : MasterState) : MasterState :=
    { master with leader := some myId, leaderEpoch := epoch, failoverEpoch := epoch }
  let masters := Function.update world.masters masterName ((world.masters masterName).map elect)
  let state : ElectionState :=
    { epoch := epoch
      votesReceived := fun id => if id = myId then some epoch else none
      voteGrantedTo := some (myId, epoch)
      electionStart := now }
  (⟨Function.update book.states masterName (some state)⟩, ⟨masters, epoch⟩, epoch)

def processVoteRequest (book : ElectionBook) (masterName : String) (candidate : SentinelId)
    (epoch : Nat) : ElectionBook × Option SentinelId × Nat :=
  let state := ((book.state masterName).raise epoch).grant candidate epoch
  (⟨Function.update book.states masterName (some state)⟩, state.voteGrantedTo.map (·.1),
    (state.voteGrantedTo.map (·.2)).getD epoch)

end ElectionBook

/-- What a hello message does to the epoch of the world: it raises it, if the master is known. -/
def applyHello (world : WorldSnapshot) (masterName : String) (currentEpoch : Nat) : WorldSnapshot :=
  if (world.masters masterName).isSome then { world with epoch := max world.epoch currentEpoch }
  else world

/-! ## Runs -/

/-- A sentinel, with the votes it has given so far for the master it is watched at. -/
structure Watched where
  book : ElectionBook := {}
  world : WorldSnapshot
  votes : List (SentinelId × Nat) := []

inductive Event where
  | startElection (now : Nat)
  | voteRequest (candidate : SentinelId) (epoch : Nat)
  | hello (masterName : String) (currentEpoch : Nat)

variable (masterName : String) (myId : SentinelId)

def Watched.step (s : Watched) : Event → Watched
  | .startElection now =>
    let (book, world, epoch) := s.book.startElection s.world masterName myId now
    ⟨book, world, (myId, epoch) :: s.votes⟩
  | .voteRequest candidate epoch =>
    let (book, leader, epoch) := s.book.processVoteRequest masterName candidate epoch
    ⟨book, s.world, (leader.map (·, epoch)).toList ++ s.votes⟩
  | .hello helloMaster currentEpoch =>
    { s with world := applyHello s.world helloMaster currentEpoch }

/-- No two votes name different leaders for one epoch. -/
def VotesOncePerEpoch (votes : List (SentinelId × Nat)) : Prop :=
  ∀ v ∈ votes, ∀ w ∈ votes, v.2 = w.2 → v.1 = w.1

/-- An election of its own takes an epoch above all that the sentinel has heard of in requests. -/
def Watched.Ahead (s : Watched) : Event → Prop
  | .startElection _ => (s.book.state masterName).epoch ≤ s.world.epoch ∧ s.world.epoch + 1 < 2 ^ 64
  | _ => True

/-- What the stored state says of the votes given: they are of earlier epochs, or the stored one. -/
structure Remembers (state : ElectionState) (votes : List (SentinelId × Nat)) : Prop where
  once : VotesOncePerEpoch votes
  given : ∀ v ∈ votes, v.2 < state.epoch ∨ state.voteGrantedTo = some v
  current : ∀ v, state.voteGrantedTo = some v → v.2 = state.epoch

variable {masterName myId} {state state' : ElectionState} {votes : List (SentinelId × Nat)}
  {vote : SentinelId × Nat}

/-- The vote of the stored epoch is given, again or for the first time. -/
theorem Remembers.give (h : Remembers state votes) (hvote : state.voteGrantedTo = some vote) :
    Remembers state (vote :: votes) := by
  have hsame : ∀ w ∈ votes, w.2 = vote.2 → w.1 = vote.1 := by
    intro w hw heq
    rcases h.given w hw with hlt | hstored
    · exact absurd (heq.trans (h.current vote hvote)) hlt.ne
    · rw [Option.some.inj (hstored.symm.trans hvote)]
  refine ⟨?_, List.forall_mem_cons.2 ⟨.inr hvote, h.given⟩, h.current⟩
  intro v hv w hw heq
  rcases List.mem_cons.1 hv with rfl | hv' <;> rcases List.mem_cons.1 hw with rfl | hw'
  · rfl
  · exact (hsame w hw' heq.symm).symm
  · exact hsame v hv' heq
  · exact h.once v hv' w hw' heq

/-- A later epoch starts, with a vote of that epoch or none. -/
theorem Remembers.later (h : Remembers state votes) (hlt : state.epoch < state'.epoch)
    (hcurrent : ∀ v, state'.voteGrantedTo = some v → v.2 = state'.epoch) :
    Remembers state' votes := by
  refine ⟨h.once, fun v hv => .inl ?_, hcurrent⟩
  rcases h.given v hv with hless | hstored
  · exact hless.trans hlt
  · exact (h.current v hstored).trans_lt hlt

theorem Remembers.raise (h : Remembers state votes) (epoch : Nat) :
    Remembers (state.raise epoch) votes := by
  unfold ElectionState.raise
  split
  · exact h.later ‹_› nofun
  · exact h

/-- A first vote in the stored epoch is stored. -/
theorem Remembers.grant (h : Remembers state votes) {epoch : Nat} (hle : epoch ≤ state.epoch)
    (candidate : SentinelId) : Remembers (state.grant candidate epoch) votes := by
  unfold ElectionState.grant
  split
  · rename_i hfirst
    refine ⟨h.once, fun v hv => .inl ((h.given v hv).resolve_right ?_), fun v hv => ?_⟩
    · rw [hfirst.1]
      exact nofun
    · rw [← Option.some.inj hv]
      exact le_antisymm hle hfirst.2
  · exact h

theorem Remembers.step (s : Watched) (event : Event)
    (h : Remembers (s.book.state masterName) s.votes) (hahead : s.Ahead masterName event) :
    Remembers ((s.step masterName myId event).book.state masterName)
      (s.step masterName myId event).votes := by
  cases event with
  | startElection now =>
    obtain ⟨hle, hsmall⟩ := hahead
    simp only [Watched.step, ElectionBook.startElection, ElectionBook.state,
      Function.update_self, Option.getD_some, Nat.mod_eq_of_lt hsmall]
    refine .give (h.later (Nat.lt_succ_of_le hle) fun v hv => ?_) rfl
    rw [← Option.some.inj hv]
  | voteRequest candidate epoch =>
    simp only [Watched.step, ElectionBook.processVoteRequest, ElectionBook.state,
      Function.update_self, Option.getD_some]
    have hgranted := (h.raise epoch).grant (ElectionState.le_raise _ epoch) candidate
    unfold ElectionBook.state at hgranted
    generalize ElectionState.grant _ candidate epoch = state at hgranted ⊢
    cases hvote : state.voteGrantedTo with
    | none => exact hgranted
    | some vote => exact hgranted.give hvote
  | hello helloMaster currentEpoch => exact h

/-- **A sentinel votes once in an epoch** in every run whose own elections take a new epoch. -/
theorem sentinel_votes_once (masterName : String) (myId : SentinelId) (world : WorldSnapshot)
    (events : List Event)
    (hahead : RunAll (Watched.step masterName myId) (Watched.Ahead masterName) { world } events) :
    VotesOncePerEpoch (events.foldl (Watched.step masterName myId) { world }).votes :=
  (RunAll.induction (P := fun s => Remembers (s.book.state masterName) s.votes) Remembers.step
    hahead
    ⟨nofun, nofun, nofun⟩).once

def sentinelA : SentinelId := ⟨[65], by decide⟩
def sentinelB : SentinelId := ⟨[66], by decide⟩

theorem sentinel_votes_once_hello :
    VotesOncePerEpoch ([.voteRequest sentinelB 1, .hello "m" 1, .startElection 0].foldl
      (Watched.step "m" sentinelA) { world := ⟨fun _ => some {}, 0⟩ }).votes :=
  sentinel_votes_once "m" sentinelA _ _ ⟨trivial, trivial, ⟨by decide, by decide⟩, trivial⟩

/-- Without the hello message the sentinel votes for both in epoch 1. -/
theorem sentinel_votes_once_fails : ¬ ∀ masterName myId world, ∀ events : List Event,
      VotesOncePerEpoch (events.foldl (Watched.step masterName myId) { world }).votes := by
  intro h
  have htwice := h "m" sentinelA ⟨fun _ => some {}, 0⟩ [.voteRequest sentinelB 1, .startElection 0]
    (sentinelA, 1) (by decide) (sentinelB, 1) (by decide) rfl
  exact absurd htwice (by decide)

end Senko.Sentinel
