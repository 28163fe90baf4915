import Senko.Lib.Ring
import Senko.Lib.Run
import Mathlib.Data.List.Infix

/-!
# Senko — the ring of a subscriber (`senko-pubsub/src/slot.rs`)

One side calls `publish` again and again, the other one `recv`. A step of either side is its next
access to shared memory, so a run is a list of the sides that move, and what is proved of every run
holds in every interleaving. Each side decides with a counter of the other one that may be out of
date: it can only have grown since, which leaves more room for one side and more messages for the
other.
-/

namespace Senko.PubSub

open List hiding Vector

def ringSize : Nat := 256

instance : NeZero ringSize := ⟨by decide⟩

def wrappingSub (a b : Nat) : Nat := (a + 2 ^ 64 - b) % 2 ^ 64

def fetchAdd (counter : Nat) : Nat := (counter + 1) % 2 ^ 64

/-- The shared memory. The cell of a counter is its remainder by the size of the ring, which is what
the mask selects. -/
structure BroadcastSlot (M : Type) where
  ring : Vector (Option M) ringSize := Vector.replicate ringSize none
  head : Nat := 0
  tail : Nat := 0
  lagged : Bool := false

/-- The next access of `publish`, with what it has read. -/
inductive Publish (M : Type) where
  | loadHead
  | loadTail (message : M) (head : Nat)
  | storeLagged (message : M) (used : Nat)
  | storeSlot (message : M) (head : Nat)
  | addHead (message : M)

/-- The next access of `recv`, with what it has read. -/
inductive Recv (M : Type) where
  | loadTail
  | loadHead (tail : Nat)
  | swapSlot (tail : Nat)
  | addTail (ptr : Option M)

/-- Both sides, the results of the calls of `publish` and the messages `recv` returned. -/
structure Config (M : Type) where
  slot : BroadcastSlot M := {}
  publish : Publish M := .loadHead
  recv : Recv M := .loadTail
  results : List (M × Except Nat Unit) := []
  received : List M := []

/-- The side that moves; a call of `publish` that begins takes the message. -/
inductive Move (M : Type) where
  | publish (message : M)
  | recv

variable {M : Type}

namespace Config

def stepPublish (c : Config M) (next : M) : Config M :=
  match c.publish with
  | .loadHead => { c with publish := .loadTail next c.slot.head }
  | .loadTail message head =>
    let used := wrappingSub head c.slot.tail
    if used ≥ ringSize then { c with publish := .storeLagged message used }
    else { c with publish := .storeSlot message head }
  | .storeLagged message used =>
    { c with slot := { c.slot with lagged := true }
             publish := .loadHead
             results := c.results ++ [(message, .error (used - ringSize))] }
  | .storeSlot message head =>
    { c with slot := { c.slot with ring := Ring.put c.slot.ring head (some message) }
             publish := .addHead message }
  | .addHead message =>
    { c with slot := { c.slot with head := fetchAdd c.slot.head }
             publish := .loadHead
             results := c.results ++ [(message, .ok ())] }

def stepRecv (c : Config M) : Config M :=
  match c.recv with
  | .loadTail => { c with recv := .loadHead c.slot.tail }
  | .loadHead tail =>
    if tail = c.slot.head then { c with recv := .loadTail } else { c with recv := .swapSlot tail }
  | .swapSlot tail =>
    { c with slot := { c.slot with ring := Ring.put c.slot.ring tail none }
             recv := .addTail (Ring.get c.slot.ring tail) }
  | .addTail ptr =>
    { c with slot := { c.slot with tail := fetchAdd c.slot.tail }
             recv := .loadTail
             received := c.received ++ ptr.toList }

def step (c : Config M) : Move M → Config M
  | .publish message => c.stepPublish message
  | .recv => c.stepRecv

/-- The messages for which `publish` returned `Ok`. -/
def sent (c : Config M) : List M :=
  c.results.filterMap fun (message, result) => result.toOption.map fun _ => message

/-- The head counter does not wrap. -/
def NoWrap (c : Config M) (_ : Move M) : Prop := c.slot.head + 1 < 2 ^ 64
deriving Decidable

end Config

/-- What `recv` has taken out of the ring and not yet returned. -/
def Recv.inHand : Recv M → List (Option M)
  | addTail ptr => [ptr]
  | _ => []

/-- The messages on their way: the one in the hand of `recv`, and the cells from there on. -/
def Config.stored (c : Config M) : List (Option M) :=
  let first := c.slot.tail + c.recv.inHand.length
  c.recv.inHand ++ Ring.read c.slot.ring first (c.slot.head - first)

/-! ## The invariant -/

/-- The message that is in its cell and not yet counted. -/
def Publish.written : Publish M → List M
  | addHead message => [message]
  | _ => []

/-- What `publish` has read is the head counter, and there is room in the ring. -/
def BroadcastSlot.Publishing (slot : BroadcastSlot M) : Publish M → Prop
  | .loadTail _ head => head = slot.head
  | .storeSlot _ head => head = slot.head ∧ head < slot.tail + ringSize
  | _ => True

/-- What `recv` has read is the tail counter, and the ring is not empty. -/
def BroadcastSlot.Receiving (slot : BroadcastSlot M) (sent : List M) : Recv M → Prop
  | .loadHead tail => tail = slot.tail
  | .swapSlot tail => tail = slot.tail ∧ tail < slot.head
  | .addTail ptr => slot.tail < slot.head ∧ ptr = sent[slot.tail]?
  | .loadTail => True

/-- The counters, the ring and both sides, with the messages sent and received so far. -/
structure BroadcastSlot.Inv (slot : BroadcastSlot M) (publish : Publish M) (recv : Recv M)
    (sent received : List M) : Prop where
  head : slot.head = sent.length
  bounded : slot.head < 2 ^ 64
  received : received = sent.take slot.tail
  tail : slot.tail ≤ slot.head
  room : (sent ++ publish.written).length ≤ slot.tail + ringSize
  mirrors : Ring.Mirrors slot.ring ((sent ++ publish.written).map some)
    (slot.tail + recv.inHand.length)
  publishing : slot.Publishing publish
  receiving : slot.Receiving sent recv

section Growth

variable {slot : BroadcastSlot M} {sent : List M}

theorem BroadcastSlot.Publishing.addTail {publish : Publish M} (h : slot.Publishing publish) :
    BroadcastSlot.Publishing { slot with tail := slot.tail + 1 } publish := by
  cases publish with
  | storeSlot message head => exact ⟨h.1, by have := h.2; dsimp only; omega⟩
  | _ => exact h

theorem BroadcastSlot.Receiving.addHead {recv : Recv M} (h : slot.Receiving sent recv)
    (hhead : slot.head = sent.length) (message : M) :
    BroadcastSlot.Receiving { slot with head := slot.head + 1 } (sent ++ [message]) recv := by
  cases recv with
  | swapSlot tail => exact ⟨h.1, Nat.lt_succ_of_lt h.2⟩
  | addTail ptr =>
    refine ⟨Nat.lt_succ_of_lt h.1, ?_⟩
    rw [getElem?_append_left (hhead ▸ h.1)]
    exact h.2
  | _ => exact h

end Growth

namespace Config

def Inv (c : Config M) : Prop := c.slot.Inv c.publish c.recv c.sent c.received

variable {c : Config M}

/-- Before anything is published. -/
theorem inv_new : Inv ({} : Config M) where
  head := rfl
  bounded := Nat.two_pow_pos 64
  received := rfl
  tail := le_rfl
  room := Nat.zero_le _
  mirrors := ⟨Nat.zero_le _, fun i a _ hget => by simp [sent, Publish.written] at hget⟩
  publishing := trivial
  receiving := trivial

/-- **A step of `publish`.** The tail it has read can only have grown since, which leaves more
room. -/
theorem Inv.stepPublish (h : Inv c) (next : M) (hwrap : c.slot.head + 1 < 2 ^ 64) :
    Inv (c.stepPublish next) := by
  have hhead := h.head
  have htail := h.tail
  rw [Inv] at h
  unfold Config.stepPublish
  cases hp : c.publish with rw [hp] at h
  | loadHead => exact { h with publishing := rfl }
  | loadTail message head =>
    obtain rfl : head = c.slot.head := h.publishing
    have hused : wrappingSub c.slot.head c.slot.tail = c.slot.head - c.slot.tail := by
      rw [wrappingSub]
      omega
    simp only [hused]
    split
    · exact { h with publishing := trivial }
    · exact { h with publishing := ⟨rfl, show c.slot.head < c.slot.tail + ringSize by omega⟩ }
  | storeLagged message used =>
    have hsent : sent { c with results := c.results ++ [(message, .error (used - ringSize))] } =
        c.sent := by simp [sent, Except.toOption]
    show BroadcastSlot.Inv _ _ _ (sent { c with results := _ }) _
    rw [hsent]
    exact { h with publishing := trivial }
  | storeSlot message head =>
    obtain ⟨rfl, hroom⟩ : head = c.slot.head ∧ head < c.slot.tail + ringSize := h.publishing
    have hmirrors : Ring.Mirrors c.slot.ring (c.sent.map some)
        (c.slot.tail + c.recv.inHand.length) := by
      simpa [Publish.written] using h.mirrors
    have hput := hmirrors.put (by rw [length_map]; omega) (some message)
    rw [length_map, ← hhead] at hput
    show BroadcastSlot.Inv { c.slot with ring := Ring.put c.slot.ring c.slot.head (some message) }
      (.addHead message) c.recv c.sent c.received
    exact { h with
      room := by simpa [Publish.written, ← hhead] using Nat.succ_le_of_lt hroom
      mirrors := by simpa [Publish.written] using hput
      publishing := trivial }
  | addHead message =>
    have hsent : sent { c with results := c.results ++ [(message, .ok ())] } =
        c.sent ++ [message] := by simp [sent, Except.toOption]
    have hadd : fetchAdd c.slot.head = c.slot.head + 1 := Nat.mod_eq_of_lt hwrap
    show BroadcastSlot.Inv { c.slot with head := fetchAdd c.slot.head } .loadHead c.recv
      (sent { c with results := _ }) c.received
    rw [hsent, hadd]
    exact { h with
      head := by simp [hhead]
      bounded := hwrap
      received := by
        rw [take_append_of_le_length (hhead ▸ htail)]
        exact h.received
      tail := Nat.le_succ_of_le htail
      room := by simpa [Publish.written] using h.room
      mirrors := by simpa [Publish.written] using h.mirrors
      publishing := trivial
      receiving := by simpa [hadd] using h.receiving.addHead hhead message }

/-- **A step of `recv`.** The head it has read can only have grown since. -/
theorem Inv.stepRecv (h : Inv c) : Inv c.stepRecv := by
  have hhead := h.head
  have htail := h.tail
  rw [Inv] at h
  unfold Config.stepRecv
  cases hr : c.recv with rw [hr] at h
  | loadTail => exact { h with receiving := rfl }
  | loadHead tail =>
    obtain rfl : tail = c.slot.tail := h.receiving
    dsimp only
    split
    · exact { h with receiving := trivial }
    · exact { h with receiving := ⟨rfl, show c.slot.tail < c.slot.head by omega⟩ }
  | swapSlot tail =>
    obtain ⟨rfl, hlt⟩ : tail = c.slot.tail ∧ tail < c.slot.head := h.receiving
    have hin : c.slot.tail < c.sent.length := by omega
    have hget : Ring.get c.slot.ring c.slot.tail = c.sent[c.slot.tail]? := by
      apply h.mirrors.2 _ _ le_rfl
      show ((c.sent ++ c.publish.written).map some)[c.slot.tail]? = _
      rw [getElem?_map, getElem?_append_left hin, getElem?_eq_getElem hin]
      rfl
    exact { h with
      mirrors := h.mirrors.clear none
      receiving := ⟨hlt, hget⟩ }
  | addTail ptr =>
    obtain ⟨hlt, hptr⟩ : c.slot.tail < c.slot.head ∧ ptr = c.sent[c.slot.tail]? := h.receiving
    have hadd : fetchAdd c.slot.tail = c.slot.tail + 1 :=
      Nat.mod_eq_of_lt (lt_of_le_of_lt hlt h.bounded)
    show BroadcastSlot.Inv { c.slot with tail := fetchAdd c.slot.tail } c.publish .loadTail c.sent
      (c.received ++ ptr.toList)
    rw [hadd]
    exact { h with
      received := by rw [h.received, hptr, take_add_one]
      tail := hlt
      room := le_trans h.room (by show c.slot.tail + ringSize ≤ c.slot.tail + 1 + ringSize; omega)
      publishing := h.publishing.addTail
      receiving := trivial }

theorem Inv.step (h : Inv c) (move : Move M) (hwrap : c.NoWrap move) : Inv (c.step move) := by
  cases move with
  | publish message => exact h.stepPublish message hwrap
  | recv => exact h.stepRecv

/-- What `recv` has in hand is the first message that it has not returned. -/
theorem Inv.inHand_eq (h : Inv c) : c.slot.tail + c.recv.inHand.length ≤ c.slot.head ∧
    c.recv.inHand = ((c.sent.drop c.slot.tail).take c.recv.inHand.length).map some := by
  have hreceiving := h.receiving
  cases hr : c.recv with rw [hr] at hreceiving
  | addTail ptr =>
    obtain ⟨hlt, rfl⟩ : _ ∧ ptr = c.sent[c.slot.tail]? := hreceiving
    refine ⟨hlt, ?_⟩
    rw [h.head] at hlt
    rw [drop_eq_getElem_cons hlt, getElem?_eq_getElem hlt]
    rfl
  | _ => exact ⟨h.tail, rfl⟩

/-- **Nothing is lost, nothing comes twice, and the order is kept.** -/
theorem Inv.sent_eq (h : Inv c) : c.sent.map some = c.received.map some ++ c.stored := by
  obtain ⟨hfirst, hinHand⟩ := h.inHand_eq
  have hhead := h.head
  have hrest : (((c.sent ++ c.publish.written).map some).drop
      (c.slot.tail + c.recv.inHand.length)).take
        (c.slot.head - (c.slot.tail + c.recv.inHand.length))
      = (c.sent.drop (c.slot.tail + c.recv.inHand.length)).map some := by
    rw [← map_drop, ← map_take, drop_append_of_le_length (by omega),
      take_append_of_le_length (by rw [length_drop]; omega),
      take_of_length_le (by rw [length_drop]; omega)]
  rw [stored, h.mirrors.read le_rfl (by rw [length_map, length_append]; omega), hrest, h.received]
  conv_lhs => rw [← take_append_drop c.slot.tail c.sent, ← take_append_drop
    c.recv.inHand.length (c.sent.drop c.slot.tail), map_append, map_append, ← hinHand,
    drop_drop]

/-- **The ring of a subscriber is a queue**, in every interleaving of one publisher and one
receiver: the messages received, and then those on their way, are the messages sent; `recv` never
takes an empty cell, and there are at most as many messages on their way as there are cells. -/
theorem ring_is_fifo (moves : List (Move M)) (hwrap : RunAll step NoWrap ({} : Config M) moves) :
    let c := moves.foldl step {}
    c.received <+: c.sent ∧ c.sent.map some = c.received.map some ++ c.stored ∧
      (∀ ptr, c.recv = .addTail ptr → ptr ≠ none) ∧ c.stored.length ≤ ringSize := by
  intro c
  have h : Inv c := RunAll.induction (fun _ move h hwrap => h.step move hwrap) hwrap inv_new
  refine ⟨?_, h.sent_eq, fun ptr hptr hnone => ?_, ?_⟩
  · rw [h.received]
    exact take_prefix _ _
  · -- the cell was taken while the tail was below the head
    have hmem : none ∈ c.recv.inHand := by simp [hptr, hnone, Recv.inHand]
    rw [h.inHand_eq.2] at hmem
    obtain ⟨_, -, ⟨⟩⟩ := mem_map.1 hmem
  · have hlen := congrArg List.length h.sent_eq
    have hreceived := congrArg List.length h.received
    have hroom := h.room
    simp only [length_map, length_append, length_take] at hlen hreceived hroom
    omega

/-- Three messages are sent, and two of them are received while the others are on their way. -/
theorem ring_is_fifo_interleaved :
    let moves :=
      [Move.publish 7, .publish 7, .recv, .publish 7, .publish 7, .recv, .publish 8, .recv,
      .publish 8, .publish 8, .recv, .publish 8, .recv, .publish 9, .recv, .publish 9, .publish 9,
      .recv, .publish 9, .recv]
    let c := moves.foldl step ({} : Config Nat)
    RunAll step NoWrap {} moves ∧ c.received = [7, 8] ∧ c.sent = [7, 8, 9] ∧
      c.stored = [some 9] := by
  intro moves c
  have hwrap : RunAll step NoWrap ({} : Config Nat) moves := by decide +kernel
  have hreceived : c.received = [7, 8] := by decide +kernel
  have hsent : c.sent = [7, 8, 9] := by decide +kernel
  refine ⟨hwrap, hreceived, hsent, ?_⟩
  have hstored := (ring_is_fifo moves hwrap).2.1
  rw [hreceived, hsent] at hstored
  exact (append_right_inj _).1 hstored.symm

end Config

end Senko.PubSub
