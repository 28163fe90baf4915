import Senko.Store.StoredObjects
import Senko.Store.StreamCommands

/-!
# Senko — rules for commands on one stream

A stream command sees of the store one key: no stream, or a stream with a deadline. `OnStream` says
how a command ends from such a state, with its result and the state it leaves, and there is a rule
for every step the commands are made of. No rule lets a command panic.
-/

namespace Senko

open Command Store Function

variable {clock : Nat → Nat} {s s' : Store} {key key' : Bytes} {v : StreamState} {env : Env}
  {α β : Type} {x : Command α} {missing : Except SenkoError α}
  {Q : Except SenkoError α → StreamState → Prop} {R : Except SenkoError β → StreamState → Prop}
  {i : Nat} {f : StreamObject → Except SenkoError α × StreamObject}

/-- The stream of a key, if there is one, and its deadline. -/
abbrev StreamState := Option (StreamObject × Option Nat)

namespace StreamState

def tree (v : StreamState) : StreamRadixTree := (v.map fun x => x.1.tree).getD {}

/-- The deadline lies beyond every reading of the clock. -/
def Live (clock : Nat → Nat) (v : StreamState) : Prop :=
  ∀ i, isExpired (v.bind Prod.snd) (clock i) = false

end StreamState

/-- The store has nothing but this stream at a key. -/
def Store.Holds (s : Store) (key : Bytes) (v : StreamState) : Prop :=
  (s.lookup key).map (fun e => (e.value, e.expiresAt)) = v.map fun x => (.stream x.1, x.2)

namespace Store

theorem Holds.stream (h : s.Holds key v) :
    ((s.lookup key).bind fun e => asStream e.value) = v.map Prod.fst := by
  have hstored := congrArg (·.bind fun e => asStream e.1) h
  simp only [Option.bind_map] at hstored
  refine hstored.trans ?_
  cases v <;> rfl

theorem Holds.live (h : s.Holds key v) (hlive : v.Live clock) (i : Nat) :
    s.keyMap.live (clock i) key = v.map fun x => (.stream x.1, x.2) := by
  have hstored : s.keyMap key = v.map fun x => (.stream x.1, x.2) := h
  cases v with
  | none =>
    rw [KeyMap.live, hstored]
    rfl
  | some x => exact KeyMap.live_of_not_expired hstored (hlive i)

/-- An access to any key leaves the stream. -/
theorem Holds.access_any (env : Env) (h : s.Holds key v) (hlive : v.Live clock) (i : Nat)
    (key' : Bytes) : (s.access env (clock i) key').1.Holds key v := by
  show keyMap _ key = _
  rw [(keyMap_access env s (clock i) key').1, KeyMap.expire]
  by_cases hkey : key = key'
  · rw [← hkey, update_self]
    exact h.live hlive i
  · rw [update_of_ne hkey]
    exact h

theorem getStream_fst (s : Store) (env : Env) (now : Nat) (key : Bytes) :
    (s.getStream env now key).1 = (s.access env now key).1 := by
  rw [Store.getStream, getTyped]
  generalize s.access env now key = r
  obtain ⟨s', e⟩ := r
  cases e with
  | none => rfl
  | some e =>
    dsimp only
    cases asStream e.value <;> rfl

theorem Holds.getStream (env : Env) (h : s.Holds key v) (hlive : v.Live clock) (i : Nat) :
    ∃ s', s.getStream env (clock i) key = (s', v.map Prod.fst) ∧ s'.Holds key v := by
  refine ⟨(s.getStream env (clock i) key).1, Prod.ext rfl ?_, ?_⟩
  · rw [Store.getStream, getTyped_snd, h.live hlive i]
    cases v <;> rfl
  · rw [getStream_fst]
    exact h.access_any env hlive i key

theorem Holds.putValue {old : StreamObject × Option Nat} (h : s.Holds key (some old))
    (stream : StreamObject) :
    (s.putValue key (.stream stream)).Holds key (some (stream, old.2)) := by
  show keyMap _ key = _
  rw [keyMap_putValue, update_self, show s.keyMap key = _ from h]
  rfl

/-- **`get_or_create_stream`** finds the stream, or makes an empty one without a deadline. -/
theorem Holds.getOrCreateStream (env : Env) {key : CompactString} (h : s.Holds key.bytes v)
    (hlive : v.Live clock) (i : Nat) :
    ∃ s' stream deadline, s.getOrCreateStream env (clock i) key = (s', some stream) ∧
      (stream, deadline) = v.getD ({}, none) ∧ s'.Holds key.bytes (some (stream, deadline)) := by
  obtain ⟨value, deadline, hcreate, hmap, hcase⟩ :=
    keyMap_getOrCreate asStream (Collection.clone_fresh env .stream) s (clock i) key
  have hstored := congrFun hmap key.bytes
  rw [KeyMap.insert, update_self] at hstored
  rw [h.live hlive i] at hcase
  cases v with
  | none =>
    obtain ⟨-, rfl, rfl⟩ := hcase.resolve_left fun hsome => by cases hsome.1
    exact ⟨_, {}, none, Prod.ext rfl hcreate, rfl, hstored⟩
  | some x =>
    obtain ⟨⟨⟩, -⟩ := hcase.resolve_right fun hnone => by cases hnone.1
    exact ⟨_, x.1, x.2, Prod.ext rfl hcreate, rfl, hstored⟩

end Store

/-! ## The rules -/

/-- **A command ends**: from a store that holds the state at the key it gives a result and a store
that holds another, and the two are as they should be. -/
def OnStream (key : Bytes) (v : StreamState) (x : Command α)
    (Q : Except SenkoError α → StreamState → Prop) : Prop :=
  ∀ s : Store, s.Holds key v → ∃ r s' v', x s = some (r, s') ∧ s'.Holds key v' ∧ Q r v'

namespace OnStream

theorem pure {a : α} (h : Q (.ok a) v) : OnStream key v (Pure.pure a) Q :=
  fun s hs => ⟨_, s, v, rfl, hs, h⟩

theorem fail {e : SenkoError} (h : Q (.error e) v) : OnStream key v (Command.fail e) Q :=
  fun s hs => ⟨_, s, v, rfl, hs, h⟩

theorem bind {f : α → Command β} (hx : OnStream key v x Q)
    (hok : ∀ a v', Q (.ok a) v' → OnStream key v' (f a) R)
    (herror : ∀ e v', Q (.error e) v' → R (.error e) v') : OnStream key v (x >>= f) R := by
  intro s hs
  obtain ⟨r, s₁, v₁, hrun, hs₁, hq⟩ := hx s hs
  cases r with
  | error e => exact ⟨.error e, s₁, v₁, by rw [bind_apply, hrun], hs₁, herror e v₁ hq⟩
  | ok a =>
    obtain ⟨r, s₂, v₂, hrun', hs₂, hr⟩ := hok a v₁ hq s₁ hs₁
    exact ⟨r, s₂, v₂, by rw [bind_apply, hrun]; exact hrun', hs₂, hr⟩

/-- A step that may fail and does not use the store. -/
theorem ofExcept_bind {x : Except SenkoError α} {f : α → Command β}
    (hok : ∀ a, x = .ok a → OnStream key v (f a) R) (herror : ∀ e, R (.error e) v) :
    OnStream key v (ofExcept x >>= f) R := by
  cases x with
  | ok a => exact hok a rfl
  | error e => exact fail (herror e)

/-- The type check passes. -/
theorem ensure_bind {f : Unit → Command β} (hlive : v.Live clock) (h : OnStream key v (f ()) R) :
    OnStream key v (ensureStreamTypeOrMissing env clock i key >>= f) R := by
  intro s hs
  obtain ⟨r, s₂, v₂, hrun, hs₂, hr⟩ := h _ (hs.access_any env hlive i key)
  refine ⟨r, s₂, v₂, ?_, hs₂, hr⟩
  rw [bind_apply, ensureStreamTypeOrMissing, store_bind, get_eq, hs.live hlive i]
  cases v <;> exact hrun

theorem getStream_bind {f : Option StreamObject → Command β} (hlive : v.Live clock)
    (h : OnStream key v (f (v.map Prod.fst)) R) :
    OnStream key v ((store fun s => s.getStream env (clock i) key) >>= f) R := by
  intro s hs
  obtain ⟨s₁, hget, hs₁⟩ := hs.getStream env hlive i
  obtain ⟨r, s₂, v₂, hrun, hs₂, hr⟩ := h s₁ hs₁
  refine ⟨r, s₂, v₂, ?_, hs₂, hr⟩
  rw [store_bind, hget]
  exact hrun

/-- Work on a stream that has to be there. -/
theorem withStream (hlive : v.Live clock) (hnone : v = none → Q missing none)
    (hsome : ∀ stream deadline, v = some (stream, deadline) →
      Q (f stream).1 (some ((f stream).2, deadline))) :
    OnStream key v (withStream env clock i key missing f) Q := by
  intro s hs
  obtain ⟨s₁, hget, hs₁⟩ := hs.getStream env hlive i
  have hmut : s.getStreamMut env (clock i) key = (s₁, v.map Prod.fst) := hget
  unfold Senko.withStream
  rw [hmut]
  cases v with
  | none => exact ⟨_, s₁, none, rfl, hs₁, hnone rfl⟩
  | some x => exact ⟨_, _, _, rfl, hs₁.putValue (f x.1).2, hsome x.1 x.2 rfl⟩

/-- Work on a stream that is made if it is missing. -/
theorem withNewStream {key : CompactString} (hlive : v.Live clock)
    (h : ∀ stream deadline, (stream, deadline) = v.getD ({}, none) →
      Q (f stream).1 (some ((f stream).2, deadline))) :
    OnStream key.bytes v (withNewStream env clock i key f) Q := by
  intro s hs
  obtain ⟨s₁, stream, deadline, hget, hstream, hs₁⟩ := hs.getOrCreateStream env hlive i
  refine ⟨_, _, _, ?_, hs₁.putValue (f stream).2, h stream deadline hstream⟩
  unfold Senko.withNewStream
  rw [store_bind, hget]
  rfl

/-- A step that leaves the state. -/
theorem leaves_bind {f : α → Command β} (hx : OnStream key v x fun _ v' => v' = v)
    (hok : ∀ a, OnStream key v (f a) R) (herror : ∀ e, R (.error e) v) :
    OnStream key v (x >>= f) R := by
  refine hx.bind (fun a v' hv => ?_) fun e v' hv => ?_
  · exact hv ▸ hok a
  · exact hv ▸ herror e

end OnStream

end Senko
