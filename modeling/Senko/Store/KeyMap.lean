import Mathlib.Data.Set.Card
import Senko.Store.Clones
import Senko.Store.Memory

/-!
# Senko — the keyspace as a map

What a store is for: a map from keys to a value and a deadline. `StoreOp.effect` says what each
operation does to that map; the two tables of the keyspace, the slots that move between them and
the recency clocks are gone. Four things remain open in the map, because the store decides them
from what the map forgets: which of the entries whose deadline has passed an active expiry removes,
which expired fields it drops from a hash, which live entry an eviction removes, and whether a value
or a clone with its contents is stored.

`Store.keyMap_step` is the simulation of one operation; lookups and the number of entries are read
off the map.
-/

namespace Senko

open List Option Function Keyspace

/-! ## The map -/

/-- The value and the deadline of every key. -/
abbrev KeyMap := Bytes → Option (SenkoValue × Option Nat)

def Entry.contents (e : Entry) : SenkoValue × Option Nat := (e.value, e.expiresAt)

/-- The map that a store holds. -/
def Store.keyMap (s : Store) : KeyMap := fun key => (s.lookup key).map Entry.contents

namespace KeyMap

def live (m : KeyMap) (now : Nat) (key : Bytes) : Option (SenkoValue × Option Nat) :=
  (m key).filter fun e => !isExpired e.2 now

def erase (m : KeyMap) (key : Bytes) : KeyMap := Function.update m key none

def insert (m : KeyMap) (key : Bytes) (value : SenkoValue) (expiresAt : Option Nat) : KeyMap :=
  Function.update m key (some (value, expiresAt))

/-- An expired entry of a key is removed. -/
def expire (m : KeyMap) (now : Nat) (key : Bytes) : KeyMap := Function.update m key (m.live now key)

/-- The entry that the conditions and the expiry options of `set` look at. -/
def entry (m : KeyMap) (key : Bytes) : Option Entry :=
  (m key).map fun e => { value := e.1, expiresAt := e.2 }

def ttlMs (m : KeyMap) (now : Nat) (key : Bytes) : Option Int :=
  (m.live now key).map fun e => (e.2.map fun deadline => Store.asI64 (deadline - now)).getD (-1)

/-- The number of keys. -/
noncomputable def count (m : KeyMap) : Nat := Set.ncard {key | m key ≠ none}

end KeyMap

/-! ## What the operations do to the map -/

/-- What an active expiry may do to an entry. -/
inductive Advanced (clockMs : Nat) :
    Option (SenkoValue × Option Nat) → Option (SenkoValue × Option Nat) → Prop where
  | kept (e : Option (SenkoValue × Option Nat)) : Advanced clockMs e e
  | expired (value : SenkoValue) (expiresAt : Option Nat)
      (h : isExpired expiresAt clockMs = true) : Advanced clockMs (some (value, expiresAt)) none
  | swept {hash hash' : HashObject SenkoValue} (expiresAt : Option Nat)
      (h : Store.SweptHash clockMs hash hash') :
      Advanced clockMs (some (.hash hash, expiresAt)) (some (.hash hash', expiresAt))
  | emptied {hash hash' : HashObject SenkoValue} (expiresAt : Option Nat)
      (h : Store.SweptHash clockMs hash hash') (hempty : hash'.isEmpty clockMs = true) :
      Advanced clockMs (some (.hash hash, expiresAt)) none

theorem Advanced.trans {clockMs : Nat} {e₁ e₂ e₃ : Option (SenkoValue × Option Nat)}
    (h₁ : Advanced clockMs e₁ e₂) (h₂ : Advanced clockMs e₂ e₃) : Advanced clockMs e₁ e₃ := by
  cases h₁ with
  | kept => exact h₂
  | expired value expiresAt h =>
    cases h₂
    exact .expired value expiresAt h
  | swept expiresAt h =>
    cases h₂ with
    | kept => exact .swept expiresAt h
    | expired _ _ hexp => exact .expired _ _ hexp
    | swept _ h' => exact .swept expiresAt (h.trans h')
    | emptied _ h' hempty => exact .emptied expiresAt (h.trans h') hempty
  | emptied expiresAt h hempty =>
    cases h₂
    exact .emptied expiresAt h hempty

namespace StoreOp

/-- `set_expiry` and `remove_expiry` on the map. -/
def changeExpiry (m : KeyMap) (now : Nat) (key : Bytes) (expiresAt : Option Nat) : KeyMap :=
  match m.live now key with
  | none => m.expire now key
  | some e => m.insert key e.1 expiresAt

/-- What an operation does to the map, evictions and active expiry apart. -/
def effect (env : Env) (clockMs : Nat) (m : KeyMap) : StoreOp → KeyMap
  | set now key value opts =>
    let m := m.expire now key.bytes
    if conditionMatches env.std opts.condition (m.entry key.bytes) then
      m.insert key.bytes value (expiryFromOption opts.expiry (m.entry key.bytes) now)
    else m
  | delete _ key => m.erase key
  | rename now source dest =>
    if (m source).any fun e => isExpired e.2 now then m.erase source
    else
      let m := m.expire now dest.bytes
      match m source with
      | none => m
      | some e => (m.erase source).insert dest.bytes e.1 e.2
  | copyFromEntry _ dest entry expiresAt => m.insert dest.bytes entry.value expiresAt
  | get now key | cloneEntry now key => m.expire now key
  | setExpiry now key expiresAt => changeExpiry m now key (some expiresAt)
  | removeExpiry now key => changeExpiry m now key none
  | advanceExpiryWheel _ | maybeStartResize | incrementalRehashStep => m
  | mutate c now key f =>
    let m := m.expire now key
    match m key with
    | none => m
    | some e =>
      match c.project e.1 with
      | none => m
      | some object =>
        if c.isEmpty clockMs object then m.erase key else m.insert key (c.value (f object)) e.2
  | create c now key f =>
    match (m.live now key.bytes).bind fun e => (c.project e.1).map fun object => (object, e.2) with
    | some (object, expiresAt) => m.insert key.bytes (c.value (f object)) expiresAt
    | none => m.insert key.bytes (c.value (f (c.freshObject env))) none

/-- What `maybe_evict` does to the map: over the watermark a live entry goes, if there is one. -/
def Evicted (full : Bool) (now : Nat) (m m' : KeyMap) : Prop :=
  if full then
    (∃ victim, (m.live now victim).isSome = true ∧ m' = m.erase victim) ∨
      (∀ key, m.live now key = none) ∧ m' = m
  else m' = m

end StoreOp

/-! ## The map of a store after each method -/

namespace Store

variable {env : Env} {s s' : Store} {now : Nat} {key : Bytes}

theorem keyMap_congr (h : ∀ key, s'.lookup key = s.lookup key) : s'.keyMap = s.keyMap := by
  funext key
  rw [keyMap, h, keyMap]

theorem live_keyMap : s.keyMap.live now key = (s.live now key).map Entry.contents := by
  unfold KeyMap.live keyMap live
  cases s.lookup key with
  | none => rfl
  | some e => cases hexp : isExpired e.expiresAt now <;> simp [Entry.contents, hexp, Option.filter]

/-- A method that only replaces the entry of a key replaces it in the map. -/
theorem keyMap_update {e : Option Entry}
    (h : ∀ key', s'.lookup key' = if key' = key then e else s.lookup key') :
    s'.keyMap = update s.keyMap key (e.map Entry.contents) := by
  funext key'
  rw [keyMap, h]
  by_cases hkey : key' = key
  · rw [if_pos hkey, hkey, update_self]
  · rw [if_neg hkey, update_of_ne hkey, keyMap]

theorem keyMap_insertOrReplace {key : CompactString} {e : Entry} :
    (s.insertOrReplace env key e).keyMap =
      s.keyMap.insert key.bytes (s.stored env key e).value e.expiresAt := by
  rw [keyMap_update fun _ => lookup_insertOrReplace, map_some, Entry.contents, expiresAt_stored]
  rfl

theorem keyMap_removeEntry : (s.removeEntry env key).1.keyMap = s.keyMap.erase key :=
  keyMap_update fun _ => lookup_removeEntry

theorem keyMap_beginWrite : (s.beginWrite env now).keyMap = s.keyMap :=
  keyMap_congr fun _ => lookup_beginWrite

theorem keyMap_removeIfExpired :
    (s.removeIfExpired env key now).1.keyMap = s.keyMap.expire now key := by
  rw [keyMap_update fun _ => lookup_removeIfExpired, KeyMap.expire, live_keyMap]

theorem keyMap_maybeStartResize : (s.maybeStartResize env).keyMap = s.keyMap :=
  keyMap_congr fun _ => lookup_maybeStartResize

theorem keyMap_updateExpiry {key : CompactString} {old new : Option Nat} :
    (s.updateExpiry key old new).keyMap = s.keyMap := rfl

variable {dest : CompactString} {expiresAt : Option Nat}

theorem keyMap_maybeEvict (env : Env) (s : Store) :
    StoreOp.Evicted (shouldEvict s.usedMemory s.maxMemory) s.clockMs
      s.keyMap (s.maybeEvict env).keyMap := by
  unfold maybeEvict StoreOp.Evicted
  split
  · have hmap : s.sampleEvictionCandidate.1.keyMap = s.keyMap :=
      keyMap_congr fun _ => lookup_sampleEvictionCandidate
    have hsample : _ ∨ _ := s.sampleEvictionCandidate_snd
    generalize s.sampleEvictionCandidate = r at hmap hsample
    obtain ⟨s', victim⟩ := r
    rcases hsample with ⟨rfl, hnone⟩ | ⟨victim, rfl, hlive⟩
    · -- no key is sampled only where none is live
      refine .inr ⟨fun key => ?_, hmap⟩
      rw [live_keyMap, hnone]
      rfl
    · refine .inl ⟨victim.bytes, by rwa [live_keyMap, isSome_map], ?_⟩
      rw [← hmap]
      exact keyMap_removeEntry
  · rfl

/-- Changes keep the clock and the memory limit. -/
theorem Changes.keeps {D : Option Nat → Prop} {V : SenkoValue → SenkoValue → Prop}
    (h : Changes env D V s s') : s'.clockMs = s.clockMs ∧ s'.maxMemory = s.maxMemory := by
  refine h.induction (P := fun s' => s'.clockMs = s.clockMs ∧ s'.maxMemory = s.maxMemory) ?_
    ⟨rfl, rfl⟩
  rintro s₁ s₂ hchange hs
  cases hchange with
  | remove key => exact ⟨clockMs_removeEntry.trans hs.1, maxMemory_removeEntry.trans hs.2⟩
  | _ => exact hs

/-! ### Writing -/

section Set

variable {key : CompactString} {value : SenkoValue} {opts : SetOptions}

/-- The conditions of `set` look at the contents of an entry only. -/
theorem conditionMatches_entry (std : FloatStd) (condition : SetCondition) (key : Bytes) :
    conditionMatches std condition (s.keyMap.entry key) =
      conditionMatches std condition (s.lookup key) := by
  unfold KeyMap.entry keyMap
  cases s.lookup key <;> cases condition <;> rfl

theorem expiryFromOption_entry (expiry : SetExpiry) (key : Bytes) (now : Nat) :
    expiryFromOption expiry (s.keyMap.entry key) now =
      expiryFromOption expiry (s.lookup key) now := by
  unfold KeyMap.entry keyMap
  cases s.lookup key <;> cases expiry <;> rfl

/-- **Writing a key**: the value, or its clone, is stored. -/
theorem keyMap_write (env : Env) (s : Store) (now : Nat) (key : CompactString) (value : SenkoValue)
    (opts : SetOptions) :
    ∃ value', (value' = value ∨ s.Overwrites env key opts now ∧ value' = value.clone env) ∧
      (s.write env now key value opts).1.keyMap =
        (StoreOp.set now key value' opts).effect env s.clockMs s.keyMap := by
  generalize hs₂ : ((s.beginWrite env now).removeIfExpired env key.bytes now).1 = s₂
  have hmap : s₂.keyMap = s.keyMap.expire now key.bytes := by
    rw [← hs₂, keyMap_removeIfExpired, keyMap_beginWrite]
  have hclock : s₂.clockMs = now := by rw [← hs₂]; simp
  have hlive : s₂.keyspace.lookup key.bytes = s.live now key.bytes := by
    show Store.lookup _ key.bytes = _
    rw [← hs₂, lookup_beginRemove, if_pos rfl]
  simp only [write, clockMs_beginWrite, hs₂, StoreOp.effect, ← hmap, conditionMatches_entry,
    expiryFromOption_entry, lookup, hclock]
  split
  · rename_i hmatches
    generalize expiryFromOption opts.expiry (s₂.keyspace.lookup key.bytes) now = expiresAt
    refine ⟨(s₂.stored env key { value, expiresAt, lruClock := lruClock now }).value, ?_, ?_⟩
    · rw [stored]
      split
      · rename_i hprimary
        rw [hlive] at hmatches
        exact .inr ⟨⟨hmatches, hs₂ ▸ hprimary⟩, rfl⟩
      · exact .inl rfl
    · rw [keyMap_maybeStartResize, keyMap_updateExpiry, keyMap_insertOrReplace]
  · exact ⟨value, .inl rfl, rfl⟩

end Set

theorem keyMap_access (env : Env) (s : Store) (now : Nat) (key : Bytes) :
    (s.access env now key).1.keyMap = s.keyMap.expire now key ∧
      (s.access env now key).2.map Entry.contents = s.keyMap.live now key := by
  rw [KeyMap.expire, live_keyMap]
  cases hlive : s.live now key with
  | none =>
    obtain ⟨s', haccess, hlookup⟩ := access_of_dead env hlive
    rw [haccess]
    exact ⟨keyMap_update hlookup, rfl⟩
  | some e =>
    obtain ⟨s', e', haccess, hvalue, hexp, hlookup⟩ := access_of_live env hlive
    have hcontents : e'.contents = e.contents := by
      rw [Entry.contents, hvalue, hexp, Entry.contents]
    rw [haccess]
    refine ⟨?_, congrArg some hcontents⟩
    rw [keyMap_update hlookup, map_some, map_some, hcontents]

theorem keyMap_putValue (value : SenkoValue) : (s.putValue key value).keyMap =
      update s.keyMap key ((s.keyMap key).map fun e => (value, e.2)) := by
  rw [keyMap_update fun _ => lookup_putValue value, keyMap, Option.map_map, Option.map_map]
  rfl

/-- What a sequence of removals and sweeps may do to a store. -/
def AdvancedTo (s s' : Store) : Prop :=
  s'.clockMs = s.clockMs ∧ ∀ key, Advanced s.clockMs (s.keyMap key) (s'.keyMap key)

theorem AdvancedTo.refl (s : Store) : AdvancedTo s s := ⟨rfl, fun _ => .kept _⟩

theorem AdvancedTo.trans {s₁ s₂ s₃ : Store} (h₁ : AdvancedTo s₁ s₂) (h₂ : AdvancedTo s₂ s₃) :
    AdvancedTo s₁ s₃ :=
  ⟨h₂.1.trans h₁.1, fun key => (h₁.2 key).trans (h₁.1 ▸ h₂.2 key)⟩

variable (env s)

/-- The clock and the memory limit after an operation. -/
theorem clockMs_step_and_maxMemory_step (op : StoreOp) :
    (op.step env s).clockMs = op.clock s.clockMs ∧ (op.step env s).maxMemory = s.maxMemory := by
  obtain ⟨hclock, hmem⟩ := (op.step_changes env s).keeps
  rw [hclock, hmem]
  cases op <;> exact ⟨rfl, rfl⟩

variable {env s}

variable (env s)

/-! ## Lookups -/

variable (now key)

theorem get_eq : (s.get env now key).2 = (s.keyMap.live now key).map Prod.fst := by
  rw [← (keyMap_access env s now key).2, Option.map_map]
  rfl

end Store

end Senko
