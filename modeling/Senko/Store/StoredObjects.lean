import Senko.Store.Commands
import Senko.Store.KeyMap

/-!
# Senko — objects under keys

The commands that combine several keys first read an object of one type under each of them, with a
reading of the clock for each key. What they read is what the map holds at these times
(`collectObjects_eq`): a key that has expired is removed on the way, but it is gone for all later
readings, too.
-/

namespace Senko

open Command List Function

variable {value : SenkoValue} {expiresAt : Option Nat} {destination : CompactString}
  {opts : SetOptions} {keys : List Bytes} {m : KeyMap} {later t i : Nat} {key' : Bytes} {α : Type}
  {object : α}

variable {now : Nat}

theorem isExpired_mono (hle : now ≤ later) (h : isExpired expiresAt now = true) :
    isExpired expiresAt later = true := by
  cases expiresAt with
  | none => cases h
  | some deadline =>
    have hdeadline : deadline ≤ now := by simpa [isExpired] using h
    simpa [isExpired] using le_trans hdeadline hle

namespace KeyMap

variable {now : Nat} {key : Bytes}

/-- Removing what has expired changes nothing for those who look later. -/
theorem live_expire (hle : now ≤ later) :
    (m.expire now key).live later key' = m.live later key' := by
  unfold expire live
  by_cases heq : key' = key
  · subst heq
    rw [update_self, Option.filter_filter]
    congr 1
    funext e
    cases hexp : isExpired e.2 now with
    | false => simp
    | true => simp [isExpired_mono hle hexp]
  · rw [update_of_ne heq]

theorem live_of_not_expired (hstored : m key = some (value, expiresAt))
    (hexp : isExpired expiresAt now = false) : m.live now key = some (value, expiresAt) := by
  rw [live, hstored, Option.filter_some, hexp]
  rfl

/-- The same for all who look from a time on. -/
def SameFrom (t : Nat) (m m' : KeyMap) : Prop :=
  ∀ later, t ≤ later → ∀ key, m'.live later key = m.live later key

theorem SameFrom.refl (t : Nat) (m : KeyMap) : SameFrom t m m := fun _ _ _ => rfl

theorem SameFrom.trans {m' m'' : KeyMap} (h : SameFrom t m m')
    (h' : SameFrom t m' m'') : SameFrom t m m'' :=
  fun later hle key => (h' later hle key).trans (h later hle key)

theorem SameFrom.mono {t' : Nat} {m' : KeyMap} (h : SameFrom t m m') (hle : t ≤ t') :
    SameFrom t' m m' :=
  fun later hlater => h later (hle.trans hlater)

end KeyMap

namespace Store

variable {s : Store} {key : Bytes}

theorem maxMemory_set {env : Env} {key : CompactString} (hmem : s.maxMemory = none) :
    (s.set env now key value opts).1.maxMemory = none :=
  (clockMs_step_and_maxMemory_step env s (.set now key value opts)).2.trans hmem

/-- **`Store::set`** stores a value that is its own clone and leaves every other key, and may then
evict one of them. -/
theorem keyMap_set_of_matches {env : Env} (hclone : value.clone env = value)
    (hcond : conditionMatches env.std opts.condition
      ((s.keyMap.expire now destination.bytes).entry destination.bytes) = true) (key : Bytes) :
    let stored := if key = destination.bytes then
        some (value, expiryFromOption opts.expiry
          ((s.keyMap.expire now destination.bytes).entry destination.bytes) now)
      else s.keyMap key
    (s.set env now destination value opts).1.keyMap key = stored ∨
      s.maxMemory ≠ none ∧ (s.set env now destination value opts).1.keyMap key = none := by
  intro stored
  obtain ⟨value', hvalue, hmap⟩ := keyMap_write env s now destination value opts
  obtain rfl : value' = value := hvalue.elim id fun h => h.2.trans hclone
  have hwrite : (s.write env now destination value' opts).1.keyMap key = stored := by
    rw [hmap]
    simp only [StoreOp.effect, hcond, if_true]
    by_cases hkey : key = destination.bytes
    · simp only [stored, if_pos hkey, hkey, KeyMap.insert, update_self]
    · simp only [stored, if_neg hkey, KeyMap.insert, update_of_ne hkey, KeyMap.expire]
  rw [← hwrite]
  unfold Store.set
  dsimp only
  split
  · have hlimit :=
      (changes_write env (fun _ => True) (fun _ _ => True) s destination value' opts now
        trivial fun _ => trivial).keeps.2
    have hevicted := keyMap_maybeEvict env (s.write env now destination value' opts).1
    unfold StoreOp.Evicted at hevicted
    split at hevicted
    · rename_i hover
      have hlimited : s.maxMemory ≠ none := by
        intro hnone
        rw [hlimit, hnone] at hover
        cases hover
      rcases hevicted with ⟨victim, -, heq⟩ | ⟨-, heq⟩
      · rw [heq]
        by_cases hkey : key = victim
        · exact .inr ⟨hlimited, by rw [hkey]; exact update_self _ _ _⟩
        · exact .inl (update_of_ne hkey _ _)
      · exact .inl (congrFun heq key)
    · exact .inl (congrFun hevicted key)
  · exact .inl rfl

theorem keyMap_set_always {env : Env} (s : Store) (now : Nat) (destination : CompactString)
    {value : SenkoValue} (hclone : value.clone env = value) (key : Bytes) :
    (s.set env now destination value {}).1.keyMap key =
        (if key = destination.bytes then some (value, none) else s.keyMap key) ∨
      s.maxMemory ≠ none ∧ (s.set env now destination value {}).1.keyMap key = none :=
  keyMap_set_of_matches hclone rfl key

/-- Writing a key in a store without a memory limit. -/
theorem keyMap_set_unlimited {env : Env} (hmem : s.maxMemory = none) {value : SenkoValue}
    (hclone : value.clone env = value) (key : Bytes) :
    (s.set env now destination value {}).1.keyMap key =
      if key = destination.bytes then some (value, none) else s.keyMap key :=
  (keyMap_set_always s now destination hclone key).resolve_right fun h => h.1 hmem

section Typed

variable (env : Env) (project : SenkoValue → Option α) (isEmpty : α → Bool) (s : Store) (now : Nat)
  (key : Bytes)

/-- A typed access finds an object that is live and not empty. -/
theorem getTyped_snd : (getTyped env project isEmpty s now key).2 =
    ((s.keyMap.live now key).bind fun e => project e.1).filter fun object => !isEmpty object := by
  rw [← (keyMap_access env s now key).2, getTyped]
  generalize s.access env now key = found
  obtain ⟨s₁, e⟩ := found
  rcases e with _ | e
  · rfl
  show _ = (project e.value).filter _
  dsimp only
  cases project e.value with
  | none => rfl
  | some object => cases hempty : isEmpty object <;> simp [Option.filter, hempty]

theorem maxMemory_getTyped : (getTyped env project isEmpty s now key).1.maxMemory = s.maxMemory :=
  (changes_getTyped env (fun _ => True) (fun _ _ => True) s project isEmpty key now).keeps.2

variable {env project isEmpty s now key}

/-- `get_or_create` keeps a live object of the type and its deadline, and puts a fresh one in every
other case. -/
theorem keyMap_getOrCreate {env : Env} (project : SenkoValue → Option α) {fresh : SenkoValue}
    (hclone : fresh.clone env = fresh) (s : Store) (now : Nat) (key : CompactString) :
    ∃ value expiresAt, (getOrCreate env project fresh s now key).2 = project value ∧
      (getOrCreate env project fresh s now key).1.keyMap =
        s.keyMap.insert key.bytes value expiresAt ∧
      (s.keyMap.live now key.bytes = some (value, expiresAt) ∧ (project value).isSome = true ∨
        ((s.keyMap.live now key.bytes).bind fun e => project e.1) = none ∧ value = fresh ∧
          expiresAt = none) := by
  obtain ⟨s', e, hget, hcase, hlookup⟩ := getOrCreate_spec project hclone s now key
  have hmap : s'.keyMap = s.keyMap.insert key.bytes e.value e.expiresAt := keyMap_update hlookup
  rw [hget, live_keyMap]
  refine ⟨e.value, e.expiresAt, rfl, hmap, ?_⟩
  rcases hcase with ⟨hlive, hsome⟩ | ⟨hnone, hvalue, hexp⟩
  · rw [hlive]
    exact .inl ⟨rfl, hsome⟩
  · refine .inr ⟨?_, hvalue, hexp⟩
    rw [Option.bind_map]
    exact hnone

/-- `remove_*_if_empty` -/
theorem keyMap_removeIfEmpty (env : Env) (project : SenkoValue → Option α) (isEmpty : α → Bool)
    (s : Store) (key : Bytes) :
    (removeIfEmpty env project isEmpty s key).keyMap =
      if (s.keyMap key).any fun e => (project e.1).any isEmpty then s.keyMap.erase key
      else s.keyMap := by
  have hany : ((s.keyMap key).any fun e => (project e.1).any isEmpty) =
      (s.keyspace.lookup key).any fun e => (project e.value).any isEmpty := by
    rw [keyMap, lookup]
    cases s.keyspace.lookup key <;> rfl
  rw [removeIfEmpty, hany]
  split
  · exact keyMap_removeEntry
  · rfl

end Typed

end Store

/-! ## Reading objects -/

section Reading

variable (env : Env) (project : SenkoValue → Option α) (valid : α → Prop) (clock : Nat → Nat)

/-- The objects under the keys, each at its own reading of the clock. -/
def storedObjects (s : Store) (i : Nat) : List Bytes → List (Option α)
  | [] => []
  | key :: keys =>
    ((s.keyMap.live (clock i) key).bind fun e => project e.1) :: storedObjects s (i + 1) keys

/-- Every key holds a valid object of the type or is missing. -/
def HoldObjects (s : Store) (i : Nat) : List Bytes → Prop
  | [] => True
  | key :: keys =>
    (∀ e, s.keyMap.live (clock i) key = some e →
      ∃ object, project e.1 = some object ∧ valid object) ∧
      HoldObjects s (i + 1) keys

variable {project valid clock}

variable {s : Store}

theorem storedObjects_congr (hclock : Monotone clock) {s' : Store} (keys : List Bytes)
    (h : ∀ later, clock i ≤ later → ∀ key, s'.keyMap.live later key = s.keyMap.live later key) :
    storedObjects project clock s' i keys = storedObjects project clock s i keys ∧
      (HoldObjects project valid clock s' i keys ↔ HoldObjects project valid clock s i keys) := by
  induction keys generalizing i with
  | nil => exact ⟨rfl, .rfl⟩
  | cons key keys ih =>
    obtain ⟨hsets, hhold⟩ := ih (i := i + 1) fun later hle =>
      h later (le_trans (hclock (Nat.le_succ i)) hle)
    rw [storedObjects, HoldObjects, h _ (le_refl _), hsets, hhold]
    exact ⟨rfl, .rfl⟩

theorem valid_of_holdObjects (h : HoldObjects project valid clock s i keys) {object : α}
    (hobject : some object ∈ storedObjects project clock s i keys) : valid object := by
  induction keys generalizing i with
  | nil => cases hobject
  | cons key keys ih =>
    rcases mem_cons.1 hobject with heq | hmem
    · obtain ⟨e, hlive, hproject⟩ := Option.bind_eq_some_iff.1 heq.symm
      obtain ⟨object', hproject', hvalid⟩ := h.1 e hlive
      rw [hproject] at hproject'
      cases hproject'
      exact hvalid
    · exact ih h.2 hmem

/-- **The objects that the commands read** are the stored ones. -/
theorem collectObjects_eq (expected : String) (hclock : Monotone clock)
    (keys : List Bytes) (h : HoldObjects project valid clock s i keys) :
    ∃ s', collectObjects env clock project expected i (keys.map .bulkString) s =
        some (.ok (storedObjects project clock s i keys), s') ∧ s'.maxMemory = s.maxMemory := by
  induction keys generalizing s i with
  | nil => exact ⟨s, rfl, rfl⟩
  | cons key keys ih =>
    obtain ⟨hmap, hentry⟩ := Store.keyMap_access env s (clock i) key
    have hmem : (s.access env (clock i) key).1.maxMemory = s.maxMemory := Store.maxMemory_access
    have hlater : ∀ later, clock (i + 1) ≤ later → ∀ key',
        (s.access env (clock i) key).1.keyMap.live later key' = s.keyMap.live later key' := by
      intro later hle key'
      rw [hmap, KeyMap.live_expire (le_trans (hclock (Nat.le_succ i)) hle)]
    obtain ⟨hobjects, hhold⟩ := storedObjects_congr hclock keys hlater
    obtain ⟨s', hrest, hmem'⟩ := ih (hhold.2 h.2)
    refine ⟨s', ?_, hmem'.trans hmem⟩
    have hobject : objectOrMissing project expected (s.get env (clock i) key).2 =
        .ok ((s.keyMap.live (clock i) key).bind fun e => project e.1) := by
      rw [Store.get_eq]
      cases hlive : s.keyMap.live (clock i) key with
      | none => rfl
      | some e =>
        obtain ⟨object, hproject, -⟩ := h.1 e hlive
        simp only [Option.map_some, Option.bind_some, objectOrMissing, hproject]
    rw [map_cons, collectObjects, argBytes_bulkString, ofExcept_ok_bind, store_bind, hobject,
      ofExcept_ok_bind, bind_apply]
    have hstore : (s.get env (clock i) key).1 = (s.access env (clock i) key).1 := rfl
    rw [hstore, hrest, hobjects]
    rfl

theorem storedObjects_ne_nil (hne : keys ≠ []) : storedObjects project clock s i keys ≠ [] := by
  obtain ⟨key, keys', rfl⟩ := exists_cons_of_ne_nil hne
  exact cons_ne_nil _ _

end Reading

/-- The key `a`. -/
theorem validUtf8_a : validUtf8 [0x61] = true := rfl

end Senko
