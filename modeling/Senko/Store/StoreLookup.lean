import Senko.Store.Store

/-!
# Senko — what a store holds after each operation

Every operation of the store is described by the lookups it leaves: what it does to its key, and
that it leaves the other keys alone. Eviction is the one operation that can touch a key nobody
named, and without a memory limit it does nothing.
-/

namespace Senko.Store

open Option

variable {env : Env} {s : Store} {key key' : Bytes} {now : Nat} {entry e : Entry} {P : Store → Prop}
  {α : Type} {project : SenkoValue → Option α} {isEmpty : α → Bool} {object : α}

/-- The stored entry of a key, expired or not. -/
def lookup (s : Store) (key : Bytes) : Option Entry := s.keyspace.lookup key

/-- The entry of a key at a time. -/
def live (s : Store) (now : Nat) (key : Bytes) : Option Entry :=
  (s.lookup key).filter fun e => !isExpired e.expiresAt now

theorem live_eq_some :
    s.live now key = some e ↔ s.lookup key = some e ∧ isExpired e.expiresAt now = false := by
  simp [live]

theorem live_congr {s' : Store} (h : s'.lookup key = s.lookup key) :
    s'.live now key = s.live now key := by
  rw [live, h, live]

/-- The keys that are live are those of the slots that have not expired. -/
theorem live_isSome_iff : (s.live now key).isSome = true ↔ ∃ slot ∈
      s.keyspace.tables.slots.filter (fun slot => !isExpired slot.2.expiresAt now),
      slotKey slot = key := by
  simp only [isSome_iff_exists, live_eq_some, List.mem_filter, Bool.not_eq_true']
  constructor
  · rintro ⟨e, hlookup, hexp⟩
    obtain ⟨slot, hslot, rfl, rfl⟩ := Keyspace.lookup_eq_some.1 hlookup
    exact ⟨slot, ⟨hslot, hexp⟩, rfl⟩
  · rintro ⟨slot, ⟨hslot, hexp⟩, rfl⟩
    exact ⟨slot.2, Keyspace.lookup_eq_some.2 ⟨slot, hslot, rfl, rfl⟩, hexp⟩

/-- The entries of both tables are counted. -/
theorem entryCount_eq_length : s.entryCount = s.keyspace.tables.slots.length := by
  unfold entryCount Tables.slots
  cases s.keyspace.tables.resize <;> simp [HashTable.len]

/-! ## Slots -/

section Stored

variable {key : CompactString}

theorem lookup_insertOrReplace : (s.insertOrReplace env key entry).lookup key' =
      if key' = key.bytes then some (s.stored env key entry) else s.lookup key' :=
  Keyspace.lookup_insertOrReplace

/-- A value that is its own clone is stored as it is. -/
theorem stored_of_clone (h : entry.value.clone env = entry.value) :
    s.stored env key entry = entry := by
  unfold stored Entry.clone
  split
  · rw [h]
  · rfl

/-- Under a new key the entry itself is stored. -/
theorem stored_of_missing (h : s.lookup key.bytes = none) : s.stored env key entry = entry := by
  rw [lookup, Keyspace.lookup, map_eq_none_iff, Tables.findSlot, or_eq_none_iff] at h
  rw [stored, h.1]
  rfl

theorem expiresAt_stored : (s.stored env key entry).expiresAt = entry.expiresAt := by
  unfold stored
  split <;> rfl

end Stored

theorem lookup_putValue (value : SenkoValue) : (s.putValue key value).lookup key' =
      if key' = key then (s.lookup key).map fun e => { e with value } else s.lookup key' :=
  Keyspace.lookup_modifyEntry _

theorem lookup_removeSlot :
    (s.removeSlot env key).1.lookup key' = if key' = key then none else s.lookup key' := by
  unfold removeSlot
  cases hfind : s.keyspace.tables.findSlot key with
  | none =>
    have hnone : s.lookup key = none := by rw [lookup, Keyspace.lookup, hfind]; rfl
    by_cases heq : key' = key
    · subst heq
      rw [if_pos rfl]
      exact hnone
    · rw [if_neg heq]
  | some slot => exact Keyspace.lookup_removeSlot

theorem removeSlot_snd : (s.removeSlot env key).2 = s.keyspace.tables.findSlot key := by
  unfold removeSlot
  split <;> simp_all

theorem lookup_removeEntry :
    (s.removeEntry env key).1.lookup key' = if key' = key then none else s.lookup key' :=
  lookup_removeSlot

@[simp] theorem lookup_beginWrite : (s.beginWrite env now).lookup key = s.lookup key :=
  Keyspace.lookup_incrementalRehashStep

@[simp] theorem clockMs_beginWrite : (s.beginWrite env now).clockMs = now := rfl

theorem live_eq_ite : s.live now key =
    if (s.keyspace.lookup key).any fun e => isExpired e.expiresAt now then none
    else s.lookup key := by
  rw [live, lookup]
  cases s.keyspace.lookup key with
  | none => rfl
  | some e => cases h : isExpired e.expiresAt now <;> simp [Option.filter, h]

/-- Removing what has expired leaves what is live. -/
theorem lookup_removeIfExpired : (s.removeIfExpired env key now).1.lookup key' =
      if key' = key then s.live now key else s.lookup key' := by
  rw [removeIfExpired, live_eq_ite]
  split
  · exact lookup_removeEntry
  · by_cases heq : key' = key <;> simp [heq]

/-- What a command that begins at `key` finds, after the step of the rehash. -/
theorem lookup_beginRemove : ((s.beginWrite env now).removeIfExpired env key now).1.lookup key' =
      if key' = key then s.live now key else s.lookup key' := by
  rw [lookup_removeIfExpired, live_congr lookup_beginWrite, lookup_beginWrite]

/-- **A cloned entry** is the clone of the live one; what has expired is removed. -/
theorem cloneEntry_spec (env : Env) (s : Store) (now : Nat) (key : Bytes) :
    (s.cloneEntry env now key).2 = (s.live now key).map (Entry.clone env) ∧
      ∀ key', (s.cloneEntry env now key).1.lookup key' =
        if key' = key then s.live now key else s.lookup key' := by
  have hlive : (s.beginWrite env now).live now key = s.live now key := live_congr lookup_beginWrite
  have hlookup : ∀ key', ((s.beginWrite env now).removeIfExpired env key now).1.lookup key' =
      if key' = key then s.live now key else s.lookup key' := fun _ => lookup_beginRemove
  have hexpired : ((s.beginWrite env now).removeIfExpired env key now).2 = true →
      s.live now key = none := by
    rw [removeIfExpired, ← hlive, live_eq_ite]
    split
    · exact fun _ => rfl
    · rintro ⟨⟩
  unfold cloneEntry
  dsimp only
  rw [clockMs_beginWrite]
  generalize (s.beginWrite env now).removeIfExpired env key now = r at hlookup hexpired
  obtain ⟨s₁, expired⟩ := r
  cases expired with
  | true => exact ⟨by rw [hexpired rfl]; rfl, hlookup⟩
  | false =>
    refine ⟨?_, hlookup⟩
    have hkey := hlookup key
    rw [if_pos rfl] at hkey
    exact congrArg (Option.map (Entry.clone env)) hkey

@[simp] theorem lookup_updateExpiry {key : CompactString} {old new : Option Nat} :
    (s.updateExpiry key old new).lookup key' = s.lookup key' := rfl

@[simp] theorem lookup_maybeStartResize : (s.maybeStartResize env).lookup key' = s.lookup key' :=
  Keyspace.lookup_maybeStartResize

/-! ## Fields no lookup reads -/

@[simp] theorem maxMemory_removeEntry : (s.removeEntry env key).1.maxMemory = s.maxMemory := by
  unfold removeEntry removeSlot
  split <;> rfl

@[simp] theorem clockMs_removeEntry : (s.removeEntry env key).1.clockMs = s.clockMs := by
  unfold removeEntry removeSlot
  split <;> rfl

@[simp] theorem clockMs_removeIfExpired :
    (s.removeIfExpired env key now).1.clockMs = s.clockMs := by
  unfold removeIfExpired
  split
  · exact clockMs_removeEntry
  · rfl

/-! ## Eviction -/

theorem lookup_evictionSeed (seed : UInt64) :
    ({ s with evictionSeed := seed } : Store).lookup key = s.lookup key := rfl

theorem iterLiveSlots_evictionSeed (seed : UInt64) :
    ({ s with evictionSeed := seed } : Store).iterLiveSlots = s.iterLiveSlots := rfl

theorem lookup_nextRandomSeed : s.nextRandomSeed.lookup key = s.lookup key :=
  lookup_evictionSeed _

theorem lookup_sampleEvictionCandidate : s.sampleEvictionCandidate.1.lookup key = s.lookup key := by
  unfold sampleEvictionCandidate
  dsimp only
  split
  · rfl
  · exact lookup_nextRandomSeed

theorem oldest_spec (slots : List (Slot Entry)) :
    (oldest slots = none ∧ slots = []) ∨ ∃ slot ∈ slots, oldest slots = some slot := by
  cases slots with
  | nil => exact .inl ⟨rfl, rfl⟩
  | cons slot slots =>
    refine .inr ⟨_, ?_, rfl⟩
    refine List.foldlRecOn slots _ List.mem_cons_self fun old hold slot' hslot' => ?_
    split
    · exact List.mem_cons_of_mem _ hslot'
    · exact hold

/-- **The candidate is live**, and there is one if anything is. -/
theorem sampleEvictionCandidate_snd :
    (s.sampleEvictionCandidate.2 = none ∧ ∀ key, s.live s.clockMs key = none) ∨
      ∃ victim, s.sampleEvictionCandidate.2 = some victim ∧
        (s.live s.clockMs victim.bytes).isSome = true := by
  unfold sampleEvictionCandidate
  dsimp only
  split
  · rename_i htotal
    refine .inl ⟨rfl, fun key => ?_⟩
    rw [← not_isSome_iff_eq_none, live_isSome_iff, List.length_eq_zero_iff.1 htotal]
    simp
  · generalize hstart : s.nextRandomSeed.evictionSeed.toNat % s.keyspace.len %
      s.nextRandomSeed.iterLiveSlots.length = start
    have hlive : s.nextRandomSeed.iterLiveSlots = s.iterLiveSlots := iterLiveSlots_evictionSeed _
    rw [hlive]
    rcases oldest_spec ((s.iterLiveSlots.drop start ++ s.iterLiveSlots.take start).take
      evictionSampleSize) with ⟨hnone, hempty⟩ | ⟨slot, hslot, hsome⟩
    · -- the sample wraps around, so it is empty only if there are no live slots
      refine .inl ⟨by rw [hnone]; rfl, fun key => ?_⟩
      have hnil := (List.take_eq_nil_iff.1 hempty).resolve_left (by decide)
      obtain ⟨hdrop, htake⟩ := List.append_eq_nil_iff.1 hnil
      have hslots : s.iterLiveSlots = [] := by
        rw [← List.take_append_drop start s.iterLiveSlots, hdrop, htake]
        rfl
      rw [← not_isSome_iff_eq_none, live_isSome_iff, ← iterLiveSlots, hslots]
      simp
    · refine .inr ⟨slot.1, by rw [hsome]; rfl, live_isSome_iff.2 ⟨slot, ?_, rfl⟩⟩
      rcases List.mem_append.1 (List.mem_of_mem_take hslot) with h | h
      · exact List.mem_of_mem_drop h
      · exact List.mem_of_mem_take h

/-! ## Access -/

/-- **An access to a live entry** gives it and keeps its value and deadline. -/
theorem access_of_live (env : Env) (h : s.live now key = some e) :
    ∃ s' e', s.access env now key = (s', some e') ∧ e'.value = e.value ∧
      e'.expiresAt = e.expiresAt ∧
      ∀ key', s'.lookup key' = if key' = key then some e' else s.lookup key' := by
  obtain ⟨hlookup, hexp⟩ := live_eq_some.1 h
  unfold access
  rw [show s.keyspace.lookup key = some e from hlookup]
  simp only [hexp, Bool.false_eq_true, if_false]
  split
  · refine ⟨s, e, rfl, rfl, rfl, fun key' => ?_⟩
    by_cases heq : key' = key
    · rw [if_pos heq, heq, hlookup]
    · rw [if_neg heq]
  · refine ⟨_, _, rfl, rfl, rfl, fun key' => ?_⟩
    show Keyspace.lookup _ key' = _
    rw [Keyspace.lookup_modifyEntry, show s.keyspace.lookup key = some e from hlookup]
    rfl

/-- An access to a key without a live entry finds nothing and leaves nothing. -/
theorem access_of_dead (env : Env) (h : s.live now key = none) :
    ∃ s', s.access env now key = (s', none) ∧
      ∀ key', s'.lookup key' = if key' = key then none else s.lookup key' := by
  unfold access
  cases hl : s.keyspace.lookup key with
  | none =>
    refine ⟨s, rfl, fun key' => ?_⟩
    by_cases heq : key' = key
    · rw [if_pos heq, heq]
      exact hl
    · rw [if_neg heq]
  | some e =>
    have hexp : isExpired e.expiresAt now = true := by
      simpa [live, lookup, hl] using h
    simp only [hexp]
    exact ⟨_, rfl, fun _ => lookup_removeEntry⟩

@[simp] theorem maxMemory_access : (s.access env now key).1.maxMemory = s.maxMemory := by
  unfold access
  split
  · rfl
  · split
    · exact maxMemory_removeEntry
    · dsimp only
      split <;> rfl

/-! ## Typed access -/

/-- Only a live, nonempty object is found, and it stays the value of the key. -/
theorem getTyped_eq_some {s' : Store}
    (h : getTyped env project isEmpty s now key = (s', some object)) :
    ∃ e e', s.live now key = some e ∧ project e.value = some object ∧ isEmpty object = false ∧
      e'.value = e.value ∧ s'.lookup key = some e' := by
  rcases hlive : s.live now key with _ | e
  · obtain ⟨s₁, haccess, -⟩ := access_of_dead env hlive
    simp [getTyped, haccess] at h
  obtain ⟨s₁, e', haccess, hvalue, -, hlookup⟩ := access_of_live env hlive
  simp only [getTyped, haccess, hvalue] at h
  rcases hproject : project e.value with _ | found
  · simp [hproject] at h
  simp only [hproject] at h
  cases hempty : isEmpty found with
  | true => simp [hempty] at h
  | false =>
    simp only [hempty] at h
    obtain ⟨rfl, rfl⟩ := h
    exact ⟨e, e', rfl, hproject, hempty, hvalue, by rw [hlookup, if_pos rfl]⟩

/-- **`get_or_create`** keeps a live object of the type and puts a fresh one in every other case. -/
theorem getOrCreate_spec {env : Env} (project : SenkoValue → Option α) {fresh : SenkoValue}
    (hclone : fresh.clone env = fresh) (s : Store) (now : Nat) (key : CompactString) :
    ∃ s' e', getOrCreate env project fresh s now key = (s', project e'.value) ∧
      (s.live now key.bytes = some e' ∧ (project e'.value).isSome = true ∨
        ((s.live now key.bytes).bind fun e => project e.value) = none ∧ e'.value = fresh ∧
          e'.expiresAt = none) ∧
      ∀ key', s'.lookup key' = if key' = key.bytes then some e' else s.lookup key' := by
  generalize hs₂ : ((s.beginWrite env now).removeIfExpired env key.bytes now).1 = s₂
  have hlookup : ∀ key', s₂.lookup key' =
      if key' = key.bytes then s.live now key.bytes else s.lookup key' :=
    fun _ => hs₂ ▸ lookup_beginRemove
  have hkey : s₂.keyspace.lookup key.bytes = s.live now key.bytes := by
    have := hlookup key.bytes
    rwa [if_pos rfl] at this
  simp only [getOrCreate, clockMs_beginWrite, hs₂, hkey]
  cases hexisting : (s.live now key.bytes).bind fun e => project e.value with
  | some object =>
    obtain ⟨e', hlive, hproject⟩ := bind_eq_some_iff.1 hexisting
    refine ⟨s₂, e', ?_, Or.inl ⟨hlive, by rw [hproject]; rfl⟩, fun key' => ?_⟩
    · simp only [isSome_some, if_true, hkey, hexisting, hproject]
    · rw [hlookup, hlive]
  | none =>
    generalize hentry : ({ value := fresh, lruClock := lruClock s₂.clockMs } : Entry) = entry
    have hstored : ∀ key' : Bytes, (s₂.insertOrReplace env key entry).lookup key' =
        if key' = key.bytes then some entry else s₂.lookup key' := by
      intro key'
      rw [lookup_insertOrReplace, stored_of_clone (by rw [← hentry]; exact hclone)]
    refine ⟨s₂.insertOrReplace env key entry, entry, ?_, .inr ⟨rfl, ?_, ?_⟩, fun key' => ?_⟩
    · have hkey' := hstored key.bytes
      rw [if_pos rfl, lookup] at hkey'
      simp [hkey']
    · rw [← hentry]
    · rw [← hentry]
    · rw [hstored, hlookup]
      by_cases heq : key' = key.bytes <;> simp [heq]

/-! ## Active expiry -/

/-- A hash loses fields that have expired. -/
def SweptHash (clockMs : Nat) : HashObject SenkoValue → HashObject SenkoValue → Prop :=
  Relation.ReflTransGen fun h h' =>
    (∃ field, h' = (h.getMut field clockMs).1) ∨ h' = h.drainExpired clockMs

/-- A loop that counts deletions keeps what each of its rounds keeps. -/
theorem countDeleted_induction {f : Store → α → Store × Bool} (items : List α)
    (hstep : ∀ s, ∀ a ∈ items, P s → P (f s a).1) (deleted : Nat) (h : P s) :
    P (countDeleted f items s deleted).1 := by
  unfold countDeleted
  induction items generalizing s deleted with
  | nil => exact h
  | cons item items ih =>
    exact ih (fun s a ha => hstep s a (List.mem_cons_of_mem _ ha)) _
      (hstep s item List.mem_cons_self h)

/-- **Active expiry** keeps what removing expired keys and sweeping hashes keep, from the state in
which the wheels have moved. -/
theorem advanceExpiryWheel_induction
    (hremove : ∀ s key, P s → P (s.removeIfExpired env key s.clockMs).1)
    (hsweep : ∀ s key f, P s → (∀ hash, SweptHash s.clockMs hash (f hash)) →
      P (s.sweepHash env key f).1) (h : P (s.advanceWheels env now).1) :
    P (s.advanceExpiryWheel env now).1 := by
  unfold advanceExpiryWheel
  dsimp only
  refine countDeleted_induction _ (fun s key _ hs => hsweep s key.bytes _ hs fun hash =>
    Relation.ReflTransGen.single (.inr rfl)) _ ?_
  refine countDeleted_induction _ (fun s item _ hs => hsweep s item.1.bytes _ hs fun hash =>
    Relation.ReflTransGen.single (.inl ⟨item.2.bytes, rfl⟩)) _ ?_
  exact countDeleted_induction _ (fun s key _ hs => hremove s key.bytes hs) _ h

end Senko.Store
