import Senko.Lib.Run
import Senko.Store.StoreLookup

/-!
# Senko — runs of a store

The operations on a store as data, so that statements about every sequence of them are inductions
over a list. An in-place mutation through `get_*_mut` or `get_or_create_*` is an operation with the
function that the holder of the reference applies.
-/

namespace Senko

/-! ## Collections -/

/-- The types that have mutable accessors. -/
inductive Collection where
  | hash
  | list
  | set
  | stream
  | zset

variable {f : HashObject SenkoValue → HashObject SenkoValue} {c : Collection}

namespace Collection

/-- What the accessors of a type give a reference to. -/
def Object : Collection → Type
  | hash => HashObject SenkoValue
  | list => QuickList
  | set => SetObject
  | stream => StreamObject
  | zset => ZSetObject

def project : (c : Collection) → SenkoValue → Option c.Object
  | hash => Store.asHash
  | list => Store.asList
  | set => Store.asSet
  | stream => Store.asStream
  | zset => Store.asZset

def value : (c : Collection) → c.Object → SenkoValue
  | hash => SenkoValue.hash
  | list => SenkoValue.list
  | set => SenkoValue.set
  | stream => SenkoValue.stream
  | zset => SenkoValue.zset

/-- The objects that an accessor removes. -/
def isEmpty : (c : Collection) → Nat → c.Object → Bool
  | hash => fun clockMs h => HashObject.isEmpty h clockMs
  | list => fun _ => QuickList.isEmpty
  | set => fun _ => SetObject.isEmpty
  | stream => fun _ _ => false
  | zset => fun _ => ZSetObject.isEmpty

/-- The object that `get_or_create_*` puts in. -/
def freshObject (env : Env) : (c : Collection) → c.Object
  | hash => HashObject.new env.fieldPlace
  | list => QuickList.default
  | set => SetObject.new
  | stream => {}
  | zset => ZSetObject.new

def fresh (env : Env) (c : Collection) : SenkoValue := c.value (c.freshObject env)

/-- A fresh object is its own clone. -/
theorem clone_fresh (env : Env) (c : Collection) : (c.fresh env).clone env = c.fresh env := by
  cases c with
  | hash =>
    have hnone : (env.fieldPlace.withCapacity 0).items = [] := env.fieldPlace.items_withCapacity 0
    simp [fresh, value, freshObject, SenkoValue.clone, HashObject.clone, HashObject.new,
      HashTable.len, hnone]
  | _ => rfl

theorem value_of_project {v : SenkoValue} {o : c.Object} (h : c.project v = some o) :
    c.value o = v := by
  cases c <;> cases v <;> first | (cases h; rfl) | cases h

end Collection

/-! ## Operations -/

inductive StoreOp where
  | set (now : Nat) (key : CompactString) (value : SenkoValue) (opts : SetOptions)
  | delete (now : Nat) (key : Bytes)
  | rename (now : Nat) (source : Bytes) (dest : CompactString)
  | copyFromEntry (now : Nat) (dest : CompactString) (entry : Entry) (expiresAt : Option Nat)
  | get (now : Nat) (key : Bytes)
  | cloneEntry (now : Nat) (key : Bytes)
  | setExpiry (now : Nat) (key : Bytes) (expiresAt : Nat)
  | removeExpiry (now : Nat) (key : Bytes)
  | advanceExpiryWheel (now : Nat)
  | maybeStartResize
  | incrementalRehashStep
  /-- Mutate the object of a key, if it is there, through `get_*_mut`. -/
  | mutate (c : Collection) (now : Nat) (key : Bytes) (f : c.Object → c.Object)
  /-- Mutate the object of a key through `get_or_create_*`. -/
  | create (c : Collection) (now : Nat) (key : CompactString) (f : c.Object → c.Object)

namespace StoreOp

variable (env : Env)

def step (s : Store) : StoreOp → Store
  | set now key value opts => (s.set env now key value opts).1
  | delete now key => (s.delete env now key).1
  | rename now source dest => (s.rename env now source dest).1
  | copyFromEntry now dest entry expiresAt => (s.copyFromEntry env now dest entry expiresAt).1
  | get now key => (s.get env now key).1
  | cloneEntry now key => (s.cloneEntry env now key).1
  | setExpiry now key expiresAt => s.setExpiry env now key expiresAt
  | removeExpiry now key => s.removeExpiry env now key
  | advanceExpiryWheel now => (s.advanceExpiryWheel env now).1
  | maybeStartResize => s.maybeStartResize env
  | incrementalRehashStep =>
    { s with keyspace := s.keyspace.incrementalRehashStep env.place }
  | mutate c now key f =>
    match Store.getTyped env c.project (c.isEmpty s.clockMs) s now key with
    | (s, none) => s
    | (s, some object) => s.putValue key (c.value (f object))
  | create c now key f =>
    match Store.getOrCreate env c.project (c.fresh env) s now key with
    | (s, none) => s
    | (s, some object) => s.putValue key.bytes (c.value (f object))

/-- The clock of the store after an operation. -/
def clock : StoreOp → Nat → Nat
  | set now _ _ _, _ | delete now _, _ | rename now _ _, _ | copyFromEntry now _ _ _, _
  | cloneEntry now _, _ | setExpiry now _ _, _ | removeExpiry now _, _ | create _ now _ _, _ => now
  | advanceExpiryWheel now, clockMs => max clockMs now
  | get _ _, clockMs | maybeStartResize, clockMs | incrementalRehashStep, clockMs
  | mutate _ _ _ _, clockMs => clockMs

def run (s : Store) (ops : List StoreOp) : Store := ops.foldl (step env) s

/-- Every operation of a run meets a condition in the state it runs in. -/
abbrev All (safe : Store → StoreOp → Prop) : Store → List StoreOp → Prop := RunAll (step env) safe

end StoreOp

/-! ## Elementary changes

Every operation sets the clock and then makes a number of elementary changes. An invariant is proved
for each of them once, and holds after every operation by `StoreOp.step_changes`. -/

namespace Store

section Changes

variable (env : Env) (D : Option Nat → Prop) (V : SenkoValue → SenkoValue → Prop)

/-- An elementary change: `D` holds of the deadlines that are given out and `V` of the values that
are replaced in place, or by their clone as they are stored. -/
inductive Change : Store → Store → Prop where
  | rehash (s : Store) :
      Change s { s with keyspace := s.keyspace.incrementalRehashStep env.place }
  | resize (s : Store) : Change s (s.maybeStartResize env)
  | remove (s : Store) (key : Bytes) : Change s (s.removeSlot env key).1
  | put (s : Store) (key : CompactString) (e : Entry) (h : D e.expiresAt)
      (hstored : s.stored env key e = e ∨ V e.value (s.stored env key e).value) :
      Change s ((s.insertOrReplace env key e).updateExpiry key none e.expiresAt)
  | touch (s : Store) (key : Bytes) (lru : Nat) :
      Change s { s with keyspace := s.keyspace.modifyEntry key fun e => { e with lruClock := lru } }
  | retime (s : Store) {key : Bytes} {stored : CompactString} {e : Entry} (expiresAt : Option Nat)
      (hslot : s.keyspace.tables.findSlot key = some (stored, e)) (h : D expiresAt) :
      Change s (Store.updateExpiry
        { s with keyspace := s.keyspace.modifyEntry key fun e => { e with expiresAt } }
        stored e.expiresAt expiresAt)
  | mutate (s : Store) (key : Bytes) (e : Entry) (value : SenkoValue)
      (hlookup : s.lookup key = some e) (h : V e.value value) : Change s (s.putValue key value)
  | fields (s : Store) (w : FieldExpiryWheel) : Change s { s with fieldExpiryWheel := w }
  | reseed (s : Store) (seed : UInt64) : Change s { s with evictionSeed := seed }

def Changes : Store → Store → Prop := Relation.ReflTransGen (Change env D V)

variable {env D V} {s s' s'' : Store}

theorem Changes.refl (s : Store) : Changes env D V s s := Relation.ReflTransGen.refl

theorem Changes.trans (h : Changes env D V s s') (h' : Changes env D V s' s'') :
    Changes env D V s s'' :=
  Relation.ReflTransGen.trans h h'

theorem Change.changes (h : Change env D V s s') : Changes env D V s s' :=
  Relation.ReflTransGen.single h

/-- **Invariants of operations**: what every elementary change keeps. -/
theorem Changes.induction {P : Store → Prop} (hchange : ∀ s s', Change env D V s s' → P s → P s')
    (h : Changes env D V s s') (hs : P s) : P s' := by
  induction h with
  | refl => exact hs
  | tail _ hlast ih => exact hchange _ _ hlast ih

variable (env D V s)

variable (key : Bytes) (dest : CompactString) (value : SenkoValue) (now : Nat)

theorem changes_removeIfExpired : Changes env D V s (s.removeIfExpired env key now).1 := by
  unfold removeIfExpired
  split
  · exact (Change.remove s key).changes
  · exact .refl s

theorem changes_removeEntry : Changes env D V s (s.removeEntry env key).1 :=
  (Change.remove s key).changes

/-- The start of every write. -/
theorem changes_beginWrite : Changes env D V { s with clockMs := now } (s.beginWrite env now) :=
  (Change.rehash { s with clockMs := now }).changes

theorem changes_beginRemove : Changes env D V { s with clockMs := now }
      ((s.beginWrite env now).removeIfExpired env key now).1 :=
  (changes_beginWrite env D V s now).trans (changes_removeIfExpired env D V _ key now)

theorem changes_sampleEvictionCandidate : Changes env D V s s.sampleEvictionCandidate.1 := by
  unfold sampleEvictionCandidate
  dsimp only
  split
  · exact .refl s
  · exact (Change.reseed s _).changes

theorem changes_maybeEvict : Changes env D V s (s.maybeEvict env) := by
  unfold maybeEvict
  split
  · have hsample := changes_sampleEvictionCandidate env D V s
    generalize s.sampleEvictionCandidate = r at hsample
    obtain ⟨s', victim⟩ := r
    cases victim with
    | none => exact hsample
    | some victim => exact hsample.trans (changes_removeEntry env D V s' victim.bytes)
  · exact .refl s

/-- Scheduling fields only changes the field wheel. -/
theorem scheduleFieldExpiriesForValue_eq (key : CompactString) (value : SenkoValue) :
    ∃ w, s.scheduleFieldExpiriesForValue key value = { s with fieldExpiryWheel := w } := by
  unfold scheduleFieldExpiriesForValue
  split
  · split
    · generalize HashObject.iterLive _ _ = fields
      induction fields generalizing s with
      | nil => exact ⟨_, rfl⟩
      | cons field fields ih =>
        rw [List.foldl_cons]
        split
        · obtain ⟨w, hw⟩ := ih (s.scheduleHashFieldExpiry key field.1 _)
          exact ⟨w, hw⟩
        · exact ih s
    · exact ⟨_, rfl⟩
  · exact ⟨_, rfl⟩

theorem putScheduled_eq (scheduled : SenkoValue) (expiresAt : Option Nat) :
    ∃ w, s.putScheduled env dest value scheduled expiresAt = maybeStartResize env
      { (s.insertOrReplace env dest
          { value, expiresAt, lruClock := lruClock s.clockMs }).updateExpiry
          dest none expiresAt with fieldExpiryWheel := w } := by
  obtain ⟨w, hw⟩ := scheduleFieldExpiriesForValue_eq
    ((s.insertOrReplace env dest { value, expiresAt, lruClock := lruClock s.clockMs }).updateExpiry
      dest none expiresAt) dest scheduled
  exact ⟨w, by rw [← hw]; rfl⟩

variable {expiresAt : Option Nat}

/-- The destination is removed before the entry is put. -/
theorem changes_replaceScheduled (scheduled : SenkoValue) (h : D expiresAt) :
    Changes env D V s
      ((s.removeEntry env dest.bytes).1.putScheduled env dest value scheduled expiresAt) := by
  refine (changes_removeEntry env D V s dest.bytes).trans ?_
  have hmissing : (s.removeEntry env dest.bytes).1.lookup dest.bytes = none := by
    rw [lookup_removeEntry, if_pos rfl]
  generalize (s.removeEntry env dest.bytes).1 = s at hmissing
  obtain ⟨w, hw⟩ := putScheduled_eq env s dest value scheduled expiresAt
  rw [hw]
  refine ((Change.put s dest { value, expiresAt, lruClock := lruClock s.clockMs } h
    (.inl (stored_of_missing hmissing))).changes).trans ?_
  exact (Change.fields _ w).changes.trans (Change.resize _).changes

theorem changes_access : Changes env D V s (s.access env now key).1 := by
  unfold access
  split
  · exact .refl s
  split
  · exact changes_removeEntry env D V s key
  · dsimp only
    split
    · exact .refl s
    · exact (Change.touch s key _).changes

theorem changes_getTyped {α : Type} (project : SenkoValue → Option α) (isEmpty : α → Bool)
    (key : Bytes) (now : Nat) : Changes env D V s (getTyped env project isEmpty s now key).1 := by
  have haccess := changes_access env D V s key now
  unfold getTyped
  generalize s.access env now key = r at haccess
  obtain ⟨s', e⟩ := r
  rcases e with _ | e
  · exact haccess
  dsimp only at haccess ⊢
  split
  · exact haccess
  · split
    · exact haccess.trans (changes_removeEntry env D V s' key)
    · exact haccess

theorem changes_getOrCreate {α : Type} (project : SenkoValue → Option α) {fresh : SenkoValue}
    (hclone : fresh.clone env = fresh) (key : CompactString) (now : Nat) (h : D none) :
    Changes env D V { s with clockMs := now } (getOrCreate env project fresh s now key).1 := by
  have hbegin := changes_beginRemove env D V s key.bytes now
  unfold getOrCreate
  dsimp only
  split
  · exact hbegin
  · refine hbegin.trans ?_
    exact (Change.put _ key { value := fresh, lruClock := lruClock _ } h
      (.inl (stored_of_clone hclone))).changes

theorem changes_sweepHash (h : ∀ e hash, s.lookup key = some e → e.value = .hash hash →
      V (.hash hash) (.hash (f hash))) : Changes env D V s (s.sweepHash env key f).1 := by
  unfold sweepHash
  rcases hfound : (s.keyspace.lookup key).bind fun e => asHash e.value with _ | hash
  · exact .refl s
  obtain ⟨e, hlookup, hhash⟩ := Option.bind_eq_some_iff.1 hfound
  have hvalue : e.value = .hash hash := (Collection.value_of_project (c := .hash) hhash).symm
  have hput : Changes env D V s (s.putValue key (.hash (f hash))) :=
    (Change.mutate s key e _ hlookup (hvalue ▸ h e hash hlookup hvalue)).changes
  dsimp only
  split
  · exact hput.trans (changes_removeEntry env D V _ key)
  · exact hput

/-- A `set` that goes through and finds the key in the primary table, so that the value is cloned.
-/
def Overwrites (key : CompactString) (opts : SetOptions) (now : Nat) : Prop :=
  conditionMatches env.std opts.condition (s.live now key.bytes) = true ∧
    (((s.beginWrite env now).removeIfExpired env key.bytes now).1.keyspace.tables.primary.find
      slotKey
      key.bytes).isSome = true

theorem changes_write (key : CompactString) (value : SenkoValue) (opts : SetOptions) (now : Nat)
    (h : D (expiryFromOption opts.expiry (s.live now key.bytes) now))
    (hclone : s.Overwrites env key opts now → V value (value.clone env)) :
    Changes env D V { s with clockMs := now } (s.write env now key value opts).1 := by
  have hbegin := changes_beginRemove env D V s key.bytes now
  have hexisting : ((s.beginWrite env now).removeIfExpired env key.bytes now).1.keyspace.lookup
      key.bytes = s.live now key.bytes := by
    show Store.lookup _ key.bytes = _
    rw [lookup_beginRemove, if_pos rfl]
  simp only [write, clockMs_beginWrite, hexisting, clockMs_removeIfExpired]
  split
  · rename_i hmatches
    refine hbegin.trans ?_
    refine .trans ?_ (Change.resize _).changes
    refine (Change.put _ key { value, expiresAt := _, lruClock := lruClock now } h ?_).changes
    -- only a slot of the primary table is overwritten, with a clone of the value
    rw [stored]
    split
    · rename_i hprimary
      exact .inr (hclone ⟨hmatches, hprimary⟩)
    · exact .inl rfl
  · exact hbegin

theorem changes_set (key : CompactString) (value : SenkoValue) (opts : SetOptions) (now : Nat)
    (h : D (expiryFromOption opts.expiry (s.live now key.bytes) now))
    (hclone : s.Overwrites env key opts now → V value (value.clone env)) :
    Changes env D V { s with clockMs := now } (s.set env now key value opts).1 := by
  have hwrite := s.changes_write env D V key value opts now h hclone
  unfold Store.set
  dsimp only
  split
  · exact hwrite.trans (changes_maybeEvict env D V _)
  · exact hwrite

theorem changes_rename (source : Bytes) (dest : CompactString) (now : Nat)
    (h : ∀ e, s.live now source = some e → D e.expiresAt) :
    Changes env D V { s with clockMs := now } (s.rename env now source dest).1 := by
  have hbegin := changes_beginRemove env D V s source now
  have hlive : ((s.beginWrite env now).removeIfExpired env source now).1.lookup source =
      s.live now source := by
    rw [lookup_beginRemove, if_pos rfl]
  unfold rename
  dsimp only
  rw [clockMs_beginWrite]
  generalize (s.beginWrite env now).removeIfExpired env source now = r at hbegin hlive
  obtain ⟨s₁, expired⟩ := r
  cases expired with
  | true => exact hbegin
  | false =>
    dsimp only at hbegin hlive ⊢
    have hdest := hbegin.trans (changes_removeIfExpired env D V s₁ dest.bytes s₁.clockMs)
    -- removing an expired destination leaves the source as it was, or removes it
    have hsource : ∀ e, (s₁.removeIfExpired env dest.bytes s₁.clockMs).1.lookup source = some e →
        D e.expiresAt := by
      intro e he
      rw [lookup_removeIfExpired] at he
      split at he
      · rename_i heq
        rw [← heq] at he
        exact h e (hlive ▸ (live_eq_some.1 he).1)
      · exact h e (hlive ▸ he)
    generalize (s₁.removeIfExpired env dest.bytes s₁.clockMs).1 = s₂ at hdest hsource
    have hslot : Changes env D V s₂ (s₂.removeSlot env source).1 :=
      (Change.remove s₂ source).changes
    have hfound : (s₂.removeSlot env source).2.map Prod.snd = s₂.lookup source := by
      rw [removeSlot_snd]
      rfl
    generalize s₂.removeSlot env source = r at hslot hfound
    obtain ⟨s₃, slot⟩ := r
    cases slot with
    | none => exact hdest.trans hslot
    | some slot =>
      refine hdest.trans (hslot.trans ?_)
      exact changes_replaceScheduled env D V s₃ dest slot.2.value slot.2.value
        (hsource slot.2 hfound.symm)

theorem changes_copyEntry (entry : Entry) (now : Nat) (h : D expiresAt) :
    Changes env D V { s with clockMs := now } (s.copyEntry env now dest entry expiresAt).1 :=
  (changes_beginRemove env D V s dest.bytes now).trans
    (changes_replaceScheduled env D V _ dest _ _ h)

theorem changes_cloneEntry :
    Changes env D V { s with clockMs := now } (s.cloneEntry env now key).1 := by
  have hbegin := changes_beginRemove env D V s key now
  unfold cloneEntry
  dsimp only
  rw [clockMs_beginWrite]
  generalize (s.beginWrite env now).removeIfExpired env key now = r at hbegin
  obtain ⟨s₁, expired⟩ := r
  cases expired <;> exact hbegin

theorem changes_changeExpiry (h : D expiresAt) :
    Changes env D V { s with clockMs := now } (s.changeExpiry env now key expiresAt) := by
  have hbegin := changes_beginRemove env D V s key now
  unfold changeExpiry
  dsimp only
  rw [clockMs_beginWrite]
  generalize (s.beginWrite env now).removeIfExpired env key now = r at hbegin
  obtain ⟨s₁, expired⟩ := r
  cases expired with
  | true => exact hbegin
  | false =>
    dsimp only at hbegin ⊢
    split
    · exact hbegin
    · rename_i stored e hslot
      exact hbegin.trans (Change.retime s₁ expiresAt hslot h).changes

/-- The store of an active expiry after the clock and the wheels have moved. -/
def afterTicks (now : Nat) : Store :=
  { s with
    clockMs := max s.clockMs now
    expiryWheel := (s.expiryWheel.advance (max s.clockMs now)).1
    fieldExpiryWheel := (s.fieldExpiryWheel.advance (max s.clockMs now)).1 }

/-- The hash of a key has been swept from one that the store held. -/
def SweptFrom (clockMs : Nat) (key : Bytes) (hash : HashObject SenkoValue) : Prop :=
  ∃ e₀ hash₀, s.lookup key = some e₀ ∧ e₀.value = .hash hash₀ ∧ SweptHash clockMs hash₀ hash

/-- Sweeping a hash leaves the other entries and gives swept hashes. -/
theorem sweptFrom_sweepHash {s' : Store} {clockMs : Nat} {key : Bytes}
    (h : ∀ key e hash, s'.lookup key = some e → e.value = .hash hash →
      s.SweptFrom clockMs key hash) (hf : ∀ hash, SweptHash clockMs hash (f hash)) (key' : Bytes)
    (e : Entry) (hash : HashObject SenkoValue)
    (hlookup : (s'.sweepHash env key f).1.lookup key' = some e) (hvalue : e.value = .hash hash) :
    s.SweptFrom clockMs key' hash := by
  unfold sweepHash at hlookup
  rcases hfound : (s'.keyspace.lookup key).bind fun e => asHash e.value with _ | old
  · rw [hfound] at hlookup
    exact h key' e hash hlookup hvalue
  rw [hfound] at hlookup
  obtain ⟨e₁, he₁, hhash⟩ := Option.bind_eq_some_iff.1 hfound
  have hold : e₁.value = .hash old := (Collection.value_of_project (c := .hash) hhash).symm
  -- the entries after the value was written
  have hput : ∀ e, (s'.putValue key (.hash (f old))).lookup key' = some e →
      e.value = .hash hash → s.SweptFrom clockMs key' hash := by
    intro e he hvalue
    rw [lookup_putValue] at he
    split at he
    · rename_i heq
      rw [show s'.lookup key = some e₁ from he₁, Option.map_some, Option.some.injEq] at he
      obtain ⟨e₀, hash₀, hlookup₀, hvalue₀, hswept⟩ := h key e₁ old he₁ hold
      rw [← he] at hvalue
      cases hvalue
      exact ⟨e₀, hash₀, heq ▸ hlookup₀, hvalue₀, hswept.trans (hf old)⟩
    · exact h key' e hash he hvalue
  dsimp only at hlookup
  split at hlookup
  · have hgone : ((s'.putValue key (.hash (f old))).removeEntry env key).1.lookup key' = some e :=
      hlookup
    rw [lookup_removeEntry] at hgone
    split at hgone
    · cases hgone
    · exact hput e hgone hvalue
  · exact hput e hlookup hvalue

theorem changes_advanceExpiryWheel (h : ∀ key hash hash', s.SweptFrom (max s.clockMs now) key hash →
      SweptHash (max s.clockMs now) hash hash' → V (.hash hash) (.hash hash')) :
    Changes env D V (s.afterTicks now) (s.advanceExpiryWheel env now).1 := by
  have hstart : Changes env D V (s.afterTicks now) (s.advanceWheels env now).1 :=
    (Change.rehash (s.afterTicks now)).changes
  -- the loops keep the clock, and what they sweep was swept from what the store held
  refine (advanceExpiryWheel_induction (P := fun s' =>
    s'.clockMs = max s.clockMs now ∧ (∀ key e hash, s'.lookup key = some e → e.value = .hash hash →
        s.SweptFrom (max s.clockMs now) key hash) ∧
      Changes env D V (s.afterTicks now) s') ?_ ?_ ⟨rfl, ?_, hstart⟩).2.2
  · rintro s' key ⟨hclock, hswept, hs'⟩
    refine ⟨clockMs_removeIfExpired.trans hclock, fun key' e hash he hvalue => ?_,
      hs'.trans (changes_removeIfExpired env D V s' key s'.clockMs)⟩
    rw [lookup_removeIfExpired] at he
    split at he
    · rename_i heq
      exact hswept key' e hash (heq ▸ (live_eq_some.1 he).1) hvalue
    · exact hswept key' e hash he hvalue
  · rintro s' key f ⟨hclock, hswept, hs'⟩ hf
    rw [hclock] at hf
    refine ⟨?_, s.sweptFrom_sweepHash env hswept hf,
      hs'.trans (changes_sweepHash env D V s' key fun e hash he hvalue =>
        h key hash (f hash) (hswept key e hash he hvalue) (hf hash))⟩
    unfold sweepHash
    split
    · exact hclock
    · dsimp only
      split
      · exact clockMs_removeEntry.trans hclock
      · exact hclock
  · intro key e hash he hvalue
    have hlookup : (s.advanceWheels env now).1.lookup key = s.lookup key :=
      Keyspace.lookup_incrementalRehashStep
    exact ⟨e, hash, hlookup ▸ he, hvalue, Relation.ReflTransGen.refl⟩

end Changes

end Store

namespace StoreOp

/-- The deadlines that an operation gives out. -/
def Deadline (s : Store) : StoreOp → Option Nat → Prop
  | set now key _ opts => fun d => d = expiryFromOption opts.expiry (s.live now key.bytes) now
  | rename now source _ => fun d => ∃ e, s.live now source = some e ∧ d = e.expiresAt
  | copyFromEntry _ _ _ expiresAt => fun d => d = expiresAt
  | setExpiry _ _ expiresAt => fun d => d = some expiresAt
  | removeExpiry _ _ | create _ _ _ _ => fun d => d = none
  | _ => fun _ => False

/-- The values that an operation replaces in place, or by their clone as it stores them. -/
def Mutation (env : Env) (s : Store) : StoreOp → SenkoValue → SenkoValue → Prop
  | set now key value opts => fun old new => s.Overwrites env key opts now ∧ old = value ∧
      new = value.clone env
  | advanceExpiryWheel now => fun old new => ∃ key hash hash',
      s.SweptFrom (max s.clockMs now) key hash ∧ Store.SweptHash (max s.clockMs now) hash hash' ∧
        old = .hash hash ∧ new = .hash hash'
  | mutate c now key f => fun old new => ∃ e object, s.live now key = some e ∧ e.value = old ∧
      c.project old = some object ∧ c.isEmpty s.clockMs object = false ∧ new = c.value (f object)
  | create c now key f => fun old new => ∃ object, c.project old = some object ∧
      new = c.value (f object) ∧
      ((∃ e, s.live now key.bytes = some e ∧ e.value = old) ∨
        ((s.live now key.bytes).bind fun e => c.project e.value) = none ∧ old = c.fresh env)
  | _ => fun _ _ => False

/-- The store with the clock of an operation and, in an active expiry, its wheels. -/
def start (s : Store) : StoreOp → Store
  | advanceExpiryWheel now => s.afterTicks now
  | op => { s with clockMs := op.clock s.clockMs }

/-- **Every operation is a sequence of elementary changes.** -/
theorem step_changes (env : Env) (s : Store) (op : StoreOp) :
    Store.Changes env (op.Deadline s) (op.Mutation env s) (op.start s) (op.step env s) := by
  cases op with
  | set now key value opts =>
    exact s.changes_set env _ _ key value opts now rfl fun h => ⟨h, rfl, rfl⟩
  | delete now key =>
    exact (s.changes_beginRemove env _ _ key now).trans (Store.changes_removeEntry env _ _ _ key)
  | rename now source dest =>
    exact s.changes_rename env _ _ source dest now fun e he => ⟨e, he, rfl⟩
  | copyFromEntry now dest entry expiresAt =>
    refine Store.Changes.trans ?_ (Store.changes_maybeEvict env _ _ _)
    exact s.changes_copyEntry env _ _ dest entry now rfl
  | get now key => exact s.changes_access env _ _ key now
  | cloneEntry now key => exact s.changes_cloneEntry env _ _ key now
  | setExpiry now key expiresAt => exact s.changes_changeExpiry env _ _ key now rfl
  | removeExpiry now key => exact s.changes_changeExpiry env _ _ key now rfl
  | advanceExpiryWheel now =>
    exact s.changes_advanceExpiryWheel env _ _ now fun key hash hash' hfrom h =>
      ⟨key, hash, hash', hfrom, h, rfl, rfl⟩
  | maybeStartResize => exact (Store.Change.resize s).changes
  | incrementalRehashStep => exact (Store.Change.rehash s).changes
  | mutate c now key f =>
    have htyped := s.changes_getTyped env ((StoreOp.mutate c now key f).Deadline s)
      ((StoreOp.mutate c now key f).Mutation env s) c.project (c.isEmpty s.clockMs) key now
    unfold StoreOp.step
    dsimp only
    cases hfound : Store.getTyped env c.project (c.isEmpty s.clockMs) s now key with
    | mk s' object =>
      rw [hfound] at htyped
      rcases object with _ | object
      · exact htyped
      -- the object that was found is still the value of the key
      obtain ⟨e, e', hlive, hproject, hfull, hvalue, hlookup⟩ := Store.getTyped_eq_some hfound
      refine htyped.trans (Store.Change.mutate s' key e' _ hlookup ?_).changes
      exact ⟨e, object, hlive, hvalue.symm, by rw [hvalue, hproject], hfull, rfl⟩
  | create c now key f =>
    have hcreate := s.changes_getOrCreate env ((StoreOp.create c now key f).Deadline s)
      ((StoreOp.create c now key f).Mutation env s) c.project (c.clone_fresh env) key now rfl
    obtain ⟨s', e', hget, hcase, hlookup⟩ :=
      Store.getOrCreate_spec c.project (c.clone_fresh env) s now key
    unfold StoreOp.step
    dsimp only
    rw [hget] at hcreate ⊢
    rcases hproject : c.project e'.value with _ | object
    · exact hcreate
    refine hcreate.trans (Store.Change.mutate s' key.bytes e' _ ?_ ?_).changes
    · rw [hlookup, if_pos rfl]
    · refine ⟨object, hproject, rfl, ?_⟩
      exact hcase.imp (fun h => ⟨e', h.1, rfl⟩) fun h => ⟨h.1, h.2.1⟩

end StoreOp

end Senko
