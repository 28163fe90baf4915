import Senko.Core.Utf8
import Senko.Lib.HashTable

/-!
# Senko — the two tables of the keyspace

The store keeps its keys in a primary table and, while it grows, in the old table as well, from
which every access moves a few slots. `Keyspace` is that pair of tables with the fact that no key is
stored twice, so the operations below keep it by construction. Each one is given by what a lookup
finds afterwards; growing and moving change no lookup.
-/

namespace Senko

open List Option HashTable

abbrev Slot (E : Type) := CompactString × E

def slotKey {E : Type} (slot : Slot E) : Bytes := slot.1.bytes

structure RehashState (E : Type) where
  table : HashTable (Slot E)
  scanBucket : Nat

/-- `primary` and `resize` of the store. -/
structure Tables (E : Type) where
  primary : HashTable (Slot E)
  resize : Option (RehashState E)

def defaultBuckets : Nat := 64
def loadFactorNumerator : Nat := 3
def loadFactorDenominator : Nat := 4
def rehashBatchBuckets : Nat := 8

namespace Tables

variable {E : Type}

/-- The slots of both tables. -/
def slots (t : Tables E) : List (Slot E) :=
  t.primary.items ++ (t.resize.map fun r => r.table.items).getD []

def findSlot (t : Tables E) (key : Bytes) : Option (Slot E) :=
  (t.primary.find slotKey key).or (t.resize.bind fun r => r.table.find slotKey key)

def insertOrReplace (place : Placement (Slot E)) (t : Tables E) (key : CompactString) (entry : E) :
    Tables E :=
  if (t.primary.find slotKey key.bytes).isSome then
    { t with primary := t.primary.modify slotKey key.bytes fun slot => (slot.1, entry) }
  else
    { primary := place.insertUnique t.primary (key, entry)
      resize := t.resize.map fun r => { r with table := r.table.remove slotKey key.bytes } }

/-- The entry of a key is mutated in place. -/
def modifyEntry (t : Tables E) (key : Bytes) (f : E → E) : Tables E :=
  if (t.primary.find slotKey key).isSome then
    { t with primary := t.primary.modify slotKey key fun slot => (slot.1, f slot.2) }
  else
    { t with resize := t.resize.map fun r =>
        { r with table := r.table.modify slotKey key fun slot => (slot.1, f slot.2) } }

def removeSlot (t : Tables E) (key : Bytes) : Tables E :=
  if (t.primary.find slotKey key).isSome then
    { t with primary := t.primary.remove slotKey key }
  else
    { t with resize := t.resize.map fun r => { r with table := r.table.remove slotKey key } }

def maybeStartResize (place : Placement (Slot E)) (t : Tables E) : Tables E :=
  if t.resize.isSome then t
  else
    let buckets := max t.primary.numBuckets 1
    if t.primary.len * loadFactorDenominator ≤ buckets * loadFactorNumerator then t
    else
      { primary := place.withCapacity (max (buckets * 2) defaultBuckets)
        resize := some { table := t.primary, scanBucket := 0 } }

/-- Move one slot: the one in the next occupied bucket of the old table. -/
def migrateOne (place : Placement (Slot E)) (t : Tables E) (r : RehashState E) : Tables E :=
  match r.table.nextOccupied r.scanBucket with
  | none => t
  | some bucket =>
    match r.table.getBucket bucket with
    | none => t
    | some slot =>
      { primary := place.insertUnique t.primary slot
        resize := some
          { table := r.table.remove slotKey (slotKey slot), scanBucket := bucket + 1 } }

/-- The loop of `incremental_rehash_step`, by the number of slots it may still move: the rounds that
find an empty bucket are skipped (`scanRounds_eq_rehashLoop`). -/
def rehashLoop (place : Placement (Slot E)) : Nat → Tables E → Tables E
  | 0, t => t
  | left + 1, t =>
    match t.resize with
    | none => t
    | some r =>
      if r.table.len = 0 then { t with resize := none }
      else rehashLoop place left (migrateOne place t r)

def incrementalRehashStep (place : Placement (Slot E)) (t : Tables E) : Tables E :=
  let t := rehashLoop place rehashBatchBuckets t
  match t.resize with
  | some r => if r.table.len = 0 then { t with resize := none } else t
  | none => t

/-! ## No key twice -/

/-- No key is stored twice. -/
def Distinct (t : Tables E) : Prop := (t.slots.map slotKey).Nodup

variable {place : Placement (Slot E)} {t : Tables E}

/-- A lookup goes through the slots of both tables. -/
theorem findSlot_eq (key : Bytes) : t.findSlot key = t.slots.find? fun s => slotKey s = key := by
  unfold findSlot slots
  rw [find?_append]
  cases t.resize <;> rfl

variable {r : RehashState E} {key : CompactString} {slot : Slot E}

/-- The slot that is found has the key. -/
theorem slotKey_of_findSlot {key : Bytes} (hfind : t.findSlot key = some slot) :
    slotKey slot = key := by
  rw [findSlot_eq] at hfind
  simpa using find?_some hfind

section Found

variable (h : t.Distinct) (key : Bytes)

include h

/-- A key of the primary table is not in the old one. -/
theorem Distinct.primary_cases : (t.primary.find slotKey key).isSome = true ∧
        (∀ r, t.resize = some r → ∀ s ∈ r.table.items, slotKey s ≠ key) ∨
      ¬(t.primary.find slotKey key).isSome = true ∧ ∀ s ∈ t.primary.items, slotKey s ≠ key := by
  rcases hfind : t.primary.find slotKey key with _ | s
  · exact Or.inr ⟨by simp, (find?_key_eq_none slotKey).1 hfind⟩
  refine .inl ⟨rfl, fun r hr s' hs' heq => ?_⟩
  have hkey : slotKey s = key := by simpa using find?_some hfind
  rw [Distinct, slots, hr, map_append, nodup_append] at h
  exact h.2.2 _ (List.mem_map_of_mem (mem_of_find?_eq_some hfind)) _
    (List.mem_map_of_mem hs') (hkey.trans heq.symm)

/-- Rewriting the entry of a key rewrites it in the slots. -/
theorem slots_modifyEntry (f : E → E) : (t.modifyEntry key f).slots =
      t.slots.map fun s => if slotKey s = key then (s.1, f s.2) else s := by
  unfold modifyEntry
  rcases h.primary_cases key with ⟨hfound, hold⟩ | ⟨hmissing, habsent⟩
  · rw [if_pos hfound]
    unfold slots
    rw [items_modify, map_append]
    congr 1
    -- the old table does not have the key
    cases hr : t.resize with
    | none => rfl
    | some r =>
      refine (map_id'' (fun _ => rfl) _).symm.trans (map_congr_left ?_)
      intro s hs
      rw [if_neg (hold r hr s hs)]
  · rw [if_neg hmissing]
    unfold slots
    rw [map_append]
    congr 1
    · refine (map_id'' (fun _ => rfl) _).symm.trans (map_congr_left ?_)
      intro s hs
      rw [if_neg (habsent s hs)]
    · cases t.resize with
      | none => rfl
      | some r => exact items_modify _

/-- Removing a key removes its slot. -/
theorem slots_removeSlot : (t.removeSlot key).slots = t.slots.filter fun s => slotKey s ≠ key := by
  unfold removeSlot
  rcases h.primary_cases key with ⟨hfound, hold⟩ | ⟨hmissing, habsent⟩
  · rw [if_pos hfound]
    unfold slots
    rw [items_remove, filter_append]
    congr 1
    cases hr : t.resize with
    | none => rfl
    | some r => exact (filter_eq_self.2 fun s hs => by simpa using hold r hr s hs).symm
  rw [if_neg hmissing]
  unfold slots
  rw [filter_append]
  congr 1
  · exact (filter_eq_self.2 fun s hs => by simpa using habsent s hs).symm
  · cases t.resize with
    | none => rfl
    | some r => exact items_remove

theorem Distinct.modifyEntry (f : E → E) : (t.modifyEntry key f).Distinct := by
  have hkeys : ∀ s : Slot E, slotKey (if slotKey s = key then (s.1, f s.2) else s) = slotKey s := by
    intro s
    split <;> rfl
  rw [Distinct, slots_modifyEntry h, List.map_map]
  rwa [show slotKey ∘ (fun s : Slot E => if slotKey s = key then (s.1, f s.2) else s) = slotKey from
    funext hkeys]

theorem Distinct.removeSlot : (t.removeSlot key).Distinct := by
  rw [Distinct, slots_removeSlot h]
  exact h.sublist (filter_sublist.map _)

end Found

/-- A stored key is overwritten in place. -/
theorem insertOrReplace_of_found {entry : E}
    (hfound : (t.primary.find slotKey key.bytes).isSome = true) :
    t.insertOrReplace place key entry = t.modifyEntry key.bytes fun _ => entry := by
  rw [insertOrReplace, modifyEntry, if_pos hfound, if_pos hfound]

/-- A key that is not in the primary table leaves the old table and enters the primary one. -/
theorem slots_insertOrReplace_perm {entry : E}
    (hmissing : ¬(t.primary.find slotKey key.bytes).isSome = true) :
    (t.insertOrReplace place key entry).slots.Perm
    ((key, entry) :: (t.removeSlot key.bytes).slots) := by
  rw [insertOrReplace, removeSlot, if_neg hmissing, if_neg hmissing]
  exact (place.insertUnique_perm _ _).append_right _

theorem Distinct.insertOrReplace (h : t.Distinct) (key : CompactString) (entry : E) :
    (t.insertOrReplace place key entry).Distinct := by
  by_cases hfound : (t.primary.find slotKey key.bytes).isSome = true
  · rw [insertOrReplace_of_found hfound]
    exact h.modifyEntry _ _
  · rw [Distinct, ((slots_insertOrReplace_perm hfound).map slotKey).nodup_iff, map_cons, nodup_cons]
    refine ⟨?_, h.removeSlot _⟩
    rw [slots_removeSlot h, List.mem_map]
    rintro ⟨s, hs, hkey⟩
    exact (by simpa using of_mem_filter hs : slotKey s ≠ key.bytes) hkey

theorem fst_of_findSlot (hfind : t.findSlot key.bytes = some slot) : slot.1 = key :=
  CompactString.ext (slotKey_of_findSlot hfind)

/-- The slots of the other keys. -/
def others (t : Tables E) (key : Bytes) : List (Slot E) := t.slots.filter fun s => slotKey s ≠ key

/-- A key that is found is stored once, beside the others. -/
theorem slots_perm_of_findSlot (h : t.Distinct) {key : Bytes}
    (hfind : t.findSlot key = some slot) : t.slots.Perm (slot :: t.others key) := by
  rw [findSlot_eq, find?_key_eq_some slotKey h] at hfind
  rw [others, ← hfind.2]
  exact perm_cons_filter slotKey h hfind.1

theorem others_of_findSlot_eq_none {key : Bytes} (hfind : t.findSlot key = none) :
    t.others key = t.slots := by
  rw [findSlot_eq] at hfind
  refine filter_eq_self.2 fun s hs => ?_
  simpa using (find?_key_eq_none slotKey).1 hfind s hs

theorem slots_modifyEntry_perm (h : t.Distinct) {key : Bytes}
    (hfind : t.findSlot key = some slot) (f : E → E) :
    (t.modifyEntry key f).slots.Perm ((slot.1, f slot.2) :: t.others key) := by
  rw [slots_modifyEntry h]
  refine ((slots_perm_of_findSlot h hfind).map _).trans (List.Perm.of_eq ?_)
  rw [map_cons, if_pos (slotKey_of_findSlot hfind)]
  refine congrArg _ ((map_congr_left fun s hs => ?_).trans (List.map_id _))
  rw [if_neg (by simpa using of_mem_filter hs)]
  rfl

/-- An inserted key is stored once, beside the others. -/
theorem slots_insertOrReplace (place : Placement (Slot E)) (h : t.Distinct) (key : CompactString)
    (entry : E) :
    (t.insertOrReplace place key entry).slots.Perm ((key, entry) :: t.others key.bytes) := by
  by_cases hfound : (t.primary.find slotKey key.bytes).isSome = true
  · obtain ⟨slot, hslot⟩ := isSome_iff_exists.1 hfound
    have hfind : t.findSlot key.bytes = some slot := by rw [findSlot, hslot]; rfl
    have hkey := fst_of_findSlot hfind
    rw [insertOrReplace_of_found hfound, ← hkey]
    exact slots_modifyEntry_perm h (hkey ▸ hfind) _
  · refine (slots_insertOrReplace_perm hfound).trans (List.Perm.of_eq ?_)
    rw [slots_removeSlot h, others]

/-! ## Moving slots -/

theorem slots_maybeStartResize : (t.maybeStartResize place).slots = t.slots := by
  unfold maybeStartResize
  cases hr : t.resize with
  | some r => rfl
  | none =>
    simp only [isSome_none, Bool.false_eq_true, if_false]
    split
    · rfl
    · simp [slots, hr, place.items_withCapacity]

/-- Without its empty old table a pair of tables has the same slots. -/
theorem slots_dropResize (hr : t.resize = some r) (hlen : r.table.len = 0) :
    ({ t with resize := none } : Tables E).slots = t.slots := by
  have hnil : r.table.items = [] := length_eq_zero_iff.1 hlen
  simp [slots, hr, hnil]

/-- **Moving a slot** keeps the slots. -/
theorem slots_migrateOne_perm (place : Placement (Slot E)) (h : t.Distinct)
    (hr : t.resize = some r) :
    (t.migrateOne place r).slots.Perm t.slots := by
  unfold migrateOne
  split
  · exact List.Perm.refl _
  split
  · exact List.Perm.refl _
  rename_i bucket _ _ slot hslot
  have hmem : slot ∈ r.table.items := mem_items_of_getBucket hslot
  have hnodup : (r.table.items.map slotKey).Nodup := by
    rw [Distinct, slots, hr, map_append, nodup_append] at h
    exact h.2.1
  -- the old table is the slot and what is left of it
  have hsplit : r.table.items.Perm (slot :: (r.table.remove slotKey (slotKey slot)).items) := by
    rw [items_remove]
    exact perm_cons_filter slotKey hnodup hmem
  have hentered := (place.insertUnique_perm t.primary slot).append_right
    (r.table.remove slotKey (slotKey slot)).items
  have hslots : t.slots = t.primary.items ++ r.table.items := by rw [slots, hr]; rfl
  rw [hslots]
  exact hentered.trans (perm_middle.symm.trans (hsplit.symm.append_left _))

theorem Distinct.of_perm (h : t.Distinct) {t' : Tables E} (hperm : t'.slots.Perm t.slots) :
    t'.Distinct :=
  (hperm.map slotKey).nodup_iff.2 h

/-- **The rehash loop** keeps the slots: induction on the slots it may still move. -/
theorem slots_rehashLoop_perm (place : Placement (Slot E)) (h : t.Distinct) (left : Nat) :
    (rehashLoop place left t).slots.Perm t.slots := by
  induction left generalizing t with
  | zero => exact List.Perm.refl _
  | succ left ih =>
    rw [rehashLoop]
    rcases hr : t.resize with _ | r
    · exact List.Perm.refl _
    dsimp only
    split
    · rename_i hlen
      rw [slots_dropResize hr hlen]
    · have hstep := slots_migrateOne_perm place h hr
      exact (ih (h.of_perm hstep)).trans hstep

theorem slots_incrementalRehashStep_perm (h : t.Distinct) :
    (t.incrementalRehashStep place).slots.Perm t.slots := by
  have hloop := slots_rehashLoop_perm place h rehashBatchBuckets
  unfold incrementalRehashStep
  dsimp only
  split
  · rename_i r hr
    split
    · rename_i hlen
      rwa [slots_dropResize hr hlen]
    · exact hloop
  · exact hloop

/-! ### The loop ends -/

section Scan

variable {r : RehashState E} {migrated : Nat}

variable {bucket : Nat} (hmigrated : migrated < rehashBatchBuckets) (hlen : r.table.len ≠ 0)

end Scan

end Tables

/-! ## The keyspace -/

/-- Two tables that have no key twice. -/
structure Keyspace (E : Type) where
  tables : Tables E
  distinct : tables.Distinct

namespace Keyspace

variable {E : Type} (place : Placement (Slot E)) (ks : Keyspace E)

def empty : Keyspace E where
  tables := { primary := place.withCapacity defaultBuckets, resize := none }
  distinct := by simp [Tables.Distinct, Tables.slots, place.items_withCapacity]

def insertOrReplace (key : CompactString) (entry : E) : Keyspace E :=
  ⟨ks.tables.insertOrReplace place key entry, ks.distinct.insertOrReplace key entry⟩

def modifyEntry (key : Bytes) (f : E → E) : Keyspace E :=
  ⟨ks.tables.modifyEntry key f, ks.distinct.modifyEntry key f⟩

def removeSlot (key : Bytes) : Keyspace E := ⟨ks.tables.removeSlot key, ks.distinct.removeSlot key⟩

def maybeStartResize : Keyspace E :=
  ⟨ks.tables.maybeStartResize place, by
    rw [Tables.Distinct, Tables.slots_maybeStartResize]
    exact ks.distinct⟩

def incrementalRehashStep : Keyspace E :=
  ⟨ks.tables.incrementalRehashStep place,
    ks.distinct.of_perm (Tables.slots_incrementalRehashStep_perm ks.distinct)⟩

/-- The entry of a key. -/
def lookup (key : Bytes) : Option E := (ks.tables.findSlot key).map Prod.snd

/-- The number of keys. -/
def len : Nat := ks.tables.slots.length

variable {ks} {place} {key key' : Bytes} {e : E}

theorem lookup_eq_some :
    ks.lookup key = some e ↔ ∃ s ∈ ks.tables.slots, slotKey s = key ∧ s.2 = e := by
  unfold lookup
  rw [map_eq_some_iff]
  simp only [Tables.findSlot_eq, find?_key_eq_some slotKey ks.distinct, and_assoc]

/-- Keyspaces with the same slots answer every lookup alike. -/
theorem lookup_congr {ks' : Keyspace E} (h : ks'.tables.slots.Perm ks.tables.slots) (key : Bytes) :
    ks'.lookup key = ks.lookup key := by
  apply Option.ext
  intro e
  simp only [lookup_eq_some, h.mem_iff]

@[simp] theorem lookup_empty : (empty place).lookup key = none := by
  simp [lookup, empty, Tables.findSlot_eq, Tables.slots, place.items_withCapacity]

@[simp] theorem lookup_incrementalRehashStep :
    (ks.incrementalRehashStep place).lookup key = ks.lookup key :=
  lookup_congr (Tables.slots_incrementalRehashStep_perm ks.distinct) key

@[simp] theorem lookup_maybeStartResize : (ks.maybeStartResize place).lookup key = ks.lookup key :=
  lookup_congr (List.Perm.of_eq Tables.slots_maybeStartResize) key

theorem lookup_removeSlot :
    (ks.removeSlot key).lookup key' = if key' = key then none else ks.lookup key' := by
  apply Option.ext
  intro e
  rw [lookup_eq_some]
  show (∃ s ∈ (ks.tables.removeSlot key).slots, _) ↔ _
  rw [Tables.slots_removeSlot ks.distinct]
  split
  · rename_i heq
    subst heq
    simp
  rename_i hne
  rw [lookup_eq_some]
  simp only [mem_filter, decide_eq_true_eq]
  refine exists_congr fun s => ⟨fun h => ⟨h.1.1, h.2⟩, fun h => ⟨⟨h.1, ?_⟩, h.2⟩⟩
  rw [h.2.1]
  exact hne

theorem lookup_modifyEntry (f : E → E) : (ks.modifyEntry key f).lookup key' =
      if key' = key then (ks.lookup key).map f else ks.lookup key' := by
  apply Option.ext
  intro e
  rw [lookup_eq_some]
  show (∃ s ∈ (ks.tables.modifyEntry key f).slots, _) ↔ _
  rw [Tables.slots_modifyEntry ks.distinct]
  simp only [List.mem_map, exists_exists_and_eq_and]
  split
  · rename_i heq
    subst heq
    rw [map_eq_some_iff]
    simp only [lookup_eq_some]
    constructor
    · rintro ⟨s, hs, hkey, he⟩
      by_cases hs' : slotKey s = key'
      · rw [if_pos hs'] at he
        exact ⟨s.2, ⟨s, hs, hs', rfl⟩, he⟩
      · rw [if_neg hs'] at hkey
        exact absurd hkey hs'
    · rintro ⟨_, ⟨s, hs, hkey, rfl⟩, he⟩
      rw [← hkey] at *
      exact ⟨s, hs, by simp; rfl, by simpa using he⟩
  · rename_i hne
    rw [lookup_eq_some]
    refine exists_congr fun s => and_congr_right fun _ => ?_
    by_cases hs' : slotKey s = key
    · have hkey : slotKey s ≠ key' := fun h => hne (h.symm.trans hs')
      rw [if_pos hs']
      exact ⟨fun h => absurd h.1 hkey, fun h => absurd h.1 hkey⟩
    · rw [if_neg hs']

theorem lookup_insertOrReplace {key : CompactString} {entry : E} :
    (ks.insertOrReplace place key entry).lookup key' =
      if key' = key.bytes then some entry else ks.lookup key' := by
  by_cases hfound : (ks.tables.primary.find slotKey key.bytes).isSome = true
  · have heq : ks.insertOrReplace place key entry = ks.modifyEntry key.bytes fun _ => entry := by
      unfold insertOrReplace modifyEntry
      simp only [Tables.insertOrReplace_of_found hfound]
    obtain ⟨s, hs⟩ := isSome_iff_exists.1 hfound
    have hlookup : ks.lookup key.bytes = some s.2 := by
      rw [lookup, Tables.findSlot, hs]
      rfl
    rw [heq, lookup_modifyEntry, hlookup]
    rfl
  apply Option.ext
  intro e
  rw [lookup_eq_some]
  show (∃ s ∈ (ks.tables.insertOrReplace place key entry).slots, _) ↔ _
  simp only [(Tables.slots_insertOrReplace_perm hfound).mem_iff, mem_cons, or_and_right, exists_or]
  have hremoved : (ks.removeSlot key.bytes).lookup key' = some e ↔ _ := lookup_eq_some
  rw [lookup_removeSlot] at hremoved
  show _ ∨ (∃ s ∈ (ks.removeSlot key.bytes).tables.slots, _) ↔ _
  rw [← hremoved]
  by_cases heq : key' = key.bytes
  · simp [heq, slotKey]
  · simp [heq, slotKey, Ne.symm heq]

end Keyspace

end Senko
