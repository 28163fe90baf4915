import Mathlib.Algebra.Order.BigOperators.Group.List
import Senko.Store.StoreRun

/-!
# Senko — memory accounting (`senko-store/src/eviction.rs`)

`used_memory` is a running count: putting an entry into a slot adds its size, taking it out
subtracts the size it has then. The count is the sum of the sizes of the stored entries as long as
no entry changes its size between the two. An in-place mutation of a collection is such a change,
and so is the clone that overwrites a key of the primary table, whose size is not what was added.

The sizes of the structs are parameters, and so are those of the objects the model does not look
into.
-/

namespace Senko

open Tables

/-- `std::mem::size_of` of the structs that `value_bytes` counts. -/
structure Sizes where
  entry : Nat
  hash : Nat
  list : Nat
  listpackNode : Nat
  set : Nat
  stream : Nat
  zset : Nat
  object : ObjectKind → Bytes → Nat

def valueBytes (std : FloatStd) (sizes : Sizes) : SenkoValue → Nat
  | .raw bytes => bytes.length
  | .int _ | .float _ => 8
  | .hash hash =>
    sizes.hash +
      (hash.fields.items.map fun f => f.1.bytes.length + (f.2.value.asBytes std).length).sum
  | .list list =>
    sizes.list + ((list.iter.getD []).map List.length).sum + list.nodeCount * sizes.listpackNode
  | .set set => sizes.set + (set.iter.map List.length).sum
  | .stream stream =>
    sizes.stream + ((stream.tree.range .zero .max none).map fun entry =>
      (entry.2.map fun field => field.1.length + field.2.length).sum).sum
  | .zset zset =>
    sizes.zset + (((zset.rangeByRank std 0 (zset.len - 1) false none).getD []).map fun entry =>
      8 + entry.member.bytes.length).sum
  | .object .json contents => contents.length
  | .object kind contents => sizes.object kind contents

def entryBytes (std : FloatStd) (sizes : Sizes) (key : CompactString) (entry : Entry) : Nat :=
  key.bytes.length + valueBytes std sizes entry.value + sizes.entry

/-- The environment with these sizes. -/
def Env.sized (env : Env) (sizes : Sizes) : Env :=
  { env with
    entryBytes := fun key entry => UInt64.ofNat (Senko.entryBytes env.std sizes key entry) }

namespace Store

section Accounting

variable (env : Env) (sizes : Sizes)

def slotBytes (slot : Slot Entry) : Nat := entryBytes env.std sizes slot.1 slot.2

def bytesOf (slots : List (Slot Entry)) : Nat := (slots.map (slotBytes env sizes)).sum

/-- The sum of `entry_bytes` over all stored entries. -/
def storedBytes (s : Store) : Nat := bytesOf env sizes s.keyspace.tables.slots

/-- **The count is exact.** -/
def Accounted (s : Store) : Prop := s.usedMemory = UInt64.ofNat (s.storedBytes env sizes)

variable {env sizes} {s s' : Store} {key : Bytes} {now : Nat}

theorem bytesOf_perm {l l' : List (Slot Entry)} (h : l.Perm l') :
    bytesOf env sizes l = bytesOf env sizes l' :=
  (h.map _).sum_eq

theorem bytesOf_cons (slot : Slot Entry) (l : List (Slot Entry)) :
    bytesOf env sizes (slot :: l) = slotBytes env sizes slot + bytesOf env sizes l := by
  rw [bytesOf, List.map_cons, List.sum_cons, bytesOf]

/-- The same count and the same slots. -/
theorem Accounted.of_perm (h : s.Accounted env sizes) (hused : s'.usedMemory = s.usedMemory)
    (hslots : s'.keyspace.tables.slots.Perm s.keyspace.tables.slots) : s'.Accounted env sizes := by
  rw [Accounted, hused, h, storedBytes, storedBytes, bytesOf_perm hslots]

/-- One slot is replaced by another of the same size. -/
theorem Accounted.of_modify (h : s.Accounted env sizes) (hused : s'.usedMemory = s.usedMemory)
    {f : Entry → Entry} (hks : s'.keyspace = s.keyspace.modifyEntry key f)
    (hsize : ∀ e, s.lookup key = some e →
      valueBytes env.std sizes (f e).value = valueBytes env.std sizes e.value) :
    s'.Accounted env sizes := by
  have hsame : bytesOf env sizes s'.keyspace.tables.slots =
      bytesOf env sizes s.keyspace.tables.slots := by
    rw [hks]
    show bytesOf env sizes (s.keyspace.tables.modifyEntry key f).slots = _
    cases hfind : s.keyspace.tables.findSlot key with
    | none =>
      have hnone : ∀ slot ∈ s.keyspace.tables.slots, slotKey slot ≠ key := by
        rw [findSlot_eq] at hfind
        exact (find?_key_eq_none slotKey).1 hfind
      rw [slots_modifyEntry s.keyspace.distinct]
      refine congrArg _ ((List.map_congr_left fun slot hslot => ?_).trans (List.map_id _))
      rw [if_neg (hnone slot hslot)]
      rfl
    | some slot =>
      rw [bytesOf_perm (slots_modifyEntry_perm s.keyspace.distinct hfind f),
        bytesOf_perm (slots_perm_of_findSlot s.keyspace.distinct hfind), bytesOf_cons,
        bytesOf_cons, slotBytes, slotBytes, entryBytes, entryBytes, hsize slot.2]
      rw [lookup, Keyspace.lookup, hfind]
      rfl
  rw [Accounted, hused, h, storedBytes, storedBytes, hsame]

theorem accounted_new (maxMemory : Option Nat) :
    (Store.new (env.sized sizes) maxMemory now).Accounted env sizes := by
  show (0 : UInt64) = UInt64.ofNat (bytesOf env sizes (Keyspace.empty env.place).tables.slots)
  simp [bytesOf, Keyspace.empty, slots, env.place.items_withCapacity]

/-! ### Slots -/

theorem Accounted.insertOrReplace (h : s.Accounted env sizes) {key : CompactString} {e : Entry}
    (hsize : valueBytes env.std sizes (s.stored (env.sized sizes) key e).value =
      valueBytes env.std sizes e.value) :
    (s.insertOrReplace (env.sized sizes) key e).Accounted env sizes := by
  have hslots := slots_insertOrReplace env.place s.keyspace.distinct key
    (s.stored (env.sized sizes) key e)
  have hnew : (s.insertOrReplace (env.sized sizes) key e).storedBytes env sizes =
      entryBytes env.std sizes key e + bytesOf env sizes (s.keyspace.tables.others key.bytes) := by
    refine (bytesOf_perm hslots).trans ((bytesOf_cons _ _).trans ?_)
    rw [slotBytes, entryBytes, hsize, entryBytes]
  rw [Accounted, hnew]
  show s.usedMemory -
    ((s.keyspace.lookup key.bytes).map ((env.sized sizes).entryBytes key)).getD 0 +
    UInt64.ofNat (entryBytes env.std sizes key e) = _
  rw [h, Keyspace.lookup]
  rcases hfind : s.keyspace.tables.findSlot key.bytes with _ | slot
  · rw [storedBytes, ← others_of_findSlot_eq_none hfind, UInt64.ofNat_add]
    simp [UInt64.add_comm]
  -- the bytes of the replaced slot are subtracted first
  have hkey := fst_of_findSlot hfind
  rw [storedBytes, bytesOf_perm (slots_perm_of_findSlot s.keyspace.distinct hfind),
    bytesOf_cons, slotBytes, UInt64.ofNat_add, UInt64.ofNat_add]
  simp only [Env.sized]
  grind

theorem Accounted.removeSlot (h : s.Accounted env sizes) (key : Bytes) :
    (s.removeSlot (env.sized sizes) key).1.Accounted env sizes := by
  unfold Store.removeSlot
  rcases hfind : s.keyspace.tables.findSlot key with _ | slot
  · exact h
  have hslots : (s.keyspace.removeSlot key).tables.slots = s.keyspace.tables.others key :=
    slots_removeSlot s.keyspace.distinct key
  show s.usedMemory - UInt64.ofNat (entryBytes env.std sizes slot.1 slot.2) =
    UInt64.ofNat (bytesOf env sizes (s.keyspace.removeSlot key).tables.slots)
  rw [h, storedBytes, bytesOf_perm (slots_perm_of_findSlot s.keyspace.distinct hfind), bytesOf_cons,
    slotBytes, UInt64.ofNat_add]
  grind

/-- **An elementary change keeps the count exact** if what it replaces in place keeps its size. -/
theorem Accounted.change {D : Option Nat → Prop} {V : SenkoValue → SenkoValue → Prop}
    (hsize : ∀ old new, V old new → valueBytes env.std sizes new = valueBytes env.std sizes old)
    (hchange : Change (env.sized sizes) D V s s') (h : s.Accounted env sizes) :
    s'.Accounted env sizes := by
  cases hchange with
  | rehash => exact h.of_perm rfl (slots_incrementalRehashStep_perm s.keyspace.distinct)
  | resize => exact h.of_perm rfl (List.Perm.of_eq slots_maybeStartResize)
  | remove key => exact h.removeSlot key
  | put key e _ hstored =>
    refine h.insertOrReplace ?_
    rcases hstored with heq | hV
    · rw [heq]
    · exact hsize _ _ hV
  | touch | retime => exact h.of_modify rfl rfl fun _ _ => rfl
  | mutate key e value hlookup hV =>
    refine h.of_modify rfl rfl fun e' he' => ?_
    rw [hlookup, Option.some.injEq] at he'
    exact he' ▸ hsize _ _ hV
  | fields | reseed => exact h

end Accounting

end Store

namespace StoreOp

section Accounting

variable (env : Env) (sizes : Sizes)

/-- The operation replaces no value in place, or by its clone, by one of another size. -/
def KeepsSizes (s : Store) (op : StoreOp) : Prop :=
  ∀ old new, op.Mutation (env.sized sizes) s old new →
    valueBytes env.std sizes new = valueBytes env.std sizes old

theorem accounted_step {s : Store} {op : StoreOp} (h : s.Accounted env sizes)
    (hsafe : op.KeepsSizes env sizes s) : (op.step (env.sized sizes) s).Accounted env sizes := by
  refine (op.step_changes (env.sized sizes) s).induction
    (fun _ _ hchange => Store.Accounted.change hsafe hchange) ?_
  cases op <;> exact h

end Accounting

/-! ## Runs -/

/-- **The count of used memory is exact** after every run that replaces no value, in place or by its
clone, by one of another size: it is the sum of the sizes of the stored entries, no size that could
be subtracted exceeds it, and it is 0 when nothing is stored. -/
theorem used_memory_exact (env : Env) (sizes : Sizes) (maxMemory : Option Nat) (start : Nat)
    (ops : List StoreOp)
    (hsafe : All (env.sized sizes) (KeepsSizes env sizes)
      (Store.new (env.sized sizes) maxMemory start) ops) :
    let s := run (env.sized sizes) (Store.new (env.sized sizes) maxMemory start) ops
    s.usedMemory = UInt64.ofNat (s.storedBytes env sizes) ∧
      (s.storedBytes env sizes < 2 ^ 64 → s.usedMemory.toNat = s.storedBytes env sizes ∧
        ∀ slot ∈ s.keyspace.tables.slots,
          entryBytes env.std sizes slot.1 slot.2 ≤ s.usedMemory.toNat) ∧
      (s.keyspace.tables.slots = [] → s.usedMemory = 0) := by
  intro s
  have haccounted : s.Accounted env sizes :=
    hsafe.induction (fun s op h hsafe => accounted_step env sizes h hsafe)
      (Store.accounted_new maxMemory)
  refine ⟨haccounted, fun hfits => ?_, fun hempty => ?_⟩
  · have hexact : s.usedMemory.toNat = s.storedBytes env sizes := by
      rw [haccounted, UInt64.toNat_ofNat_of_lt' hfits]
    refine ⟨hexact, fun slot hslot => ?_⟩
    rw [hexact]
    exact List.le_sum_of_mem (List.mem_map_of_mem hslot)
  · rw [haccounted, Store.storedBytes, hempty]
    rfl

/-- The sizes of a build that counts the struct of an entry as 40 bytes and every other as none. -/
def plainSizes : Sizes := ⟨40, 0, 0, 0, 0, 0, 0, fun _ _ => 0⟩

set_option maxRecDepth 4000 in
/-- Strings are written, also over each other, one is renamed over another, and a list is made and
found again. -/
theorem used_memory_exact_plain : let sized := Env.plain.sized plainSizes
    let ops : List StoreOp :=
      [.set 1 ⟨[97], by decide⟩ (.raw [1]) {}, .set 2 ⟨[97], by decide⟩ (.int 7) {},
        .set 2 ⟨[98], by decide⟩ (.raw [1, 2, 3]) {}, .rename 3 [97] ⟨[98], by decide⟩,
        .create .list 4 ⟨[99], by decide⟩ id, .create .list 5 ⟨[99], by decide⟩ id]
    (run sized (Store.new sized none 0) ops).usedMemory = 90 := by
  intro sized ops
  have hsafe : All sized (KeepsSizes Env.plain plainSizes) (Store.new sized none 0) ops := by
    refine ⟨?_, ?_, ?_, fun _ _ h => h.elim, ?_, ?_, trivial⟩
    iterate 3
      rintro old new ⟨-, rfl, rfl⟩
      rfl
    all_goals
      rintro old new ⟨object, hproject, rfl, -⟩
      rw [← Collection.value_of_project hproject]
      rfl
  have hexact := (used_memory_exact .plain plainSizes none 0 ops hsafe).1
  rw [hexact]
  decide

/-- **The count is not exact**: a list that grows in place has outgrown what was counted when it was
made. -/
theorem used_memory_exact_fails : ¬ ∀ (env : Env) (sizes : Sizes) (maxMemory : Option Nat)
    (start : Nat) (ops : List StoreOp),
    let s := run (env.sized sizes) (Store.new (env.sized sizes) maxMemory start) ops
    s.usedMemory = UInt64.ofNat (s.storedBytes env sizes) := by
  intro h
  have hpushed := h Env.plain plainSizes none 0
    [.create .list 0 ⟨[107], by decide⟩ fun list => (list.pushBack [97]).getD list]
  revert hpushed
  decide

end StoreOp

end Senko
