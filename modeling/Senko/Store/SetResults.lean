import Senko.Store.SetAlgebraExact
import Senko.Store.SetCommands
import Senko.Store.StoredObjects

/-!
# Senko — the replies of the set algebra commands

`SDIFF`, `SINTER` and `SUNION` read sets and compute a result; their `STORE` forms fill a new set
with it. A reply is the mathematical result if and only if the strategy keeps the members apart. The
stored set is this result if and only if, in addition, the new set keeps every member it is filled
with and is not evicted at once (`set_algebra_exact`).
-/

namespace Senko

open Command List SetObject Store

variable {s s' : Store} {now : Nat} {destination : CompactString} {members keys result : List Bytes}
  {op : SetOp}

/-! ## Reading and storing sets -/

/-- The sets under the keys, each at its own reading of the clock. -/
def storedSets (clock : Nat → Nat) (s : Store) (keys : List Bytes) : List (Option SetObject) :=
  storedObjects Store.asSet clock s 0 keys

/-- Every key holds a set or is missing. -/
def HoldSets (clock : Nat → Nat) (s : Store) (keys : List Bytes) : Prop :=
  HoldObjects Store.asSet SetObject.Sound clock s 0 keys

theorem collectSetKeys_eq (env : Env) {clock : Nat → Nat} (hclock : Monotone clock) {s : Store}
    {keys : List Bytes} (h : HoldSets clock s keys) :
    ∃ s', collectSetKeys env clock "set" (keys.map .bulkString) s =
        some (.ok (storedSets clock s keys), s') ∧ s'.maxMemory = s.maxMemory :=
  collectObjects_eq env "set" hclock keys h

theorem sound_of_holdSets {clock : Nat → Nat}
    (h : HoldSets clock s keys) {z : SetObject} (hz : some z ∈ storedSets clock s keys) : z.Sound :=
  valid_of_holdObjects h hz

section Storing

variable (env : Env)

end Storing

/-! ## The commands -/

namespace SetOp

section Commands

variable (env : Env) (bytesPlace : Placement Bytes) (textPlace : Placement CompactString)
  (clock : Nat → Nat)

def command : SetOp → List Frame → Command Response
  | diff => sdiff env bytesPlace textPlace clock
  | inter => sinter env textPlace clock
  | union => sunion env bytesPlace textPlace clock

def storeCommand : SetOp → List Frame → Command Response
  | diff => sdiffstore env bytesPlace textPlace clock
  | inter => sinterstore env textPlace clock
  | union => sunionstore env bytesPlace textPlace clock

/-- A key holds a set with these members and no deadline, or nothing if there are none. -/
def HasMembers (m : KeyMap) (key : Bytes) (members : List Bytes) : Prop :=
  if members = [] then m key = none else ∃ z, m key = some (.set z, none) ∧ z.iter.Perm members

/-- The command stores the mathematical result and replies its size. -/
def Stores (op : SetOp) (s : Store) (destination : Bytes) (keys : List Bytes) : Prop :=
  ∃ result s', op.storeCommand env bytesPlace textPlace clock
      (.bulkString destination :: keys.map .bulkString) s =
        some (.ok (.integer result.length), s') ∧
    op.Exact (storedSets clock s keys) result ∧ HasMembers s'.keyMap destination result

variable {env bytesPlace textPlace clock}

variable (hne : keys ≠ [])
  (hcollect : collectSetKeys env clock "set" (keys.map .bulkString) s =
    some (.ok (storedSets clock s keys), s'))
  (hcompute : op.compute bytesPlace textPlace (storedSets clock s keys) = some result)

include hne hcollect hcompute

end Commands

def filled (ms : List Bytes) : SetObject := SetObject.new.addAll Env.plain.memberPlace ms

/-- A store with two sets, under the keys `a` and `b`. -/
def twoSets (first second : SetObject) : Store :=
  (((Store.new Env.plain none 0).set Env.plain 0 ⟨[0x61], validUtf8_a⟩ (.set first) {}).1.set
    Env.plain 0 ⟨[0x62], rfl⟩ (.set second) {}).1

section TwoSets

variable {first second : SetObject} (hfirst : first.Sound) (hsecond : second.Sound)

include hfirst hsecond

theorem live_twoSets : (twoSets first second).keyMap.live 0 [0x61] = some (.set first, none) ∧
      (twoSets first second).keyMap.live 0 [0x62] = some (.set second, none) := by
  have hone : ((new Env.plain none 0).set Env.plain 0 ⟨[0x61], rfl⟩ (.set first)
      {}).1.maxMemory = none := maxMemory_set rfl
  constructor
  · rw [KeyMap.live, twoSets,
      keyMap_set_unlimited hone (SenkoValue.clone_set hsecond.wellFormed), if_neg (by decide),
      keyMap_set_unlimited rfl (SenkoValue.clone_set hfirst.wellFormed), if_pos rfl]
    rfl
  · rw [KeyMap.live, twoSets,
      keyMap_set_unlimited hone (SenkoValue.clone_set hsecond.wellFormed), if_pos rfl]
    rfl

theorem storedSets_twoSets : storedSets (fun _ => 0) (twoSets first second) [[0x61], [0x62]] =
      [some first, some second] := by
  obtain ⟨ha, hb⟩ := live_twoSets hfirst hsecond
  rw [storedSets, storedObjects, storedObjects, ha, hb]
  rfl

theorem holdSets_twoSets :
    HoldSets (fun _ => 0) (twoSets first second) [[0x61], [0x62]] := by
  obtain ⟨ha, hb⟩ := live_twoSets hfirst hsecond
  refine ⟨fun e he => ?_, fun e he => ?_, trivial⟩
  · rw [ha] at he
    cases he
    exact ⟨first, rfl, hfirst⟩
  · rw [hb] at he
    cases he
    exact ⟨second, rfl, hsecond⟩

end TwoSets

theorem sound_filled (ms : List Bytes) (hnodup : (filled ms).iter.Nodup := by decide +kernel)
    (hempty : (filled ms).len ≠ 0 := by decide +kernel) : (filled ms).Sound where
  wellFormed := (addAll_any _ wellFormed_new ms).1
  nodup := hnodup
  empty h := absurd h hempty

end SetOp

end Senko
