import Senko.Store.Scan

/-!
# Senko — commands that look at keys (`commands/generic/keys.rs`, `scan.rs`)
-/

namespace Senko

open List

namespace Store

/-- The entries that have not expired, in the order of the tables. -/
def liveEntriesSnapshot (s : Store) (nowMs : Nat) : List (Slot Entry) :=
  s.keyspace.tables.slots.filter fun slot => !isExpired slot.2.expiresAt nowMs

/-- The type of the value at a key. -/
def typeName (env : Env) (s : Store) (now : Nat) (key : Bytes) : Store × Option String :=
  ((s.cloneEntry env now key).1, (s.cloneEntry env now key).2.map fun e => e.value.typeName)

/-- The live keys that match a pattern. -/
def keysMatching (s : Store) (nowMs : Nat) (pattern : Bytes) : List Bytes :=
  ((s.liveEntriesSnapshot nowMs).filter fun slot => globMatch pattern slot.1.bytes).map slotKey

end Store

section Commands

variable (env : Env) (clock : Nat → Nat)

open Command

def keys : List Frame → Command Response
  | [pattern] => do
    let pattern ← ofExcept (argBytes pattern)
    store fun s => (s, .array ((s.keysMatching (clock 0) pattern).map fun key =>
      .value (some (.raw key))))
  | _ => fail (.protocol (wrongArity "keys"))

def typeCmd : List Frame → Command Response
  | [key] => do
    let key ← ofExcept (argBytes key)
    let name ← store fun s => s.typeName env (clock 0) key
    pure (.simple (ascii (name.getD "none")))
  | _ => fail (.protocol (wrongArity "type"))

end Commands

namespace Store

variable {env : Env} {s : Store} {now : Nat} {key key' pattern : Bytes}

theorem mem_keysMatching :
    key ∈ s.keysMatching now pattern ↔ (s.live now key).isSome ∧ globMatch pattern key = true := by
  rw [live_isSome_iff, keysMatching, mem_map]
  constructor
  · rintro ⟨slot, hslot, rfl⟩
    obtain ⟨hlive, hglob⟩ := mem_filter.1 hslot
    exact ⟨⟨slot, hlive, rfl⟩, hglob⟩
  · rintro ⟨⟨slot, hlive, rfl⟩, hglob⟩
    exact ⟨slot, mem_filter.2 ⟨hlive, hglob⟩, rfl⟩

/-- Looking at a type removes nothing that is live. -/
theorem live_typeName : (s.typeName env now key).1.live now key' = s.live now key' := by
  have hlookup : (s.typeName env now key).1.lookup key' = _ :=
    (cloneEntry_spec env s now key).2 key'
  rw [live, hlookup]
  split
  · rename_i heq
    rw [heq]
    unfold live
    rw [Option.filter_filter]
    simp
  · rfl

theorem typeName_clone (value : SenkoValue) : (value.clone env).typeName = value.typeName := by
  cases value <;> rfl

theorem typeName_snd :
    (s.typeName env now key).2 = (s.live now key).map fun e => e.value.typeName := by
  rw [typeName, (cloneEntry_spec env s now key).1, Option.map_map]
  cases s.live now key with
  | none => rfl
  | some e => exact congrArg some (typeName_clone e.value)

end Store

end Senko
