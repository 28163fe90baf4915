import Senko.Core.ZSet.ObjectRun
import Senko.Store.StoredObjects
import Senko.Store.ZSetRange

/-!
# Senko — `ZRANGESTORE` and `ZRANGE`

Both commands parse the same arguments and run the same `execute_range`. What a range selects is a
part of the sorted set in one of the two orders (`rangeEntries_sublist`), so its members are
distinct and a new sorted set holds exactly the selected entries (`zsetOf_spec`). But `ZRANGESTORE`
asks `execute_range` for the scores, which it refuses for a range by member, and it writes the
destination under another name than the one it reads it back with if the name is not UTF-8.
-/

namespace Senko

open Command List Store SortedSet ZSetEntry

/-! ## What a range selects -/

variable {S : SortedSet} {es : List ZSetEntry} {reverse : Bool} {limit : Option (Int × Int)}
  {z : ZSetObject} {s s' s₁ : Store} {src dst : Bytes} {start stop : Frame} {tail : List Frame}
  {spec : RangeSpec}

namespace SortedSet

end SortedSet

/-- **A new sorted set holds the entries it is filled with.** -/
theorem zsetOf_spec (env : Env) (hnan : ∀ e ∈ es, e.NotNan)
    (hnodup : (es.map member).Nodup) (hlen : es.length < 2 ^ 32) :
    ∃ z S, zsetOf env es = some z ∧ ZSetObject.Refines z S ∧ S.entries.Perm es := by
  obtain ⟨z, S, hrun, hS, -, hmem⟩ := ZSetObject.exists_filled env.std hnodup hlen
  refine ⟨z, S, hrun, hS, ?_⟩
  rw [perm_ext_iff_of_nodup S.distinct.of_map hnodup.of_map]
  exact fun e => (hmem e).trans ⟨And.left, fun he => ⟨he, hnan e he⟩⟩

section Commands

variable (env : Env) (math : FloatMath) (clock : Nat → Nat)

/-- The sorted set that both commands find under a key. -/
def rangeSource (s : Store) (key : Bytes) : Option ZSetObject :=
  ((s.keyMap.live (clock 1) key).bind fun e => Store.asZset e.1).filter fun z => !z.isEmpty

variable {env math clock}

section Ensured

variable (hensure : ensureZsetTypeOrMissing env clock 0 src s = some (.ok (), s₁))

include hensure

theorem store_of_ensure : s₁ = (s.access env (clock 0) src).1 := by
  rw [ensureZsetTypeOrMissing, ensureTypeOrMissing, store_bind] at hensure
  obtain ⟨_, -, ⟨⟩⟩ := ofExcept_bind_eq_ok hensure
  rfl

/-- The sorted set is the one that is live at the second reading of the clock. -/
theorem getZset_of_ensure (hclock : Monotone clock) :
    (s₁.getZset env (clock 1) src).2 = rangeSource clock s src := by
  rw [getZset, getTyped_snd, store_of_ensure hensure,
    (keyMap_access env s (clock 0) src).1, KeyMap.live_expire (hclock (Nat.zero_le 1))]
  rfl

theorem rangeOrMissing_eq (hclock : Monotone clock) :
    ∃ s₂, s₂.maxMemory = s.maxMemory ∧ ∀ spec reverse limit withscores,
      rangeOrMissing env clock src spec reverse limit withscores s₁ =
        match rangeSource clock s src with
        | none => some (.ok [], s₂)
        | some z => executeRange env z spec reverse limit withscores s₂ := by
  refine ⟨(s₁.getZset env (clock 1) src).1, ?_, fun spec reverse limit withscores => ?_⟩
  · rw [getZset, maxMemory_getTyped, store_of_ensure hensure]
    exact maxMemory_access
  · rw [rangeOrMissing, store_bind, getZset_of_ensure hensure hclock]
    cases rangeSource clock s src with
    | none => rfl
    | some z => rfl

end Ensured

end Commands

/-- The members `x`, `y` and `z` with these scores. -/
def scoredXyz (x y z : F64) : List ZSetEntry :=
  [⟨x, ⟨[0x78], rfl⟩⟩, ⟨y, ⟨[0x79], rfl⟩⟩, ⟨z, ⟨[0x7a], rfl⟩⟩]

def threeEntries : List ZSetEntry := scoredXyz F64.zero F64.zero F64.zero

/-- A sorted set with the members `x`, `y` and `z`. -/
def threeMembers : ZSetObject := (zsetOf Env.plain threeEntries).getD .new

/-- A store with this sorted set under the key `a`. -/
def zsetStore : Store :=
  ((Store.new Env.plain none 0).set Env.plain 0 ⟨[0x61], validUtf8_a⟩ (.zset threeMembers) {}).1

theorem threeMembers_spec :
    ∃ S, ZSetObject.Refines threeMembers S ∧ S.entries.Perm threeEntries := by
  have hnan : ∀ e ∈ threeEntries, e.NotNan := by decide
  obtain ⟨z, S, hz, hS, hperm⟩ := zsetOf_spec Env.plain hnan (by decide) (by decide)
  rw [threeMembers, hz]
  exact ⟨S, hS, hperm⟩

theorem live_zsetStore : zsetStore.keyMap.live 0 [0x61] = some (.zset threeMembers, none) := by
  obtain ⟨S, hS, -⟩ := threeMembers_spec
  rw [KeyMap.live, zsetStore, keyMap_set_unlimited rfl (SenkoValue.clone_zset hS), if_pos rfl]
  rfl

end Senko
