import Senko.Core.ZSet.ObjectRun
import Senko.Store.RangeStore
import Senko.Store.SetResults
import Senko.Store.ZSetAlgebra

/-!
# Senko — counting an intersection

`SINTERCARD` and `ZINTERCARD` reply the number of common members, at most a limit that is not zero.
`ZINTERCARD` counts members one by one and stops at the limit. `SINTERCARD` intersects set after
set, and applies the limit after each set but the first: it stops when the members that the first
two sets have in common reach the limit, whatever the other sets have, and it never applies the
limit to a single set.
-/

namespace Senko

open Command List

/-- A number of members under a limit; zero is no limit. -/
def limited (limit count : Nat) : Nat := if limit = 0 then count else min limit count

theorem limited_zero (limit : Nat) : limited limit 0 = 0 := by
  rw [limited]
  split <;> simp

theorem ncard_mem_list {α : Type} [DecidableEq α] (as : List α) {p : α → Prop} (hnodup : as.Nodup)
    (hmem : ∀ a, a ∈ as ↔ p a) : {a | p a}.ncard = as.length := by
  have hset : {a | p a} = (as.toFinset : Set α) := by
    simp [hmem]
  rw [hset, Set.ncard_coe_finset, toFinset_card_of_nodup hnodup]

theorem ncard_of_forall_not {α : Type} {p : α → Prop} (h : ∀ a, ¬p a) : {a | p a}.ncard = 0 := by
  have hempty : {a | p a} = ∅ := Set.eq_empty_of_forall_notMem h
  rw [hempty, Set.ncard_empty]

variable {result keys : List Bytes} {n : Nat} {z : ZSetObject} {S : SortedSet} {first : SetObject}
  {zs : List SetObject} {textPlace : Placement CompactString} {clock : Nat → Nat} {s s' : Store}

variable {sets : List (Option ZSetObject)}

/-! ## Sets -/

namespace SetOp

/-- The number of common members. -/
noncomputable def interCard (sets : List (Option SetObject)) : Nat :=
  {m | inter.Mem sets m}.ncard

/-- The number of respellings that members of every set have. -/
noncomputable def respelledCard (sets : List (Option SetObject)) : Nat :=
  {r | ∀ set ∈ sets, Respelled set r}.ncard

/-- The members that the two smallest sets are taken to have in common reach the limit. -/
def CutShort (limit : Nat) (sets : List (Option SetObject)) : Prop :=
  limit ≠ 0 ∧ ∃ first second rest, bySize sets = first :: second :: rest ∧
    limit ≤ (first.iter.filter second.contains).length

/-- **When `SINTERCARD` counts the intersection.** With a bitmap: if as many respellings are common
as members are, or the limit is below both numbers. Otherwise a single set has to be within the
limit, and with more sets there have to be as many common members as the limit says if the two
smallest sets alone reach it, and no member must be taken for another one if they do not. -/
def CountsTo (limit : Nat) (sets : List (Option SetObject)) : Prop :=
  none ∈ sets ∨
    match algebraStrategy sets.reduceOption with
    | .roaring => respelledCard sets = interCard sets ∨
        limit ≠ 0 ∧ limit ≤ respelledCard sets ∧ limit ≤ interCard sets
    | strategy =>
      (∀ first, bySize sets = [first] → limit = 0 ∨ first.iter.length ≤ limit) ∧
        (CutShort limit sets → limit ≤ interCard sets) ∧
        (¬CutShort limit sets → inter.KeepsApart strategy sets)

variable {sets : List (Option SetObject)} {limit : Nat}

/-- A result that has all common members is as long as the intersection only if it is exact. -/
theorem length_eq_interCard_iff (hnodup : result.Nodup)
    (hall : ∀ m, inter.Mem sets m → m ∈ result) :
    interCard sets ≤ result.length ∧
      (result.length = interCard sets ↔ inter.Exact sets result) := by
  have hresult : {m | m ∈ result}.ncard = result.length := ncard_mem_list _ hnodup fun _ => .rfl
  have hfinite : {m | m ∈ result}.Finite := finite_toSet result
  have hsub : {m | inter.Mem sets m} ⊆ {m | m ∈ result} := hall
  constructor
  · rw [← hresult]
    exact Set.ncard_le_ncard hsub hfinite
  · constructor
    · intro hlen
      have heq := Set.eq_of_subset_of_ncard_le hsub (by rw [hresult, hlen]; exact le_refl _) hfinite
      exact ⟨hnodup, fun m => (Set.ext_iff.1 heq m).symm⟩
    · exact fun hexact => (ncard_mem_list _ hexact.1 hexact.2).symm

/-- A set without members leaves nothing to count. -/
theorem card_of_empty {set : Option SetObject} (hset : set ∈ sets) (hempty : members set = []) :
    interCard sets = 0 ∧ respelledCard sets = 0 := by
  have hnone : ∀ m, m ∉ members set := fun m => hempty ▸ not_mem_nil
  constructor
  · exact ncard_of_forall_not fun m hm => hnone m (hm.2 set hset)
  · refine ncard_of_forall_not fun r hr => ?_
    obtain ⟨m, hm, -⟩ := hr set hset
    exact hnone m hm

theorem countsTo_iff (hnone : none ∉ sets)
    (hstrategy : algebraStrategy sets.reduceOption ≠ .roaring) : CountsTo limit sets ↔
      (∀ first, bySize sets = [first] → limit = 0 ∨ first.iter.length ≤ limit) ∧
        (CutShort limit sets → limit ≤ interCard sets) ∧
        (¬CutShort limit sets → inter.KeepsApart (algebraStrategy sets.reduceOption) sets) := by
  rw [CountsTo, or_iff_right hnone]
  generalize algebraStrategy sets.reduceOption = strategy at hstrategy
  cases strategy with
  | roaring => exact absurd rfl hstrategy
  | _ => rfl

/-- The length of a result under a limit, and the law it is to satisfy. -/
theorem Computes.card_iff {full : List Bytes}
    (h : Computes textPlace sets first zs full) (hnone : none ∉ sets)
    (hsize : bySize sets = first :: zs)
    (hstrategy : algebraStrategy (first :: zs) ≠ .roaring) (limit : Nat) :
    ∃ result, intersectFrom textPlace sets ((some limit).filter fun limit => decide (0 < limit))
        first zs = some result ∧
      (result.length = limited limit (interCard sets) ↔ CountsTo limit sets) := by
  obtain ⟨hle, hcard⟩ := length_eq_interCard_iff h.nodup h.complete
  rw [h.exact] at hcard
  have hsame : algebraStrategy sets.reduceOption = algebraStrategy (first :: zs) := by
    rw [← algebraStrategy_perm bySize_perm, hsize]
  rw [countsTo_iff hnone (hsame ▸ hstrategy), hsame, hsize, ← hcard]
  by_cases hzero : limit = 0
  · subst hzero
    have hcut : ¬CutShort 0 sets := fun hcut => hcut.1 rfl
    refine ⟨full, by rw [Option.filter_some, if_neg (by simp)]; exact h.unlimited, ?_⟩
    simp [limited, hcut]
  rw [Option.filter_some, if_pos (by simpa using Nat.pos_of_ne_zero hzero), limited, if_neg hzero]
  cases zs with
  | nil =>
    -- the limit is never applied to a single set
    obtain ⟨hlen, hrun⟩ := h.single rfl
    have hcut : ¬CutShort limit sets := by
      rintro ⟨-, first', second, rest, hsize', -⟩
      rw [hsize] at hsize'
      cases hsize'
    refine ⟨full, hrun limit, ?_⟩
    have hsingle : (∀ first', [first] = [first'] → limit = 0 ∨ first'.iter.length ≤ limit) ↔
        first.iter.length ≤ limit := by
      simp [hzero]
    rw [hsingle]
    simp only [hcut, false_imp_iff, not_false_eq_true, true_and, true_imp_iff]
    omega
  | cons second rest =>
    obtain ⟨hpair, hseveral⟩ := h.several second rest rfl
    obtain ⟨result, hrun, hlen⟩ := hseveral limit
    refine ⟨result, hrun, ?_⟩
    have hcut : CutShort limit sets ↔ limit ≤ (first.iter.filter second.contains).length := by
      constructor
      · rintro ⟨-, first', second', rest', hsize', hle'⟩
        rw [hsize] at hsize'
        cases hsize'
        exact hle'
      · exact fun hle' => ⟨hzero, first, second, rest, hsize, hle'⟩
    have hsingle : ∀ first', first :: second :: rest = [first'] →
        limit = 0 ∨ first'.iter.length ≤ limit := fun first' heq => by cases heq
    rw [hlen, hcut, and_iff_right hsingle]
    split <;> omega

theorem roaring_card_iff (textPlace : Placement CompactString) (hne : sets ≠ [])
    (hnone : none ∉ sets) (hsize : bySize sets = first :: zs)
    (hstrategy : algebraStrategy (first :: zs) = .roaring) (limit : Nat) :
    ∃ result, intersectFrom textPlace sets ((some limit).filter fun limit => decide (0 < limit))
        first zs = some result ∧
      (result.length = limited limit (interCard sets) ↔ CountsTo limit sets) := by
  obtain ⟨hnodup, -, hmem⟩ := roaringIntersection_spec textPlace hne hnone
  have hcard : respelledCard sets = (roaringIntersection textPlace sets).length :=
    ncard_mem_list _ hnodup hmem
  have hcounts : CountsTo limit sets ↔ respelledCard sets = interCard sets ∨
      limit ≠ 0 ∧ limit ≤ respelledCard sets ∧ limit ≤ interCard sets := by
    rw [CountsTo, or_iff_right hnone, ← algebraStrategy_perm bySize_perm, hsize, hstrategy]
  rw [hcounts, hcard, intersectFrom, hstrategy, limited]
  by_cases hzero : limit = 0
  · subst hzero
    refine ⟨_, by rw [Option.filter_some, if_neg (by simp)], ?_⟩
    simp
  · refine ⟨(roaringIntersection textPlace sets).take limit, ?_, ?_⟩
    · rw [Option.filter_some, if_pos (by simpa using Nat.pos_of_ne_zero hzero)]
    · rw [if_neg hzero, length_take]
      omega

theorem countsTo_of_empty {set : Option SetObject} (hset : set ∈ sets) (hempty : members set = [])
    (hsmall : none ∉ sets → ∃ first zs, bySize sets = first :: zs ∧ first.iter = [])
    (limit : Nat) : CountsTo limit sets := by
  by_cases hnone : none ∈ sets
  · exact .inl hnone
  obtain ⟨hinter, hrespelled⟩ := card_of_empty hset hempty
  by_cases hstrategy : algebraStrategy sets.reduceOption = .roaring
  · rw [CountsTo, hstrategy]
    exact .inr (.inl (hrespelled.trans hinter.symm))
  obtain ⟨first, zs, hsize, hiter⟩ := hsmall hnone
  rw [countsTo_iff hnone hstrategy]
  refine ⟨fun first' hsize' => .inr ?_, ?_, fun _ => (inter_missing hset hempty hsmall _).2⟩
  · rw [hsize] at hsize'
    cases hsize'
    rw [hiter]
    exact Nat.zero_le limit
  · rintro ⟨hzero, first', second, rest, hsize', hle⟩
    rw [hsize] at hsize'
    cases hsize'
    rw [hiter] at hle
    exact absurd (Nat.le_zero.1 hle) hzero

/-- **What `compute_sinter` counts.** -/
theorem computeSinter_card_iff (textPlace : Placement CompactString) (hne : sets ≠ [])
    (hsound : ∀ z, some z ∈ sets → z.Sound) (limit : Nat) :
    ∃ result, computeSinter textPlace sets ((some limit).filter fun limit => decide (0 < limit)) =
        some result ∧
      (result.length = limited limit (interCard sets) ↔ CountsTo limit sets) := by
  rcases computeSinter_cases textPlace hsound with ⟨hnil, -⟩ |
    ⟨set, hset, hempty, hsmall, hcompute⟩ | ⟨-, hnone, first, zs, hsize, hsound', hcompute⟩
  · exact absurd hnil hne
  · refine ⟨[], hcompute _, iff_of_true ?_ (countsTo_of_empty hset hempty hsmall limit)⟩
    rw [(card_of_empty hset hempty).1, limited_zero]
    rfl
  rw [hcompute]
  by_cases hstrategy : algebraStrategy (first :: zs) = .roaring
  · exact roaring_card_iff textPlace hne hnone hsize hstrategy limit
  · obtain ⟨full, h⟩ := exists_computes hnone hsize hsound' textPlace hstrategy
    exact h.card_iff hnone hsize hstrategy limit

end SetOp

/-! ## Sorted sets -/

section ZSets

variable (env : Env)

/-- The members of a sorted set. A missing key is the empty set. -/
def zsetMembers (set : Option ZSetObject) : List CompactString :=
  ((set.bind (zsetEntries env)).getD []).map ZSetEntry.member

/-- The number of common members. -/
noncomputable def zinterCard (sets : List (Option ZSetObject)) : Nat :=
  {m | ∀ set ∈ sets, m ∈ zsetMembers env set}.ncard

/-- The loop counts the members that all other sets have. -/
theorem zintercardLoop_eq (limit : Nat) (others : List ZSetObject) (count : Nat)
    (entries : List ZSetEntry) (hcount : limit = 0 ∨ count < limit) :
    zintercardLoop env limit others count entries =
      limited limit (count + (entries.filter (inEverySet env others)).length) := by
  induction entries generalizing count with
  | nil =>
    rw [zintercardLoop, limited, filter_nil, length_nil]
    split <;> omega
  | cons e entries ih =>
    rw [zintercardLoop]
    by_cases hall : inEverySet env others e = true
    · rw [if_pos hall, filter_cons_of_pos hall, length_cons]
      by_cases hstop : 0 < limit ∧ limit ≤ count + 1
      · rw [if_pos hstop, limited, if_neg (by omega)]
        omega
      · rw [if_neg hstop, ih (count + 1) (by omega)]
        congr 1
        omega
    · rw [if_neg hall, filter_cons_of_neg hall, ih count hcount]

theorem zsetEntries_eq (h : ZSetObject.Refines z S) : zsetEntries env z = some S.entries :=
  h.rangeAll env.std

theorem isSome_score (h : ZSetObject.Refines z S) (m : CompactString) :
    (z.score env.std m.bytes).isSome = true ↔ m ∈ zsetMembers env (some z) := by
  rw [h.score env.std, SortedSet.scoreOf, CompactString.fromUtf8_bytes, Option.bind_some,
    zsetMembers, Option.bind_some, zsetEntries_eq env h, Option.getD_some, mem_map,
    Option.isSome_iff_exists]
  constructor
  · rintro ⟨score, hscore⟩
    exact ⟨_, SortedSet.score?_eq_some.1 hscore, rfl⟩
  · rintro ⟨e, he, rfl⟩
    exact ⟨e.score, SortedSet.score?_eq_some.2 he⟩

theorem zinterCard_of_empty {set : Option ZSetObject} (hset : set ∈ sets)
    (hempty : zsetMembers env set = []) : zinterCard env sets = 0 :=
  ncard_of_forall_not fun _ hm => not_mem_nil (hempty ▸ hm set hset)

/-- **`ZINTERCARD` counts the intersection.** -/
theorem computeZintercard_eq (hne : sets ≠ [])
    (hsets : ∀ z, some z ∈ sets → ∃ S, ZSetObject.Refines z S) (limit : Nat) :
    computeZintercard env sets limit = some (limited limit (zinterCard env sets)) := by
  rw [computeZintercard]
  by_cases hnone : none ∈ sets
  · rw [if_pos (Or.inr (any_eq_true.2 ⟨none, hnone, rfl⟩)), zinterCard_of_empty env hnone rfl,
      limited_zero]
  rw [if_neg (SetOp.not_missing hne hnone)]
  have hmem : ∀ z, z ∈ (sets.reduceOption.insertionSort fun a b => a.len ≤ b.len) ↔
      some z ∈ sets := fun z => (mem_insertionSort _).trans reduceOption_mem_iff
  generalize hsort : (sets.reduceOption.insertionSort fun a b => a.len ≤ b.len) = sorted at hmem
  rcases sorted with _ | ⟨base, rest⟩
  · obtain ⟨set, hset⟩ := exists_mem_of_ne_nil sets hne
    cases set with
    | none => exact absurd hset hnone
    | some z => exact absurd ((hmem z).2 hset) not_mem_nil
  have hbase : some base ∈ sets := (hmem base).1 mem_cons_self
  obtain ⟨S, hS⟩ := hsets base hbase
  have hmembers : zsetMembers env (some base) = S.entries.map ZSetEntry.member := by
    rw [zsetMembers, Option.bind_some, zsetEntries_eq env hS, Option.getD_some]
  dsimp only
  split
  · rename_i hempty
    rw [ZSetObject.isEmpty, beq_iff_eq, hS.len_eq, length_eq_zero_iff] at hempty
    rw [zinterCard_of_empty env hbase (by rw [hmembers, hempty]; rfl), limited_zero]
  rw [zsetEntries_eq env hS]
  show some _ = _
  rw [zintercardLoop_eq env limit rest 0 S.entries (Nat.eq_zero_or_pos limit), Nat.zero_add]
  -- the counted members, and the sets in the order of their lengths
  have hnodup : ((S.entries.filter (inEverySet env rest)).map ZSetEntry.member).Nodup :=
    S.distinct.sublist (filter_sublist.map _)
  rw [zinterCard, ncard_mem_list _ hnodup, length_map]
  intro m
  have hall : (∀ set ∈ sets, m ∈ zsetMembers env set) ↔
      ∀ z ∈ base :: rest, m ∈ zsetMembers env (some z) := by
    constructor
    · exact fun h z hz => h (some z) ((hmem z).1 hz)
    · intro h set hset
      cases set with
      | none => exact absurd hset hnone
      | some z => exact h z ((hmem z).2 hset)
  have hrest : ∀ e : ZSetEntry, inEverySet env rest e = true ↔
      ∀ z ∈ rest, e.member ∈ zsetMembers env (some z) := by
    intro e
    rw [inEverySet, all_eq_true]
    refine forall₂_congr fun z hz => ?_
    obtain ⟨T, hT⟩ := hsets z ((hmem z).1 (mem_cons_of_mem base hz))
    exact isSome_score env hT e.member
  rw [hall, forall_mem_cons, hmembers, mem_map, mem_map]
  constructor
  · rintro ⟨e, he, rfl⟩
    rw [mem_filter, hrest] at he
    exact ⟨⟨e, he.1, rfl⟩, he.2⟩
  · rintro ⟨⟨e, he, rfl⟩, hin⟩
    exact ⟨e, mem_filter.2 ⟨he, (hrest e).2 hin⟩, rfl⟩

end ZSets

/-! ## The commands -/

def limitArgs : Option Nat → List Frame
  | none => []
  | some limit => [.bulkString (ascii "LIMIT"), .bulkString (printI64 limit)]

/-- The arguments of `SINTERCARD` and `ZINTERCARD`. -/
def cardArgs (keys : List Bytes) (limit : Option Nat) : List Frame :=
  .bulkString (printI64 keys.length) :: (keys.map .bulkString ++ limitArgs limit)

section Commands

variable {env : Env} {limit : Option Nat}

theorem parseI64_natCast (h : n < 2 ^ 63) : parseI64 (printI64 n) = some (n : Int) :=
  parseI64_printI64 ⟨by omega, by omega⟩

theorem parseSetI64_printI64 (h : n < 2 ^ 63) : parseSetI64 (printI64 n) = .ok (n : Int) := by
  rw [parseSetI64, parseI64_natCast h]

theorem parseNonNegativeI64_printI64 (h : n < 2 ^ 63) :
    parseNonNegativeI64 (printI64 n) = .ok n := by
  rw [parseNonNegativeI64, parseI64_natCast h, Option.filter_some, if_pos (by simp)]
  rfl

theorem parseCardLimit_limitArgs (h : limit.getD 0 < 2 ^ 63) :
    parseCardLimit (limitArgs limit) = .ok limit := by
  rcases limit with _ | n
  · rfl
  have hopt : isOpt (ascii "LIMIT") "LIMIT" = true := by decide
  rw [Option.getD_some] at h
  show (if isOpt (ascii "LIMIT") "LIMIT" then
    (parseSetI64 (printI64 n)).bind fun limit => .ok (some limit.toNat)
    else .error syntaxError) = _
  rw [if_pos hopt, parseSetI64_printI64 h]
  rfl

theorem parseZintercardLimit_limitArgs (h : limit.getD 0 < 2 ^ 63) :
    parseZintercardLimit (limitArgs limit) = .ok limit := by
  rcases limit with _ | n
  · rfl
  have hopt : isOpt (ascii "LIMIT") "limit" = true := by decide
  rw [Option.getD_some] at h
  show (if isOpt (ascii "LIMIT") "limit" then (parseNonNegativeI64 (printI64 n)).map some
    else .error zsetSyntaxError) = _
  rw [if_pos hopt, parseNonNegativeI64_printI64 h]
  rfl

theorem filter_limit : (limit.filter fun limit => decide (0 < limit)) =
    (some (limit.getD 0)).filter fun limit => decide (0 < limit) := by
  cases limit with
  | none => rfl
  | some n => rfl

/-- The sorted sets under the keys, each at its own reading of the clock. -/
def storedZsets (clock : Nat → Nat) (s : Store) (keys : List Bytes) : List (Option ZSetObject) :=
  storedObjects Store.asZset clock s 0 keys

/-- Every key holds a sorted set or is missing. -/
def HoldZsets (clock : Nat → Nat) (s : Store) (keys : List Bytes) : Prop :=
  HoldObjects Store.asZset (fun z => ∃ S, ZSetObject.Refines z S) clock s 0 keys

variable (hne : keys ≠ []) (hkeys : keys.length < 2 ^ 63) (hlimit : limit.getD 0 < 2 ^ 63)

include hne hkeys hlimit

theorem sintercard_eq (hcollect : collectSetKeys env clock "set" (keys.map .bulkString) s =
      some (.ok (storedSets clock s keys), s'))
    (hcompute : computeSinter textPlace (storedSets clock s keys)
      ((some (limit.getD 0)).filter fun limit => decide (0 < limit)) = some result) :
    sintercard env textPlace clock (cardArgs keys limit) s =
      some (.ok (.integer result.length), s') := by
  have hrest : keys.map Frame.bulkString ++ limitArgs limit ≠ [] := by simp [hne]
  have htake : (keys.map Frame.bulkString ++ limitArgs limit).take (keys.length : Int).toNat =
      keys.map .bulkString := by simp
  have hdrop : (keys.map Frame.bulkString ++ limitArgs limit).drop (keys.length : Int).toNat =
      limitArgs limit := by simp
  have hlen : keys.length ≤ (keys.map Frame.bulkString ++ limitArgs limit).length := by simp
  have hpos : 0 < keys.length := length_pos_iff.2 hne
  rw [cardArgs]
  generalize keys.map Frame.bulkString ++ limitArgs limit = rest at hrest htake hdrop hlen
  obtain ⟨frame, frames, rfl⟩ := exists_cons_of_ne_nil hrest
  show (ofExcept (parseSetI64 (printI64 keys.length)) >>= _) s = _
  rw [parseSetI64_printI64 hkeys, ofExcept_ok_bind, if_neg (by omega), if_neg (by omega), hdrop,
    parseCardLimit_limitArgs hlimit, ofExcept_ok_bind, htake, bind_apply, hcollect]
  show (unwrap (computeSinter textPlace (storedSets clock s keys) _) >>= _) s' = _
  rw [filter_limit, hcompute]
  rfl

theorem zintercard_eq (hcollect : collectZsetKeys env clock (keys.map .bulkString) s =
      some (.ok (storedZsets clock s keys), s')) {count : Nat}
    (hcompute : computeZintercard env (storedZsets clock s keys) (limit.getD 0) = some count) :
    zintercard env clock (cardArgs keys limit) s = some (.ok (.integer count), s') := by
  have hparse : parseNumkeySources (.bulkString (printI64 keys.length))
      (keys.map Frame.bulkString ++ limitArgs limit) =
        .ok (keys.map .bulkString, limitArgs limit) := by
    show (parseNonNegativeI64 (printI64 keys.length) >>= _) = _
    rw [parseNonNegativeI64_printI64 hkeys]
    show (if keys.length = 0 then _ else _) = _
    rw [if_neg (by simpa using hne)]
    simp
  have hrest : keys.map Frame.bulkString ++ limitArgs limit ≠ [] := by simp [hne]
  rw [cardArgs]
  generalize keys.map Frame.bulkString ++ limitArgs limit = rest at hrest hparse
  obtain ⟨frame, frames, rfl⟩ := exists_cons_of_ne_nil hrest
  show (ofExcept (parseNumkeySources (.bulkString (printI64 keys.length))
    (frame :: frames)) >>= _) s = _
  rw [hparse]
  show (ofExcept (parseZintercardLimit (limitArgs limit)) >>= _) s = _
  rw [parseZintercardLimit_limitArgs hlimit, ofExcept_ok_bind, bind_apply, hcollect]
  show (unwrap (computeZintercard env (storedZsets clock s keys) (limit.getD 0)) >>= _) s' = _
  rw [hcompute]
  rfl

end Commands

/-- **The cardinality commands.** For all sets, with or without a limit, `SINTERCARD` replies the
number of common members, at most the limit, if and only if `CountsTo` holds; `ZINTERCARD` always
does. -/
theorem intersection_cardinality (env : Env) (textPlace : Placement CompactString)
    (clock : Nat → Nat) (hclock : Monotone clock) (s : Store) (keys : List Bytes) (hne : keys ≠ [])
    (hkeys : keys.length < 2 ^ 63) (limit : Option Nat) (hlimit : limit.getD 0 < 2 ^ 63) :
    (HoldSets clock s keys →
      ((∃ s', sintercard env textPlace clock (cardArgs keys limit) s = some (.ok
          (.integer (limited (limit.getD 0) (SetOp.interCard (storedSets clock s keys)))), s')) ↔
        SetOp.CountsTo (limit.getD 0) (storedSets clock s keys))) ∧
    (HoldZsets clock s keys → ∃ s', zintercard env clock (cardArgs keys limit) s = some (.ok
        (.integer (limited (limit.getD 0) (zinterCard env (storedZsets clock s keys)))), s')) := by
  constructor
  · intro hsets
    obtain ⟨s', hcollect, -⟩ := collectSetKeys_eq env hclock hsets
    obtain ⟨result, hcompute, hcard⟩ := SetOp.computeSinter_card_iff textPlace
      (storedObjects_ne_nil hne) (fun z hz => sound_of_holdSets hsets hz) (limit.getD 0)
    rw [sintercard_eq hne hkeys hlimit hcollect hcompute]
    refine .trans ?_ hcard
    constructor
    · rintro ⟨s₁, hrun⟩
      simp only [Option.some.injEq, Prod.mk.injEq, Except.ok.injEq, Response.integer.injEq,
        Nat.cast_inj] at hrun
      exact hrun.1
    · intro hlen
      rw [hlen]
      exact ⟨s', rfl⟩
  · intro hzsets
    obtain ⟨s', hcollect, -⟩ := collectObjects_eq env "zset" hclock keys hzsets
    have hcompute := computeZintercard_eq env (storedObjects_ne_nil hne)
      (fun z hz => valid_of_holdObjects hzsets hz) (limit.getD 0)
    exact ⟨s', zintercard_eq hne hkeys hlimit hcollect hcompute⟩

open SetOp

/-- `SINTERCARD 2 a b LIMIT 1` of `{x, y}` and `{x, y, z}`, and `ZINTERCARD 2 a a LIMIT 2` of a
sorted set with three members. -/
theorem intersection_cardinality_limits :
    (∃ s', sintercard Env.plain (Placement.append _) (fun _ => 0)
      (cardArgs [[0x61], [0x62]] (some 1))
      (twoSets (filled [[0x78], [0x79]]) (filled [[0x78], [0x79], [0x7a]])) =
        some (.ok (.integer 1), s')) ∧
    ∃ s', zintercard Env.plain (fun _ => 0) (cardArgs [[0x61], [0x61]] (some 2)) zsetStore =
      some (.ok (.integer 2), s') := by
  have hmono : Monotone fun _ : Nat => (0 : Nat) := fun _ _ _ => le_refl 0
  have hxy := sound_filled [[0x78], [0x79]]
  have hxyz := sound_filled [[0x78], [0x79], [0x7a]]
  have hcardinality := fun s => intersection_cardinality Env.plain (Placement.append _) (fun _ => 0)
    hmono s
  constructor
  · have hiter : (filled [[0x78], [0x79]]).iter = [[0x78], [0x79]] ∧
        (filled [[0x78], [0x79], [0x7a]]).iter = [[0x78], [0x79], [0x7a]] := by decide +kernel
    have hcard : interCard [some (filled [[0x78], [0x79]]),
        some (filled [[0x78], [0x79], [0x7a]])] = 2 := by
      refine ncard_mem_list [[0x78], [0x79]] (by decide) fun m => ?_
      simp [SetOp.Mem, members, hiter]
      grind
    have hsets := (hcardinality _ [[0x61], [0x62]] (by decide) (by decide) (some 1)
      (by decide)).1 (holdSets_twoSets hxy hxyz)
    rw [storedSets_twoSets hxy hxyz, hcard] at hsets
    apply hsets.2
    have hstrategy : algebraStrategy [some (filled [[0x78], [0x79]]),
        some (filled [[0x78], [0x79], [0x7a]])].reduceOption = .smallHash := by decide +kernel
    have hsorted : bySize [some (filled [[0x78], [0x79]]),
        some (filled [[0x78], [0x79], [0x7a]])] =
          [filled [[0x78], [0x79]], filled [[0x78], [0x79], [0x7a]]] := by rfl
    rw [CountsTo, hstrategy]
    refine .inr ⟨fun _ hsingle => ?_, fun _ => by rw [hcard]; decide, fun _ => ?_⟩
    · rw [hsorted] at hsingle
      cases hsingle
    -- both sets are listpacks, which answer for the bytes of their members only
    intro _ first zs hsize
    rw [hsorted] at hsize
    cases hsize
    decide +kernel
  · obtain ⟨S, hS, hperm⟩ := threeMembers_spec
    have hcard : zinterCard Env.plain [some threeMembers, some threeMembers] = 3 := by
      refine ncard_mem_list (threeEntries.map ZSetEntry.member) (by decide) fun m => ?_
      rw [← (hperm.map _).mem_iff]
      simp [zsetMembers, zsetEntries_eq Env.plain hS]
    have hstored : storedZsets (fun _ => 0) zsetStore [[0x61], [0x61]] =
        [some threeMembers, some threeMembers] := by
      rw [storedZsets, storedObjects, storedObjects, live_zsetStore]
      rfl
    have hzsets := (hcardinality zsetStore [[0x61], [0x61]] (by decide) (by decide) (some 2)
      (by decide)).2 ⟨?_, ?_, trivial⟩
    rw [hstored, hcard] at hzsets
    · exact hzsets
    all_goals
      intro e he
      rw [live_zsetStore] at he
      cases he
      exact ⟨_, rfl, S, hS⟩

/-- The limit is never applied to a single set: `SINTERCARD 1 a LIMIT 1` of `{y, z}` replies `2`. -/
theorem intersection_cardinality_fails :
    ¬∀ (env : Env) (textPlace : Placement CompactString) (clock : Nat → Nat) (s : Store)
      (keys : List Bytes) (limit : Option Nat), Monotone clock → keys ≠ [] →
      keys.length < 2 ^ 63 → limit.getD 0 < 2 ^ 63 → HoldSets clock s keys →
        ∃ s', sintercard env textPlace clock (cardArgs keys limit) s = some (.ok
          (.integer (limited (limit.getD 0) (SetOp.interCard (storedSets clock s keys)))), s') := by
  intro h
  have hyz := sound_filled [[0x79], [0x7a]]
  obtain ⟨ha, -⟩ := live_twoSets hyz hyz
  generalize twoSets (filled [[0x79], [0x7a]]) (filled [[0x79], [0x7a]]) = s at ha
  have hmono : Monotone fun _ : Nat => (0 : Nat) := fun _ _ _ => le_refl 0
  have hstored : storedSets (fun _ => 0) s [[0x61]] = [some (filled [[0x79], [0x7a]])] := by
    rw [storedSets, storedObjects, ha]
    rfl
  have hhold : HoldSets (fun _ => 0) s [[0x61]] := by
    refine ⟨fun e he => ?_, trivial⟩
    rw [ha] at he
    cases he
    exact ⟨_, rfl, hyz⟩
  obtain ⟨s', hrun⟩ := h Env.plain (Placement.append _) (fun _ => 0) s [[0x61]] (some 1) hmono
    (by decide) (by decide) (by decide) hhold
  obtain ⟨s₁, hcollect, -⟩ := collectSetKeys_eq Env.plain hmono hhold
  have hcompute : computeSinter (Placement.append _) [some (filled [[0x79], [0x7a]])]
      ((some 1).filter fun limit => decide (0 < limit)) = some [[0x79], [0x7a]] := by
    decide +kernel
  rw [← hstored] at hcompute
  have hlimit : (some 1).getD 0 < 2 ^ 63 := by decide
  rw [sintercard_eq (by decide) (by decide) hlimit hcollect hcompute] at hrun
  simp only [Option.some.injEq, Prod.mk.injEq, Except.ok.injEq, Response.integer.injEq,
    Nat.cast_inj] at hrun
  have hle : 2 ≤ 1 := hrun.1.trans_le (Nat.min_le_left _ _)
  exact absurd hle (by decide)

end Senko
