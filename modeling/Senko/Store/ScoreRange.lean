import Senko.Store.RangeStore

/-!
# Senko — score ranges (`ZRANGEBYSCORE`, `ZREVRANGEBYSCORE` and `ZCOUNT`)

A bound is a number, included or excluded, or the text of an infinity. The program takes `+inf` to
lie after every score and `-inf` before every score. As the bound of the other side this comes to
the same, but as a lower bound `+inf` leaves out the members whose score is infinite, and so does
`-inf` as an upper bound. A NaN bounds nothing; the tree passes over one when it looks for its
start.
-/

namespace Senko

open Command List ZSetObject

/-! ## What the bounds mean -/

/-- The score is not below a lower bound. -/
def ScoreBound.atLeast (score : F64) : ScoreBound → Bool
  | .inclusive v => v.le score
  | .exclusive v => v.lt score
  | .negInf => F64.negInfinity.le score
  | .posInf => F64.infinity.le score

/-- The score is not above an upper bound. -/
def ScoreBound.atMost (score : F64) : ScoreBound → Bool
  | .inclusive v => score.le v
  | .exclusive v => score.lt v
  | .negInf => score.le .negInfinity
  | .posInf => score.le .infinity

/-- **The entries a score range is for**, in the order of the extended reals. -/
def between (min max : ScoreBound) (e : ZSetEntry) : Bool :=
  min.atLeast e.score && max.atMost e.score

/-- The entries that the two encodings select. -/
def ZSetObject.selects (z : ZSetObject) (min max : ScoreBound) (e : ZSetEntry) : Bool :=
  if min.NotNan then scoreInRange e.score min max
  else
    match z.inner with
    | .listpack _ => false
    | .bpTree _ _ => scoreWithinUpperBound e.score max

variable {z : ZSetObject} {S : SortedSet} {min max : ScoreBound} {e : ZSetEntry}

theorem F64.le_infinity {x : F64} (hx : x.isNan = false) :
    x.le .infinity = true ∧ F64.negInfinity.le x = true := by
  have hinf : F64.infinity.isNan = false ∧ F64.infinity.key = 0x7FF0000000000000 := by decide
  have hneg : F64.negInfinity.isNan = false ∧ F64.negInfinity.key = -0x7FF0000000000000 := by decide
  have hmag : x.magnitude ≤ 0x7FF0000000000000 := by simpa [F64.isNan] using hx
  have hkey : x.key ≤ 0x7FF0000000000000 ∧ -0x7FF0000000000000 ≤ x.key := by
    unfold F64.key
    split <;> omega
  simp [F64.le, hx, hinf, hneg, hkey]

/-- **With a number as the lower bound** the code misses only what the infinities include. -/
theorem scoreInRange_iff (he : e.NotNan) : scoreInRange e.score min max = true ↔
    between min max e = true ∧ min ≠ .posInf ∧ max ≠ .negInf := by
  obtain ⟨hinf, hneg⟩ := F64.le_infinity he
  cases min <;> cases max <;>
    simp [scoreInRange, between, ScoreBound.atLeast, ScoreBound.atMost, hinf, hneg]

theorem between_of_nan (h : ¬ min.NotNan) : between min max e = false := by
  cases min <;> simp_all [between, ScoreBound.atLeast, ScoreBound.NotNan, F64.le, F64.lt]

/-- **The bounds that are understood**: nothing lies between an infinity and a bound on its wrong
side, and a tree is not asked for the scores above a NaN, unless the other bound refuses them all.
-/
structure BoundsHold (z : ZSetObject) (S : SortedSet) (min max : ScoreBound) : Prop where
  infinite : min = .posInf ∨ max = .negInf → ∀ e ∈ S.entries, between min max e = false
  number : ¬ min.NotNan → ∀ tree index, z.inner = .bpTree tree index →
    ∀ e ∈ S.entries, scoreWithinUpperBound e.score max = false

theorem boundsHold_iff : BoundsHold z S min max ↔
    ∀ e ∈ S.entries, z.selects min max e = between min max e := by
  by_cases hnan : min.NotNan
  · have hselects : ∀ e ∈ S.entries, z.selects min max e = true ↔
        between min max e = true ∧ min ≠ .posInf ∧ max ≠ .negInf := by
      intro e he
      rw [selects, if_pos hnan, scoreInRange_iff (S.sorted.notNan e he)]
    constructor
    · intro h e he
      rw [Bool.eq_iff_iff, hselects e he, and_iff_left_iff_imp]
      intro hbetween
      rw [← not_or]
      intro hinf
      rw [h.infinite hinf e he] at hbetween
      cases hbetween
    · refine fun h => ⟨fun hinf e he => ?_, fun hnot => absurd hnan hnot⟩
      rw [← h e he, ← Bool.not_eq_true, hselects e he, ← not_or]
      exact fun hand => hand.2 hinf
  · -- nothing is between, so nothing may be selected
    simp only [selects, if_neg hnan, between_of_nan hnan]
    constructor
    · intro h e he
      cases hinner : z.inner with
      | listpack node => rfl
      | bpTree tree index => exact h.number hnan tree index hinner e he
    · refine fun h => ⟨fun _ e _ => between_of_nan hnan, fun _ tree index hinner e he => ?_⟩
      have hnone := h e he
      rw [hinner] at hnone
      exact hnone

/-- Of two selections, one a part of the other, the sizes tell whether they are the same. -/
theorem eq_of_length_filter {α : Type} {l : List α} {f g : α → Bool}
    (h : ∀ a ∈ l, f a = true → g a = true) (hlength : (l.filter f).length = (l.filter g).length) :
    ∀ a ∈ l, f a = g a := by
  have hpart : l.filter f = (l.filter g).filter f := by
    rw [filter_filter]
    apply filter_congr
    intro a ha
    cases hf : f a with
    | false => rfl
    | true => exact (h a ha hf).symm
  have hsame : l.filter f = l.filter g :=
    (hpart ▸ filter_sublist : List.Sublist (l.filter f) (l.filter g)).eq_of_length hlength
  intro a ha
  rw [Bool.eq_iff_iff]
  refine ⟨h a ha, fun hg => ?_⟩
  have hmem := mem_filter.2 ⟨ha, hg⟩
  rw [← hsame] at hmem
  exact (mem_filter.1 hmem).2

theorem boundsHold_of_length (hlength : (S.entries.filter (z.selects min max)).length =
    (S.entries.filter (between min max)).length) : BoundsHold z S min max := by
  rw [boundsHold_iff]
  by_cases hnan : min.NotNan
  · refine eq_of_length_filter (fun e he hselected => ?_) hlength
    rw [selects, if_pos hnan, scoreInRange_iff (S.sorted.notNan e he)] at hselected
    exact hselected.1
  · intro e he
    refine (eq_of_length_filter (fun e he hbetween => ?_) hlength.symm e he).symm
    rw [between_of_nan hnan] at hbetween
    cases hbetween

/-! ## The commands -/

section Commands

variable (env : Env) (math : FloatMath) (clock : Nat → Nat)

def zcount : List Frame → Command Response
  | [key, min, max] => do
    let key ← ofExcept (argBytes key)
    ensureZsetTypeOrMissing env clock 0 key
    let min ← ofExcept ((argBytes min).bind (parseScoreBound math))
    let max ← ofExcept ((argBytes max).bind (parseScoreBound math))
    match ← store fun s => s.getZset env (clock 1) key with
    | none => pure (.integer 0)
    | some zset => do
      let count ← unwrap (zset.countByScore env.std min max)
      pure (.integer count)
  | _ => fail (.protocol (wrongArity "zcount"))

/-- The three commands return these entries, in the order of the scores. -/
def ReturnsEntries (s : Store) (key : Bytes) (min max : Frame) (tail : List Frame)
    (withscores : Bool) (es : List ZSetEntry) : Prop :=
  let response es := rangeEntriesResponse math (es.map (RangeEntry.of withscores))
  (∃ s', zrangebyscore env math clock (.bulkString key :: min :: max :: tail) s =
      some (.ok (response es), s')) ∧
    (∃ s', zrevrangebyscore env math clock (.bulkString key :: max :: min :: tail) s =
      some (.ok (response es.reverse), s')) ∧
    ∃ s', zcount env math clock [.bulkString key, min, max] s = some (.ok (.integer es.length), s')

variable {math clock} {s : Store} {key : Bytes} {minFrame maxFrame : Frame} {tail : List Frame}
  {options : RangeOptions}

theorem rangeByScore_eq (h : z.Refines S) (reverse : Bool) :
    z.rangeByScore env.std min max reverse none =
      some (SortedSet.inOrder (S.entries.filter (z.selects min max)) reverse) := by
  unfold selects
  by_cases hnan : min.NotNan
  · simp only [h.rangeByScore env.std hnan, if_pos hnan]
    rfl
  · simp only [h.rangeByScore_nan env.std hnan, if_neg hnan]
    cases z.inner with
    | listpack node => cases reverse <;> simp [applyLimit]
    | bpTree tree index => rfl

/-- The type is checked first, and the sorted set of the second reading is found then, too. -/
theorem ensure_of_source (hclock : Monotone clock) (h : rangeSource clock s key = some z) :
    ∃ s₁, ensureZsetTypeOrMissing env clock 0 key s = some (.ok (), s₁) := by
  obtain ⟨hfound, -⟩ := Option.filter_eq_some_iff.1 h
  obtain ⟨e, hlive, hzset⟩ := Option.bind_eq_some_iff.1 hfound
  obtain ⟨hkey, hexpired⟩ := Option.filter_eq_some_iff.1 hlive
  have hnow : s.keyMap.live (clock 0) key = some e := by
    refine Option.filter_eq_some_iff.2 ⟨hkey, ?_⟩
    cases hexp : isExpired e.2 (clock 0) with
    | false => rfl
    | true => simp [isExpired_mono (hclock (Nat.zero_le 1)) hexp] at hexpired
  have hget : (s.get env (clock 0) key).2 = some e.1 := by
    have haccess := (Store.keyMap_access env s (clock 0) key).2
    rw [hnow] at haccess
    obtain ⟨entry, hentry, rfl⟩ := Option.map_eq_some_iff.1 haccess
    rw [Store.get]
    simp [hentry, Entry.contents]
  rw [ensureZsetTypeOrMissing, ensureTypeOrMissing, store_bind, hget, objectOrMissing, hzset]
  exact ⟨_, rfl⟩

section Run

variable (hclock : Monotone clock) (hsource : rangeSource clock s key = some z) (hz : z.Refines S)
  (hmin : (argBytes minFrame).bind (parseScoreBound math) = .ok min)
  (hmax : (argBytes maxFrame).bind (parseScoreBound math) = .ok max)

include hclock hsource hz hmin hmax

theorem legacyRange_eq (command : String) (reverse : Bool) (start stop : Frame)
    (hframes : (if reverse then (stop, start) else (start, stop)) = (minFrame, maxFrame))
    (htail : parseLegacyRangeTail false tail {} = .ok options) (hlimit : options.limit = none) :
    ∃ s', legacyRange env math clock command false reverse
        (.bulkString key :: start :: stop :: tail) s = some (.ok (rangeEntriesResponse math
        ((SortedSet.inOrder (S.entries.filter (z.selects min max)) reverse).map
          (RangeEntry.of options.withscores))), s') := by
  obtain ⟨s₁, hensure⟩ := ensure_of_source env hclock hsource
  obtain ⟨s₂, -, hrun⟩ := rangeOrMissing_eq hensure hclock
  have hrange : rangeOrMissing env clock key (.byScore min max) reverse options.limit
      (!false && options.withscores) s₁ =
        some (.ok ((SortedSet.inOrder (S.entries.filter (z.selects min max)) reverse).map
          (RangeEntry.of options.withscores)), s₂) := by
    rw [hrun, hsource, hlimit]
    dsimp only
    rw [executeRange, rangeEntries, rangeByScore_eq env hz]
    rfl
  refine ⟨s₂, ?_⟩
  rw [legacyRange, argBytes_bulkString, ofExcept_ok_bind, bind_apply, hensure]
  dsimp only
  rw [htail, ofExcept_ok_bind, hframes]
  dsimp only
  rw [if_neg (by simp), hmin, hmax]
  show (rangeOrMissing env clock key (.byScore min max) reverse options.limit
    (!false && options.withscores) >>= _) s₁ = _
  rw [bind_apply, hrange]
  rfl

theorem zcount_eq : ∃ s', zcount env math clock [.bulkString key, minFrame, maxFrame] s =
    some (.ok (.integer (S.entries.filter (z.selects min max)).length), s') := by
  obtain ⟨s₁, hensure⟩ := ensure_of_source env hclock hsource
  have hget : (s₁.getZset env (clock 1) key).2 = some z :=
    (getZset_of_ensure hensure hclock).trans hsource
  refine ⟨(s₁.getZset env (clock 1) key).1, ?_⟩
  rw [zcount, argBytes_bulkString, ofExcept_ok_bind, bind_apply, hensure]
  dsimp only
  rw [hmin, ofExcept_ok_bind, hmax, ofExcept_ok_bind, store_bind, hget]
  dsimp only
  rw [countByScore, rangeByScore_eq env hz]
  rfl

end Run

end Commands

/-- **Score ranges.** `ZRANGEBYSCORE` and `ZREVRANGEBYSCORE` return the entries between the bounds
and `ZCOUNT` their number, exactly if the bounds are understood. -/
theorem score_ranges_exact (env : Env) (math : FloatMath) (clock : Nat → Nat)
    (hclock : Monotone clock) (s : Store) (key : Bytes) (z : ZSetObject) (S : SortedSet)
    (hsource : rangeSource clock s key = some z) (hz : z.Refines S) (minFrame maxFrame : Frame)
    (min max : ScoreBound) (hmin : (argBytes minFrame).bind (parseScoreBound math) = .ok min)
    (hmax : (argBytes maxFrame).bind (parseScoreBound math) = .ok max) (tail : List Frame)
    (options : RangeOptions) (htail : parseLegacyRangeTail false tail {} = .ok options)
    (hlimit : options.limit = none) :
    ReturnsEntries env math clock s key minFrame maxFrame tail options.withscores
        (S.entries.filter (between min max)) ↔ BoundsHold z S min max := by
  constructor
  · rintro ⟨-, -, s₁, hcount⟩
    obtain ⟨s₂, hcode⟩ := zcount_eq env hclock hsource hz hmin hmax
    rw [hcode] at hcount
    simp only [Option.some.injEq, Prod.mk.injEq, Except.ok.injEq, Response.integer.injEq,
      Nat.cast_inj] at hcount
    exact boundsHold_of_length hcount.1
  · intro hbounds
    have hsame : S.entries.filter (z.selects min max) = S.entries.filter (between min max) :=
      filter_congr (boundsHold_iff.1 hbounds)
    have hrange := fun command reverse start stop hframes => legacyRange_eq env hclock hsource hz
      hmin hmax command reverse start stop hframes htail hlimit
    have hcount := zcount_eq env hclock hsource hz hmin hmax
    rw [hsame] at hcount
    simp only [hsame] at hrange
    exact ⟨hrange "zrangebyscore" false _ _ rfl, hrange "zrevrangebyscore" true _ _ rfl, hcount⟩

/-- Every sorted set can be stored. -/
theorem exists_source (T : SortedSet) (hne : T.entries ≠ []) (hlen : T.entries.length < 2 ^ 32) :
    ∃ s z, rangeSource (fun _ => 0) s [0x61] = some z ∧ ZSetObject.Refines z T := by
  obtain ⟨z, S, -, hS, hperm⟩ := zsetOf_spec .plain T.sorted.notNan T.distinct hlen
  obtain rfl : S = T := SortedSet.ext_mem fun e => hperm.mem_iff
  refine ⟨((Store.new .plain none 0).set .plain 0 ⟨[0x61], rfl⟩ (.zset z) {}).1, z, ?_, hS⟩
  have hfull : z.isEmpty = false := by
    rw [ZSetObject.isEmpty, hS.len_eq]
    simpa using hne
  rw [rangeSource, KeyMap.live, Store.keyMap_set_unlimited rfl (SenkoValue.clone_zset hS),
    if_pos rfl]
  show (some z).filter _ = _
  simp [hfull]

/-- Two members of the score 0 and one of the score `+inf`. -/
def scoredMembers : List ZSetEntry := scoredXyz F64.zero F64.zero F64.infinity

theorem sorted_scoredMembers : SortedEntries scoredMembers :=
  ⟨by decide +kernel, by decide +kernel⟩

theorem nodup_scoredMembers : (scoredMembers.map ZSetEntry.member).Nodup := by decide

def threeScores : SortedSet := ⟨scoredMembers, sorted_scoredMembers, nodup_scoredMembers⟩

/-- The range from `-inf` to `0` leaves out the last member. -/
theorem score_ranges_exact_upTo : ∃ s, ReturnsEntries .plain .plain (fun _ => 0) s [0x61]
    (.bulkString (ascii "-inf")) (.bulkString (ascii "0")) [] false
      [⟨F64.zero, ⟨[0x78], rfl⟩⟩, ⟨F64.zero, ⟨[0x79], rfl⟩⟩] := by
  obtain ⟨s, z, hsource, hz⟩ := exists_source threeScores (by decide) (by decide)
  have hreturns := (score_ranges_exact .plain .plain (fun _ => 0) (fun _ _ _ => le_refl 0) s [0x61]
    z _ hsource hz (.bulkString (ascii "-inf")) (.bulkString (ascii "0")) .negInf
    (.inclusive F64.zero) rfl rfl [] {} rfl rfl).2 ⟨by simp, fun hnan => absurd trivial hnan⟩
  exact ⟨s, hreturns⟩

/-- A member has the score `+inf`, and the range from `+inf` to `+inf` is empty. -/
theorem score_ranges_exact_fails :
    ¬ ∀ (env : Env) (math : FloatMath) (clock : Nat → Nat) (s : Store) (key : Bytes)
      (z : ZSetObject) (S : SortedSet) (minFrame maxFrame : Frame) (min max : ScoreBound),
      Monotone clock → rangeSource clock s key = some z → z.Refines S →
      (argBytes minFrame).bind (parseScoreBound math) = .ok min →
      (argBytes maxFrame).bind (parseScoreBound math) = .ok max →
      ReturnsEntries env math clock s key minFrame maxFrame [] false
        (S.entries.filter (between min max)) := by
  intro h
  obtain ⟨s, z, hsource, hz⟩ := exists_source threeScores (by decide) (by decide)
  have hclock : Monotone fun _ : Nat => 0 := fun _ _ _ => le_refl 0
  have hinf : (argBytes (.bulkString (ascii "+inf"))).bind (parseScoreBound .plain) = .ok .posInf :=
    rfl
  obtain ⟨-, -, s₁, hcount⟩ := h .plain .plain (fun _ => 0) s [0x61] z _ _ _ _ _ hclock hsource hz
    hinf hinf
  obtain ⟨s₂, hcode⟩ := zcount_eq .plain hclock hsource hz hinf hinf
  have hnone : threeScores.entries.filter (z.selects .posInf .posInf) = [] :=
    filter_eq_nil_iff.2 fun e _ => by
      have hselects : z.selects .posInf .posInf e = false := if_pos trivial
      simp [hselects]
  have hone : (threeScores.entries.filter (between .posInf .posInf)).length = 1 := by decide
  rw [hcode, hnone, hone] at hcount
  cases hcount

end Senko
