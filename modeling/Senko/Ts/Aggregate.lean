import Mathlib.Algebra.Order.Ring.Int
import Mathlib.Algebra.Ring.Divisibility.Basic
import Mathlib.Data.List.Basic

/-!
# Senko — the buckets of a time series (`series.rs`)

`aggregate` goes from bucket to bucket, from the one of the first timestamp on, and its additions
stop at the ends of `i64`. So it never comes past the greatest timestamp, and where the first bucket
is cut off at an end, or the distance to the alignment is, the buckets are not those of the
alignment.
-/

namespace Senko.Ts

open List

def i64Min : Int := -2 ^ 63
def i64Max : Int := 2 ^ 63 - 1

/-- The result of an addition or a subtraction that stops at the ends of `i64`. -/
def saturate (x : Int) : Int := max i64Min (min x i64Max)

def alignBucket (timestamp bucketDuration alignTs : Int) : Int :=
  if bucketDuration ≤ 0 then timestamp
  else saturate (timestamp - saturate (timestamp - alignTs) % bucketDuration)

inductive BucketTimestamp where
  | start
  | stop
  | mid

def bucketTs (start stop : Int) : BucketTimestamp → Int
  | .start => start
  | .stop => saturate (stop - 1)
  | .mid => saturate (start + (saturate (stop - start)).tdiv 2)

/-- What is counted in a bucket, and what is made of it at the end. -/
structure Aggregator (V : Type) where
  State : Type
  init : State
  push : State → Int × V → State
  value : State → Int → Int → Option V

structure Bucket (V : Type) where
  start : Int
  stop : Int
  pushed : List (Int × V)

variable {V : Type}

/-- The inner loop: the samples that are pushed, and those that are left for the next bucket. -/
def fill (start stop : Int) : List (Int × V) → List (Int × V) × List (Int × V)
  | [] => ([], [])
  | sample :: samples =>
    if sample.1 < start then fill start stop samples
    else if stop ≤ sample.1 then ([], sample :: samples)
    else
      let (pushed, left) := fill start stop samples
      (sample :: pushed, left)

/-- The outer loop: the buckets, or nothing if the rounds do not suffice. -/
def buckets (d toTs : Int) (rounds : Nat) (samples : List (Int × V)) (start : Int) :
    Option (List (Bucket V)) :=
  if toTs < start then some []
  else
    match rounds with
    | 0 => none
    | rounds + 1 =>
      let stop := saturate (start + d)
      let (pushed, left) := fill start stop samples
      (buckets d toTs rounds left stop).map (⟨start, stop, pushed⟩ :: ·)

/-- What a bucket adds to the answer. -/
def emit (agg : Aggregator V) (bucketTimestamp : BucketTimestamp) (empty : Option V)
    (b : Bucket V) : Option (Int × V) :=
  ((agg.value (b.pushed.foldl agg.push agg.init) b.start b.stop).or empty).map
    (bucketTs b.start b.stop bucketTimestamp, ·)

/-- `empty` is the value of an empty bucket, if it is to be shown. -/
def aggregate (agg : Aggregator V) (rounds : Nat) (samples : List (Int × V)) (d alignTs : Int)
    (bucketTimestamp : BucketTimestamp) (empty : Option V) (fromTs toTs : Int) :
    Option (List (Int × V)) :=
  if d = 0 then some samples
  else (buckets d toTs rounds samples (alignBucket fromTs d alignTs)).map
    (filterMap (emit agg bucketTimestamp empty))

/-- **The samples are in the buckets of the alignment**, each in one, and the buckets are in order.
-/
structure Partitions (d alignTs : Int) (samples : List (Int × V)) (bs : List (Bucket V)) :
    Prop where
  pushed : bs.flatMap Bucket.pushed = samples
  inside : ∀ b ∈ bs, ∀ sample ∈ b.pushed,
    b.start ≤ sample.1 ∧ sample.1 < b.start + d ∧ d ∣ b.start - alignTs
  increasing : bs.Pairwise (·.start < ·.start)

/-- Enough rounds end the walk, and its buckets partition the samples and make the answer. -/
def Aggregates (agg : Aggregator V) (bucketTimestamp : BucketTimestamp) (empty : Option V)
    (samples : List (Int × V)) (d alignTs fromTs toTs : Int) : Prop :=
  ∃ rounds bs, buckets d toTs rounds samples (alignBucket fromTs d alignTs) = some bs ∧
    aggregate agg rounds samples d alignTs bucketTimestamp empty fromTs toTs =
      some (bs.filterMap (emit agg bucketTimestamp empty)) ∧ Partitions d alignTs samples bs

variable {d toTs start : Int} {samples : List (Int × V)} {bs : List (Bucket V)} {rounds : Nat}

theorem fill_spec (stop : Int) (hsorted : samples.Pairwise (·.1 ≤ ·.1))
    (hlow : ∀ s ∈ samples, start ≤ s.1) :
    (fill start stop samples).1 ++ (fill start stop samples).2 = samples ∧
      (∀ s ∈ (fill start stop samples).1, s.1 < stop) ∧
      ∀ s ∈ (fill start stop samples).2, stop ≤ s.1 := by
  induction samples with
  | nil => exact ⟨rfl, nofun, nofun⟩
  | cons sample samples ih =>
    obtain ⟨hfirst, hsorted⟩ := pairwise_cons.1 hsorted
    obtain ⟨hlow, hrest⟩ := forall_mem_cons.1 hlow
    rw [fill, if_neg hlow.not_gt]
    split
    · exact ⟨rfl, nofun, forall_mem_cons.2 ⟨‹_›, fun s hs => le_trans ‹_› (hfirst s hs)⟩⟩
    · obtain ⟨happend, hpushed, hleft⟩ := ih hsorted hrest
      exact ⟨by simp [happend], forall_mem_cons.2 ⟨not_le.1 ‹_›, hpushed⟩, hleft⟩

/-- The next bucket starts where this one ends, unless that is the end of `i64`. -/
theorem saturate_add (hd : 0 < d) (hmin : i64Min ≤ start) (hmax : start < i64Max) :
    start < saturate (start + d) ∧ (saturate (start + d) = start + d ∨
      saturate (start + d) = i64Max ∧ i64Max < start + d) := by
  unfold saturate i64Min i64Max at *
  omega

theorem partitions_nil (hend : toTs < start) (hlow : ∀ s ∈ samples, start ≤ s.1)
    (hhigh : ∀ s ∈ samples, s.1 ≤ toTs) : Partitions d start samples [] := by
  refine ⟨(eq_nil_iff_forall_not_mem.2 fun s hs => ?_).symm, nofun, .nil⟩
  have hstart := hlow s hs
  have hstop := hhigh s hs
  omega

/-- **The walk over the buckets**, from any bucket on. -/
theorem buckets_spec (hd : 0 < d) (hto : toTs < i64Max) (hmin : i64Min ≤ start)
    (hsorted : samples.Pairwise (·.1 ≤ ·.1)) (hlow : ∀ s ∈ samples, start ≤ s.1)
    (hhigh : ∀ s ∈ samples, s.1 ≤ toTs) (h : buckets d toTs rounds samples start = some bs) :
    Partitions d start samples bs ∧ ∀ b ∈ bs, start ≤ b.start ∧ b.start ≤ toTs := by
  induction rounds generalizing samples start bs with
  | zero =>
    rw [buckets] at h
    split at h <;> cases h
    exact ⟨partitions_nil ‹_› hlow hhigh, nofun⟩
  | succ rounds ih =>
    rw [buckets] at h
    split at h
    · cases h
      exact ⟨partitions_nil ‹_› hlow hhigh, nofun⟩
    obtain ⟨rest, hrest, rfl⟩ := Option.map_eq_some_iff.1 h
    obtain ⟨hnext, hstop⟩ := saturate_add hd hmin (by omega)
    obtain ⟨happend, hpushed, hleft⟩ := fill_spec (saturate (start + d)) hsorted hlow
    rw [← happend] at hsorted hlow hhigh
    obtain ⟨-, hsorted', -⟩ := pairwise_append.1 hsorted
    obtain ⟨hparts, hbounds⟩ := ih (by omega) hsorted' hleft (forall_mem_append.1 hhigh).2 hrest
    refine ⟨⟨?_, ?_, ?_⟩, ?_⟩
    · rw [flatMap_cons, hparts.pushed, happend]
    · refine forall_mem_cons.2 ⟨fun s hs => ?_, fun b hb s hs => ?_⟩
      · have hlt := hpushed s hs
        refine ⟨(forall_mem_append.1 hlow).1 s hs, ?_, by simp⟩
        show s.1 < start + d
        omega
      · obtain ⟨hle, hlt, hdvd⟩ := hparts.inside b hb s hs
        have hb' := hbounds b hb
        rw [hstop.resolve_right (by omega), ← sub_sub, dvd_sub_self_right] at hdvd
        exact ⟨hle, hlt, hdvd⟩
    · exact pairwise_cons.2 ⟨fun b hb => hnext.trans_le (hbounds b hb).1, hparts.increasing⟩
    · refine forall_mem_cons.2 ⟨⟨le_rfl, not_lt.1 ‹_›⟩, fun b hb => ?_⟩
      exact ⟨hnext.le.trans (hbounds b hb).1, (hbounds b hb).2⟩

theorem buckets_isSome (samples : List (Int × V)) (hd : 0 < d) (hto : toTs < i64Max)
    (hmin : i64Min ≤ start) (hrounds : toTs < start + rounds) :
    (buckets d toTs rounds samples start).isSome = true := by
  induction rounds generalizing samples start with
  | zero =>
    rw [buckets, if_pos (by simpa using hrounds)]
    rfl
  | succ rounds ih =>
    rw [buckets]
    split
    · rfl
    obtain ⟨hnext, -⟩ := saturate_add hd hmin (by omega)
    rw [Option.isSome_map]
    exact ih _ (by omega) (by omega)

/-- There is no bucket behind the greatest timestamp. -/
theorem buckets_max (hstart : start ≤ i64Max) : buckets d i64Max rounds samples start = none := by
  induction rounds generalizing samples start with
  | zero => rw [buckets, if_neg hstart.not_gt]
  | succ rounds ih =>
    rw [buckets, if_neg hstart.not_gt, Option.map_eq_none_iff]
    exact ih (max_le (by decide) (min_le_right _ _))

theorem alignBucket_bounds {fromTs : Int} (alignTs : Int) (hd : 0 < d) (hmin : i64Min ≤ fromTs) :
    i64Min ≤ alignBucket fromTs d alignTs ∧ alignBucket fromTs d alignTs ≤ fromTs := by
  have hmod := Int.emod_nonneg (saturate (fromTs - alignTs)) hd.ne'
  rw [alignBucket, if_neg hd.not_ge]
  exact ⟨le_max_left _ _, max_le hmin ((min_le_left _ _).trans (by omega))⟩

/-- **`aggregate` ends and partitions the samples** exactly if the range ends before the greatest
timestamp, and the first bucket is one of the alignment or there are no samples. -/
theorem aggregate_partitions (agg : Aggregator V) (bucketTimestamp : BucketTimestamp)
    (empty : Option V) (samples : List (Int × V)) (d alignTs fromTs toTs : Int)
    (hsorted : samples.Pairwise (·.1 ≤ ·.1)) (hin : ∀ s ∈ samples, fromTs ≤ s.1 ∧ s.1 ≤ toTs)
    (hfrom : i64Min ≤ fromTs) (hle : fromTs ≤ toTs) (hto : toTs ≤ i64Max) (hd : 0 < d) :
    Aggregates agg bucketTimestamp empty samples d alignTs fromTs toTs ↔
      toTs < i64Max ∧ (samples = [] ∨ d ∣ alignBucket fromTs d alignTs - alignTs) := by
  obtain ⟨hstart, hlow⟩ := alignBucket_bounds alignTs hd hfrom
  have hspec (hlt : toTs < i64Max) {rounds bs}
      (hrun : buckets d toTs rounds samples (alignBucket fromTs d alignTs) = some bs) :=
    (buckets_spec hd hlt hstart hsorted (fun s hs => hlow.trans (hin s hs).1)
      (fun s hs => (hin s hs).2) hrun).1
  constructor
  · rintro ⟨rounds, bs, hrun, -, hparts⟩
    have hlt : toTs < i64Max := by
      refine hto.lt_of_ne ?_
      rintro rfl
      rw [buckets_max (hlow.trans hle)] at hrun
      cases hrun
    refine ⟨hlt, or_iff_not_imp_left.2 fun hne => ?_⟩
    -- The bucket of any sample is one of the alignment and one of the walk from the first bucket.
    obtain ⟨sample, hsample⟩ := exists_mem_of_ne_nil _ hne
    rw [← hparts.pushed] at hsample
    obtain ⟨b, hb, hs⟩ := mem_flatMap.1 hsample
    have hdvd := dvd_sub (hparts.inside b hb sample hs).2.2
      ((hspec hlt hrun).inside b hb sample hs).2.2
    rwa [sub_sub_sub_cancel_left] at hdvd
  · rintro ⟨hlt, halign⟩
    have hrounds : toTs < alignBucket fromTs d alignTs +
        ((toTs + 1 - alignBucket fromTs d alignTs).toNat : Int) := by omega
    obtain ⟨bs, hrun⟩ := Option.isSome_iff_exists.1
      (buckets_isSome samples hd hlt hstart hrounds)
    have hparts := hspec hlt hrun
    refine ⟨_, bs, hrun, ?_, hparts.pushed, fun b hb s hs => ?_, hparts.increasing⟩
    · rw [aggregate, if_neg hd.ne', hrun]
      rfl
    · obtain ⟨hle, hlt, hdvd⟩ := hparts.inside b hb s hs
      have hne : samples ≠ [] := by
        rw [← hparts.pushed]
        exact ne_nil_of_mem (mem_flatMap_of_mem hb hs)
      have hsum := dvd_add hdvd (halign.resolve_left hne)
      rw [sub_add_sub_cancel] at hsum
      exact ⟨hle, hlt, hsum⟩

/-- The number of the samples. -/
def countSamples : Aggregator Nat where
  State := Nat
  init := 0
  push count _ := count + 1
  value count _ _ := if count = 0 then none else some count

theorem aggregate_partitions_two_buckets :
    Aggregates countSamples .start none [(3, 0), (4, 0), (12, 0)] 10 0 3 12 :=
  (aggregate_partitions countSamples .start none [(3, 0), (4, 0), (12, 0)] 10 0 3 12 (by decide)
    (by decide) (by decide) (by decide) (by decide) (by decide)).2 ⟨by decide, .inr (by decide)⟩

/-- A range up to `+`, of a series without samples, is walked for ever. -/
theorem aggregate_partitions_fails :
    ¬ ∀ (samples : List (Int × Nat)) (d alignTs fromTs toTs : Int),
      samples.Pairwise (·.1 ≤ ·.1) → (∀ s ∈ samples, fromTs ≤ s.1 ∧ s.1 ≤ toTs) →
        i64Min ≤ fromTs → fromTs ≤ toTs → toTs ≤ i64Max → 0 < d → d ≤ i64Max →
          Aggregates countSamples .start none samples d alignTs fromTs toTs := by
  intro h
  obtain ⟨rounds, bs, hrun, -⟩ := h [] 10 0 0 i64Max .nil nofun (by decide) (by decide) le_rfl
    (by decide) (by decide)
  rw [buckets_max (by decide)] at hrun
  cases hrun

end Senko.Ts
