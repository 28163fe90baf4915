import Senko.Core.ZSet.ObjectRefinement

/-!
# Senko — whole runs of a sorted-set object

`ZADD` is refined here, and with it every operation of the object. An object that starts empty and
is upgraded at any moments of a run answers every call as the abstract sorted set does, so when the
upgrades happen cannot be observed. The one exception is a score range with a NaN lower bound,
which a listpack takes to be empty and a tree takes to be open.
-/

namespace Senko

open List SortedSet CompactString ZSetObject

namespace ZSetObject

section Refines

variable {z : ZSetObject} {S : SortedSet} (std : FloatStd) {x : ZSetEntry}

/-! ## Writing a score -/

theorem SmallEntries.upsert (h : SmallEntries S.entries) (hx : x.NotNan)
    (hlen : (S.upsert x).entries.length ≤ listpackMaxEntries)
    (hsize : x.member.bytes.length ≤ listpackMaxMemberSize) :
    SmallEntries (S.upsert x).entries := by
  refine ⟨hlen, ?_⟩
  intro e he
  rcases (mem_upsert hx).1 he with rfl | ⟨he, -⟩
  · exact hsize
  · exact h.2 e he

/-- The tree and the index take the new score together. -/
theorem stores_upsert_bpTree {tree : BPTree} {memberIndex : CompactString → Option F64}
    (htree : BPTree.Refines tree S) (hindex : ∀ m, memberIndex m = S.score? m) (hx : x.NotNan)
    (hdiff : (S.score? x.member).any (scoresEqual · x.score) = false) :
    ∃ tree' result, tree.insert x.score x.member = some (tree', result) ∧
      Stores (.bpTree tree' (Function.update memberIndex x.member (some x.score)))
        (S.upsert x) := by
  obtain ⟨tree', hrun, htree'⟩ := htree.insert hx
  rw [hdiff, if_neg (by simp)] at htree'
  refine ⟨tree', _, hrun, .bpTree htree' ?_⟩
  intro m
  rw [funext hindex, score?_upsert hx]

/-- **A new score for a stored member.** -/
theorem Refines.replaceScore (h : Refines z S) (hx : x.NotNan) {old : F64}
    (hold : S.score? x.member = some old) (hdiff : old.eq x.score = false) :
    ∃ z', z.replaceScore std x.score x.member = some z' ∧ Refines z' (S.upsert x) := by
  obtain ⟨inner, len, generation⟩ := z
  have hlen : (S.upsert x).entries.length = S.entries.length := by
    obtain ⟨l, r, hlr, herase⟩ := exists_split_of_score? hold
    rw [length_upsert hx, herase, hlr]
    simp
    omega
  cases h.stores with
  | listpack hsmall =>
    have hsize : x.member.bytes.length ≤ listpackMaxMemberSize :=
      hsmall.2 ⟨old, x.member⟩ (score?_eq_some.1 hold)
    have hsmall₁ : SmallEntries (S.erase x.member).entries := hsmall.sublist filter_sublist
    have hsmall₂ := SmallEntries.upsert hsmall hx (hlen ▸ hsmall.1) hsize
    -- the member is taken out of the node and put in again
    have hremove := lpZsetRemove_lpOf std hsmall x.member.bytes
    rw [fromUtf8_bytes] at hremove
    have hinsert := lpZsetInsert_lpOf std hsmall₁ hx (fun e he => (mem_erase.1 he).2)
      (by rwa [upsert_erase hx])
    rw [upsert_erase hx] at hinsert
    refine ⟨⟨.listpack (lpOf (S.upsert x).entries), len, generation⟩, ?_, ?_⟩
    · simp [replaceScore, hremove, hinsert]
    · exact ⟨.listpack hsmall₂, h.len_eq.trans hlen.symm⟩
  | bpTree htree hindex =>
    obtain ⟨tree', result, hrun, hstores⟩ := stores_upsert_bpTree htree hindex hx
      (by rw [hold]; exact hdiff)
    refine ⟨⟨_, len, generation⟩, ?_, hstores, h.len_eq.trans hlen.symm⟩
    simp [replaceScore, hrun]

/-- Before a new member is written, the encoding is one that can hold it. -/
theorem Refines.ensureEncodingForInsert (h : Refines z S) (hx : x.NotNan)
    (hnew : S.score? x.member = none) :
    ∃ z', z.ensureEncodingForInsert std x.member.bytes = some z' ∧ Refines z' S ∧
      ∀ node, z'.inner = .listpack node → SmallEntries (S.upsert x).entries := by
  have hupgrade : ∃ z', z.upgradeListpackToBptree std = some z' ∧ Refines z' S ∧
      ∀ node, z'.inner = .listpack node → SmallEntries (S.upsert x).entries := by
    obtain ⟨z', hrun, h', tree, memberIndex, hinner⟩ := h.upgradeListpackToBptree std
    exact ⟨z', hrun, h', fun node hnode => by simp [hinner] at hnode⟩
  obtain ⟨inner, len, generation⟩ := z
  cases h.stores with
  | listpack hsmall =>
    have hscore : lpZsetScore std (lpOf S.entries) x.member.bytes = none := by
      rw [lpZsetScore_lpOf std hsmall, fromUtf8_bytes]
      exact hnew
    simp only [ensureEncodingForInsert, hscore, Option.isSome_none, Bool.false_eq_true,
      if_false]
    split
    · exact hupgrade
    · rename_i hfits
      rw [not_or, Nat.not_lt, Nat.not_lt] at hfits
      refine ⟨_, rfl, h, fun _ _ => SmallEntries.upsert hsmall hx ?_ hfits.2⟩
      rw [length_upsert hx, erase_of_notMem (score?_eq_none.1 hnew), ← h.len_eq]
      exact hfits.1
  | bpTree => exact ⟨_, rfl, h, fun node hnode => by cases hnode⟩

/-- **A score for a new member.** -/
theorem Refines.insertScore (h : Refines z S) (hx : x.NotNan) (hnew : S.score? x.member = none)
    (hfits : ∀ node, z.inner = .listpack node → SmallEntries (S.upsert x).entries) :
    ∃ z', z.insertScore std x.score x.member = some z' ∧ Stores z'.inner (S.upsert x) ∧
      z'.len = S.entries.length := by
  obtain ⟨inner, len, generation⟩ := z
  cases h.stores with
  | listpack hsmall =>
    have hsmall' := hfits _ rfl
    have hinsert := lpZsetInsert_lpOf std hsmall hx (score?_eq_none.1 hnew) hsmall'
    refine ⟨⟨.listpack (lpOf (S.upsert x).entries), len, generation⟩, ?_, ?_, h.len_eq⟩
    · simp [insertScore, hinsert]
    · exact .listpack hsmall'
  | bpTree htree hindex =>
    obtain ⟨tree', result, hrun, hstores⟩ := stores_upsert_bpTree htree hindex hx (by simp [hnew])
    refine ⟨⟨_, len, generation⟩, ?_, hstores, h.len_eq⟩
    simp [insertScore, hrun]

/-- **`ZADD`** is the abstract one: a score it writes is a number, and the length does not
saturate. -/
theorem Refines.add (h : Refines z S) (score : F64) (member : CompactString) (opts : ZAddOptions)
    (htarget : score.isNan = false → (S.zaddTarget std score member opts).isNan = false)
    (hlen : S.entries.length < 2 ^ 32 - 1) :
    ∃ z', z.add std score member opts = some (z', (S.zadd std score member opts).2) ∧
      Refines z' (S.zadd std score member opts).1 := by
  have hcurrent : z.score std member.bytes = S.score? member := by
    rw [h.score std, scoreOf, fromUtf8_bytes, Option.bind_some]
  have htarget_eq : (if opts.incr then std.add ((S.score? member).getD F64.zero) score else score) =
      S.zaddTarget std score member opts := rfl
  simp only [ZSetObject.add, zadd, hcurrent, htarget_eq]
  generalize S.zaddTarget std score member opts = target at htarget
  cases hnan : score.isNan with
  | true => exact ⟨z, rfl, h⟩
  | false =>
    have hx : (⟨target, member⟩ : ZSetEntry).NotNan := htarget hnan
    cases hold : S.score? member with
    | none =>
      by_cases hxx : opts.condition = .xx
      · exact ⟨z, by simp [hxx], by simpa [hxx] using h⟩
      -- a new member: the encoding may have to change first
      obtain ⟨z₁, hensure, h₁, hfits⟩ := h.ensureEncodingForInsert std hx hold
      obtain ⟨z₂, hinsert, hstores, hlen₂⟩ := h₁.insertScore std hx hold hfits
      refine ⟨z₂.incLen.bumpGeneration, ?_, ?_⟩
      · simp [hxx, hensure, hinsert]
      · have hnew : (S.upsert ⟨target, member⟩).entries.length = S.entries.length + 1 := by
          rw [length_upsert hx, erase_of_notMem (score?_eq_none.1 hold)]
        have href : Refines z₂.incLen.bumpGeneration (S.upsert ⟨target, member⟩) := by
          refine ⟨hstores, ?_⟩
          show min (z₂.len + 1) (2 ^ 32 - 1) = _
          rw [hlen₂, hnew]
          omega
        simpa [hxx] using href
    | some old =>
      by_cases hnx : opts.condition = .nx
      · exact ⟨z, by simp [hnx], by simpa [hnx] using h⟩
      dsimp only
      generalize hkeep :
        ((opts.gt && target.le old) || (opts.lt && old.le target) || old.eq target) = keep
      cases keep with
      | true => exact ⟨z, by simp [hnx], by simpa [hnx] using h⟩
      | false =>
        have hdiff : old.eq target = false := by
          rw [Bool.or_eq_false_iff] at hkeep
          exact hkeep.2
        obtain ⟨z', hrun, h'⟩ := h.replaceScore std hx hold hdiff
        refine ⟨z'.bumpGeneration, ?_, by simpa [hnx] using h'.bumpGeneration⟩
        simp [hnx, hrun]

/-- **A sorted set that is filled** with entries of distinct members holds those whose score is a
number. -/
theorem exists_filled {es : List ZSetEntry} (hnodup : (es.map ZSetEntry.member).Nodup)
    (hlen : es.length < 2 ^ 32) :
    ∃ z S, es.foldlM (fun z e => (z.add std e.score e.member {}).map Prod.fst) new = some z ∧
      Refines z S ∧ S.entries.length ≤ es.length ∧ ∀ e, e ∈ S.entries ↔ e ∈ es ∧ e.NotNan := by
  induction es using List.reverseRecOn with
  | nil => exact ⟨new, _, rfl, refines_new, Nat.le_refl 0, fun e => by simp [empty]⟩
  | append_singleton es x ih =>
    rw [map_append, nodup_append] at hnodup
    rw [length_append, length_singleton] at hlen ⊢
    obtain ⟨z, S, hrun, hz, hle, hmem⟩ := ih hnodup.1 (by omega)
    have hnew : ∀ e ∈ S.entries, e.member ≠ x.member := fun e he =>
      hnodup.2.2 _ (mem_map_of_mem ((hmem e).1 he).1) _ mem_cons_self
    have hscore : S.score? x.member = none := score?_eq_none.2 hnew
    obtain ⟨z', hadd, hz'⟩ := hz.add std x.score x.member {} (fun h => h) (by omega)
    refine ⟨z', _, ?_, hz', ?_⟩
    · rw [foldlM_append, hrun]
      simp [hadd]
    by_cases hnan : x.NotNan
    · have hzadd : (S.zadd std x.score x.member {}).1 = S.upsert x := by
        have hnan' : x.score.isNan = false := hnan
        simp [zadd, zaddTarget, hscore, hnan']
      rw [hzadd, length_upsert hnan, erase_of_notMem hnew]
      refine ⟨Nat.succ_le_succ hle, fun e => ?_⟩
      rw [mem_upsert hnan, hmem, mem_append, mem_singleton]
      constructor
      · rintro (rfl | ⟨⟨he, hn⟩, -⟩)
        · exact ⟨.inr rfl, hnan⟩
        · exact ⟨.inl he, hn⟩
      · rintro ⟨he | rfl, hn⟩
        · exact .inr ⟨⟨he, hn⟩, hnew e ((hmem e).2 ⟨he, hn⟩)⟩
        · exact .inl rfl
    · have hnan' : x.score.isNan = true := by
        rw [ZSetEntry.NotNan, Bool.not_eq_false] at hnan
        exact hnan
      have hzadd : (S.zadd std x.score x.member {}).1 = S := by simp [zadd, hnan']
      rw [hzadd]
      refine ⟨by omega, fun e => ?_⟩
      rw [hmem, mem_append, mem_singleton]
      refine and_congr_left fun hn => ⟨.inl, fun he => he.resolve_right ?_⟩
      rintro rfl
      exact hnan hn

/-- All entries. -/
theorem Refines.rangeAll (h : Refines z S) :
    z.rangeByRank std 0 (-1) false none = some S.entries := by
  rw [h.rangeByRank]
  simp [SortedSet.rangeByRank, SortedSet.slice, SortedSet.inOrder, applyLimit]

end Refines

/-! ## Calls and events -/

inductive Call where
  | add (score : F64) (member : CompactString) (opts : ZAddOptions)
  | remove (member : Bytes)
  | popMin (count : Nat)
  | popMax (count : Nat)
  | score (member : Bytes)
  | rank (member : Bytes) (reverse : Bool)
  | rangeByRank (start stop : Int) (reverse : Bool) (limit : Option (Int × Int))
  | rangeByScore (min max : ScoreBound) (reverse : Bool) (limit : Option (Int × Int))
  | rangeByLex (lower upper : LexBound) (reverse : Bool) (limit : Option (Int × Int))
  | countByScore (min max : ScoreBound)
  | countByLex (lower upper : LexBound)
  | len

inductive Reply where
  | added (result : ZAddResult)
  | score (score : Option F64)
  | entries (entries : List ZSetEntry)
  | rank (rank : Option Nat)
  | count (count : Nat)
deriving DecidableEq

/-- What happens to an object: a call, or an upgrade of its encoding. -/
inductive Event where
  | call (call : Call)
  | upgrade

/-- The calls among the events. -/
def calls : List Event → List Call :=
  List.filterMap fun
    | .call call => some call
    | .upgrade => none

section Run

variable (std : FloatStd)

def call (z : ZSetObject) : Call → Option (ZSetObject × Reply)
  | .add score member opts => (z.add std score member opts).map fun (z, r) => (z, .added r)
  | .remove member => (z.remove std member).map fun (z, s) => (z, .score s)
  | .popMin count => (z.popMin std count).map fun (z, es) => (z, .entries es)
  | .popMax count => (z.popMax std count).map fun (z, es) => (z, .entries es)
  | .score member => some (z, .score (z.score std member))
  | .rank member reverse => (z.rank std member reverse).map fun r => (z, .rank r)
  | .rangeByRank start stop reverse limit =>
    (z.rangeByRank std start stop reverse limit).map fun es => (z, .entries es)
  | .rangeByScore min max reverse limit =>
    (z.rangeByScore std min max reverse limit).map fun es => (z, .entries es)
  | .rangeByLex lower upper reverse limit =>
    (z.rangeByLex std lower upper reverse limit).map fun es => (z, .entries es)
  | .countByScore min max => (z.countByScore std min max).map fun n => (z, .count n)
  | .countByLex lower upper => (z.countByLex std lower upper).map fun n => (z, .count n)
  | .len => some (z, .count z.len)

def run : ZSetObject → List Event → Option (ZSetObject × List Reply)
  | z, [] => some (z, [])
  | z, .upgrade :: events => do
    let z ← z.upgradeListpackToBptree std
    run z events
  | z, .call op :: events => do
    let (z, reply) ← z.call std op
    let (z, replies) ← run z events
    some (z, reply :: replies)

/-- The same calls on the abstract set, which has no encoding. -/
def setCall (S : SortedSet) : Call → SortedSet × Reply
  | .add score member opts =>
    ((S.zadd std score member opts).1, .added (S.zadd std score member opts).2)
  | .remove member => ((S.remove member).1, .score (S.remove member).2)
  | .popMin count => ((S.pop count false).1, .entries (S.pop count false).2)
  | .popMax count => ((S.pop count true).1, .entries (S.pop count true).2)
  | .score member => (S, .score (S.scoreOf member))
  | .rank member reverse => (S, .rank (S.rank member reverse))
  | .rangeByRank start stop reverse limit =>
    (S, .entries (S.rangeByRank start stop reverse limit))
  | .rangeByScore min max reverse limit => (S, .entries (S.rangeByScore min max reverse limit))
  | .rangeByLex lower upper reverse limit =>
    (S, .entries (S.rangeByLex lower upper reverse limit))
  | .countByScore min max => (S, .count (S.rangeByScore min max false none).length)
  | .countByLex lower upper => (S, .count (S.rangeByLex lower upper false none).length)
  | .len => (S, .count S.entries.length)

def setRun : SortedSet → List Call → SortedSet × List Reply
  | S, [] => (S, [])
  | S, op :: ops =>
    ((setRun (setCall std S op).1 ops).1,
      (setCall std S op).2 :: (setRun (setCall std S op).1 ops).2)

/-! ## What the refinement asks of a call -/

/-- `ZADD` writes a number into a set of fewer than `2^32 - 1` members, and the lower bound of a
score range is not NaN. -/
def SafeCall (S : SortedSet) : Call → Prop
  | .add score member opts =>
    (score.isNan = false → (S.zaddTarget std score member opts).isNan = false) ∧
      S.entries.length < 2 ^ 32 - 1
  | .rangeByScore min _ _ _ | .countByScore min _ => min.NotNan
  | _ => True

/-- Every call of the run is safe where it happens. -/
def SafeRun : SortedSet → List Call → Prop
  | _, [] => True
  | S, op :: ops => SafeCall std S op ∧ SafeRun (setCall std S op).1 ops

instance (S : SortedSet) (op : Call) : Decidable (SafeCall std S op) :=
  match op with
  | .add _ _ _ => inferInstanceAs (Decidable (_ ∧ _))
  | .rangeByScore min _ _ _ | .countByScore min _ => inferInstanceAs (Decidable min.NotNan)
  | .remove _ | .popMin _ | .popMax _ | .score _ | .rank _ _ | .rangeByRank _ _ _ _
  | .rangeByLex _ _ _ _ | .countByLex _ _ | .len => inferInstanceAs (Decidable True)

instance decidableSafeRun (S : SortedSet) : (ops : List Call) → Decidable (SafeRun std S ops)
  | [] => inferInstanceAs (Decidable True)
  | op :: ops =>
    have := decidableSafeRun (setCall std S op).1 ops
    inferInstanceAs (Decidable (_ ∧ _))

variable {z : ZSetObject} {S : SortedSet}

/-- **One call** is the abstract call, in either encoding. -/
theorem Refines.call (h : Refines z S) {op : Call} (hsafe : SafeCall std S op) :
    ∃ z', z.call std op = some (z', (setCall std S op).2) ∧ Refines z' (setCall std S op).1 := by
  -- an update gives its new object, a query leaves the object as it is
  have hupdate : ∀ {α : Type} {r : Option (ZSetObject × α)} {a : α} {S' : SortedSet}
      (reply : α → Reply), (∃ z', r = some (z', a) ∧ Refines z' S') →
      ∃ z', (r.map fun (z, a) => (z, reply a)) = some (z', reply a) ∧ Refines z' S' := by
    rintro α r a S' reply ⟨z', rfl, h'⟩
    exact ⟨z', rfl, h'⟩
  have hquery : ∀ {α : Type} {r : Option α} {a : α} (reply : α → Reply), r = some a →
      ∃ z', (r.map fun a => (z, reply a)) = some (z', reply a) ∧ Refines z' S := by
    rintro α r a reply rfl
    exact ⟨z, rfl, h⟩
  cases op with
  | add score member opts => exact hupdate .added (h.add std score member opts hsafe.1 hsafe.2)
  | remove member => exact hupdate .score (h.remove std member)
  | popMin count => exact hupdate .entries (h.popEdge std count false)
  | popMax count => exact hupdate .entries (h.popEdge std count true)
  | score member => exact ⟨z, by rw [ZSetObject.call, h.score std]; rfl, h⟩
  | rank member reverse => exact hquery .rank (h.rank std member reverse)
  | rangeByRank start stop reverse limit =>
    exact hquery .entries (h.rangeByRank std start stop reverse limit)
  | rangeByScore min max reverse limit =>
    exact hquery .entries (h.rangeByScore std hsafe max reverse limit)
  | rangeByLex lower upper reverse limit =>
    exact hquery .entries (h.rangeByLex std lower upper reverse limit)
  | countByScore min max => exact hquery .count (h.countByScore std hsafe max)
  | countByLex lower upper => exact hquery .count (h.countByLex std lower upper)
  | len => exact ⟨z, by rw [ZSetObject.call, h.len_eq]; rfl, h⟩

/-- **A run** gives the replies of the abstract run of its calls. -/
theorem Refines.run (h : Refines z S) {events : List Event} (hsafe : SafeRun std S (calls events)) :
    ∃ z', z.run std events = some (z', (setRun std S (calls events)).2) ∧
      Refines z' (setRun std S (calls events)).1 := by
  induction events generalizing z S with
  | nil => exact ⟨z, rfl, h⟩
  | cons event events ih =>
    cases event with
    | upgrade =>
      obtain ⟨z₁, hupgrade, h₁, -⟩ := h.upgradeListpackToBptree std
      obtain ⟨z₂, hrun, h₂⟩ := ih h₁ hsafe
      exact ⟨z₂, by simp only [run, hupgrade]; exact hrun, h₂⟩
    | call op =>
      obtain ⟨z₁, hcall, h₁⟩ := h.call std hsafe.1
      obtain ⟨z₂, hrun, h₂⟩ := ih h₁ hsafe.2
      exact ⟨z₂, by simp only [run, hcall, some_bind, hrun];
                    rfl, h₂⟩

/-! ## The encodings agree -/

/-- The stored pairs, as the encoding has them. In a tree they are there three times: in the leaves,
in `member_scores` and in `member_index`. -/
def HoldsPairs (S : SortedSet) : ZSetEncoding → Prop
  | .listpack node => lpZsetEntries std node = S.entries
  | .bpTree tree memberIndex =>
    tree.collectEntries = some S.entries ∧ tree.memberScores = memberIndex ∧
      memberIndex = S.score?

theorem Refines.holdsPairs (h : Refines z S) : HoldsPairs std S z.inner := by
  obtain ⟨inner, len, generation⟩ := z
  cases h.stores with
  | listpack hsmall => exact lpZsetEntries_lpOf std hsmall
  | bpTree htree hindex =>
    refine ⟨htree.collectEntries, ?_, funext hindex⟩
    funext m
    rw [htree.memberScores_eq, hindex]

/-- **The encodings are observationally equal.** Whenever the upgrades happen, the replies are those
of the abstract sorted set, which has no upgrades, and the object holds exactly its pairs. -/
theorem zset_encodings_agree (events : List Event)
    (hsafe : SafeRun std SortedSet.empty (calls events)) :
    ∃ z S replies, new.run std events = some (z, replies) ∧
      setRun std SortedSet.empty (calls events) = (S, replies) ∧
      z.len = S.entries.length ∧ HoldsPairs std S z.inner := by
  obtain ⟨z, hrun, href⟩ := refines_new.run std hsafe
  exact ⟨z, _, _, hrun, rfl, href.len_eq, href.holdsPairs std⟩

end Run

/-- The smallest scores: two positive subnormal numbers are added by their bits. -/
def tinyScores : FloatStd := ⟨fun x y => ⟨x.bits + y.bits⟩, fun _ => none, fun _ => []⟩

/-- A score is raised after the upgrade to a tree, and the highest one is popped. -/
theorem zset_encodings_agree_sample :
    let events : List Event :=
      [.call (.add ⟨3⟩ ⟨[0x61], rfl⟩ {}), .call (.add ⟨4⟩ ⟨[0x62], rfl⟩ {}),
      .upgrade, .call (.add ⟨2⟩ ⟨[0x61], rfl⟩ { incr := true }),
      .call (.add ⟨1⟩ ⟨[0x63], rfl⟩ { incr := true }), .call (.popMax 1),
      .call (.rangeByScore (.exclusive ⟨0⟩) .posInf true none)]
    ∃ z S replies, new.run tinyScores events = some (z, replies) ∧
      setRun tinyScores SortedSet.empty (calls events) = (S, replies) ∧
      replies.getLast? = some (.entries [⟨⟨4⟩, ⟨[0x62], rfl⟩⟩, ⟨⟨1⟩, ⟨[0x63], rfl⟩⟩]) ∧
      z.len = S.entries.length ∧ HoldsPairs tinyScores S z.inner := by
  intro events
  obtain ⟨z, S, replies, hrun, hset, hlen, hpairs⟩ :=
    zset_encodings_agree tinyScores events (by decide)
  refine ⟨z, S, replies, hrun, hset, ?_, hlen, hpairs⟩
  rw [← show (setRun tinyScores SortedSet.empty (calls events)).2 = replies from
    congrArg Prod.snd hset]
  decide

/-- With a NaN lower bound the listpack answers no entry and the tree answers all of them. -/
theorem zset_encodings_agree_fails :
    (new.run tinyScores [.call (.add ⟨3⟩ ⟨[0x61], rfl⟩ {}),
        .call (.rangeByScore (.inclusive F64.nan) .posInf false none)]).map Prod.snd =
      some [.added ⟨1, 1, none⟩, .entries []] ∧
    (new.run tinyScores [.call (.add ⟨3⟩ ⟨[0x61], rfl⟩ {}), .upgrade,
        .call (.rangeByScore (.inclusive F64.nan) .posInf false none)]).map Prod.snd =
      some [.added ⟨1, 1, none⟩, .entries [⟨⟨3⟩, ⟨[0x61], rfl⟩⟩]] := by
  decide

end ZSetObject

end Senko
