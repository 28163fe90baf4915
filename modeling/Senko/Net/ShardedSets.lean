import Mathlib.Data.List.Dedup
import Senko.Lib.Run
import Senko.Net.OneFrame

/-!
# Senko — set algebra over several shards

`SDIFF`, `SINTER` and `SUNION` on keys of several shards: the connection fetches the members of
every key from the shard of the key and combines them itself. Whatever the number of shards, the
client gets the difference, the intersection or the union of the sets.
-/

namespace Senko.Net.Coordinator

open List Plan

variable {c : Coordinator} {σ : Type} {step : (request : Request) → σ → request.Answer × σ}
  {members : Bytes → List Bytes} {s : σ}

variable (c step members s) in
/-- Every shard answers with the members of its keys. -/
structure HoldsSets : Prop where
  answers : ∀ key, step (.execute (c.shardForKey key) (ascii "SMEMBERS") [key]) s =
    ((.response (rawArrayResponse (members key)) : Reply), s)
  fits : ∀ key, c.Fits (rawArrayResponse (members key))

/-- The members that a command has on the sets of the keys. -/
def Combined (members : Bytes → List Bytes) (command first : Bytes) (others : List Bytes)
    (member : Bytes) : Prop :=
  if isOpt command "SDIFF" then member ∈ members first ∧ ∀ key ∈ others, member ∉ members key
  else if isOpt command "SINTER" then member ∈ members first ∧ ∀ key ∈ others, member ∈ members key
  else ∃ key ∈ first :: others, member ∈ members key

theorem collectFrameArgs_bulkString (keys : List Bytes) :
    collectFrameArgs (keys.map .bulkString) = done keys := by
  induction keys with
  | nil => rfl
  | cons key keys ih =>
    rw [map_cons, collectFrameArgs, ih]
    rfl

theorem HoldsSets.runs_fetchSetSources (h : HoldsSets c step members s) (keys : List Bytes) :
    (c.fetchSetSources keys).Runs step s (keys.map fun key => (members key).dedup) s := by
  -- a loop over the keys, which leaves the state of the shards as it is
  have hloop : ∃ s', (c.fetchSetSources keys).Runs step s
      (keys.map fun key => (members key).dedup) s' ∧ s' = s := by
    refine Runs.foldlM (g := map fun key => (members key).dedup) (P := (· = s))
      (fun before key s' heq => ⟨s, ?_, rfl⟩) _ rfl
    have hexecute : (c.execute (c.shardForKey key) (ascii "SMEMBERS") [key]).Runs step s
        (serializeResponse c.std c.resp3 (rawArrayResponse (members key))) s := by
      unfold Runs execute
      rw [run, h.answers]
      rfl
    unfold Runs
    rw [heq, hexecute.bind, parseBulkArrayResponse_raw (h.fits key), map_append]
    rfl
  obtain ⟨_, hrun, rfl⟩ := hloop
  exact hrun

/-- A loop that selects from the first set. -/
theorem mem_foldl_filter (keeps : List Bytes → Bytes → Bool) (sets : List (List Bytes))
    {first : List Bytes} (hnodup : first.Nodup) :
    (sets.foldl (fun current other => current.filter (keeps other)) first).Nodup ∧
      ∀ member, member ∈ sets.foldl (fun current other => current.filter (keeps other)) first ↔
        member ∈ first ∧ ∀ other ∈ sets, keeps other member = true :=
  foldl_selects (P := Nodup) (H := fun current member => member ∈ current)
    (p := fun other member => keeps other member = true)
    (fun _ _ h => ⟨h.filter _, fun _ => mem_filter⟩) sets hnodup

/-- **Set algebra over shards is exact**: the reply is an array of the combined members, each
once. -/
theorem sharded_set_algebra_exact (c : Coordinator) (horder : ∀ l, (c.setOrder l).Perm l)
    {σ : Type} (step : (request : Request) → σ → request.Answer × σ) (s : σ)
    (members : Bytes → List Bytes) (h : HoldsSets c step members s) (command : Bytes)
    (hcommand : (isOpt command "SDIFF" || isOpt command "SINTER" || isOpt command "SUNION") = true)
    (first : Bytes) (others : List Bytes) : ∃ result : List Bytes,
      (c.dispatchCrossShardSetAlgebra command ((first :: others).map .bulkString)).run step s =
        (some (.ok (serializeResponse c.std c.resp3 (rawArrayResponse result))), s) ∧
      result.Nodup ∧ ∀ member, member ∈ result ↔ Combined members command first others member := by
  have hrun : ∀ k : List (List Bytes) → Routed Bytes,
      (collectFrameArgs ((first :: others).map .bulkString) >>= fun keys =>
        c.fetchSetSources keys >>= k).run step s =
      (k ((first :: others).map fun key => (members key).dedup)).run step s := by
    intro k
    rw [collectFrameArgs_bulkString, done_bind, (h.runs_fetchSetSources _).bind]
  -- the order in which a hash set is gone over does not matter
  have hordered :
      ∀ {l : List Bytes} {p : Bytes → Prop}, (l.Nodup ∧ ∀ member, member ∈ l ↔ p member) →
      (c.setOrder l).Nodup ∧ ∀ member, member ∈ c.setOrder l ↔ p member := fun {l p} hl =>
    ⟨(horder l).nodup_iff.2 hl.1, fun member => (horder l).mem_iff.trans (hl.2 member)⟩
  rw [dispatchCrossShardSetAlgebra, if_pos hcommand, hrun]
  refine ⟨_, rfl, ?_⟩
  unfold Combined
  split_ifs with hdiff hinter
  · apply hordered
    simpa using mem_foldl_filter (fun other member => decide (member ∉ other))
      (others.map fun key => (members key).dedup) (nodup_dedup (members first))
  · apply hordered
    simpa using mem_foldl_filter (fun other member => decide (member ∈ other))
      (others.map fun key => (members key).dedup) (nodup_dedup (members first))
  · exact hordered ⟨nodup_dedup _, by simp⟩

/-- All keys have the member `x`. -/
def sampleShards : (request : Request) → Unit → request.Answer × Unit
  | .execute _ _ _, _ => (.response (rawArrayResponse [ascii "x"]), ())
  | .discard _ _ _, _ => (.timeout, ())
  | .tempNew, _ => ((), ())
  | .tempDispatch _ _, _ => (.error [], ())
  | .tempEntry _, _ => (none, ())
  | .randomIndex _, _ => ((0 : Nat), ())

theorem sharded_set_algebra_exact_two : ∃ result : List Bytes,
    (pair.dispatchCrossShardSetAlgebra (ascii "SINTER")
      ([ascii "a", ascii "b"].map .bulkString)).run
      sampleShards () =
        (some (.ok (serializeResponse pair.std false (rawArrayResponse result))), ()) ∧
    result.Nodup ∧ ∀ member, member ∈ result ↔
      Combined (fun _ => [ascii "x"]) (ascii "SINTER") (ascii "a") [ascii "b"] member := by
  refine sharded_set_algebra_exact pair (fun l => .refl l) sampleShards () _
    ⟨fun _ => rfl, fun key => ?_⟩ _ (by decide) _ _
  exact ⟨by simp [rawArrayResponse, ResponseSound, AllResponsesSound], by decide⟩

end Senko.Net.Coordinator
