import Senko.Core.StreamTree
import Senko.Store.StreamRules

/-!
# Senko — the ids of a stream grow

`XADD` accepts an id above the last id of the stream and makes it the last id, so the ids it returns
grow as long as the last id does. Deleting keeps the last id and `XSETID` only raises it. A trim
recomputes it from what is left: it goes back if the newest entry was deleted before, if `XSETID`
had moved the last id beyond the newest entry, or if the trim takes the newest entry as well. In a
run that trims only otherwise the ids grow; in general they do not.
-/

namespace Senko

open Command List OnStream

/-! ## What the commands do to the last id -/

/-- The trim leaves an entry that is the newest one and has this id. -/
def TrimSpec.Spares (id : StreamId) : TrimSpec → Prop
  | .maxLen threshold _ _ => 1 ≤ threshold
  | .minId threshold _ _ => threshold ≤ id

instance (id : StreamId) (trim : TrimSpec) : Decidable (trim.Spares id) := by
  cases trim <;> unfold TrimSpec.Spares <;> infer_instance

/-- A trim of a stream without ids, or of one whose newest live entry has the last id and stays. -/
def TrimSpec.KeepsLastId (trim : TrimSpec) (t : StreamRadixTree) : Prop :=
  t.lastId = .zero ∨ t.lastEntry.map MacroEntry.id = some t.lastId ∧ trim.Spares t.lastId
deriving Decidable

variable {t t' : StreamRadixTree} {stream : StreamObject} {α : Type}
  {f : StreamObject → Except SenkoError α × StreamObject} {trim : TrimSpec} {x : Command α}
  {id : StreamId} {v : StreamState}

theorem StreamRadixTree.Ordered.applyTrim (h : t.Ordered) (hkeeps : trim.KeepsLastId t) :
    t.Keeps (applyTrim t trim) := by
  cases trim with
  | maxLen threshold approx limit => exact h.trimByMaxlen approx limit hkeeps
  | minId threshold approx limit => exact h.trimByMinid approx limit hkeeps

/-- **One command**: the log stays in order, the last id does not go back, and an id that was added
lies above the last id before and not above the one after. -/
structure Grows (t t' : StreamRadixTree) (added : Option StreamId) : Prop where
  ordered : t'.Ordered
  lastId_le : t.lastId ≤ t'.lastId
  above : ∀ id, added = some id → t.lastId < id ∧ id ≤ t'.lastId

theorem StreamRadixTree.Keeps.grows (h : t.Keeps t') : Grows t t' none := ⟨h.1, h.2.ge, by simp⟩

theorem StreamRadixTree.Ordered.grows (h : t.Ordered) : Grows t t none :=
  StreamRadixTree.Keeps.grows ⟨h, rfl⟩

/-- The id in the result of a command. -/
def idAdded : Except SenkoError (Option StreamId) → Option StreamId
  | .ok id => id
  | .error _ => none

theorem grows_insertAndTrim {fields : StreamFields} {opts : XaddOptions} (h : stream.tree.Ordered)
    (hid : stream.tree.lastId < id) (htrim : ∀ trim, opts.trim = some trim → trim.Spares id) :
    Grows stream.tree (insertAndTrim id fields opts stream).2.tree
      (idAdded ((insertAndTrim id fields opts stream).1.map some)) := by
  unfold insertAndTrim
  rcases hinsert : stream.tree.insertWithMode id fields opts.refMode with _ | tree
  · exact h.grows
  obtain ⟨ho, hlast, hnewest⟩ := h.insertWithMode hid hinsert
  have hgrows : ∀ tree', tree.Keeps tree' → Grows stream.tree tree' (some id) := by
    rintro tree' ⟨ho', hlast'⟩
    refine ⟨ho', ?_, ?_⟩
    · rw [hlast', hlast]
      exact hid.le
    · rintro _ ⟨⟩
      rw [hlast', hlast]
      exact ⟨hid, le_rfl⟩
  rcases htrims : opts.trim with _ | trim
  · exact hgrows tree ⟨ho, rfl⟩
  refine hgrows _ (ho.applyTrim (.inr ⟨?_, ?_⟩))
  · rw [hlast]
    exact hnewest
  · rw [hlast]
    exact htrim trim htrims

theorem keeps_deleteIds {refMode : StreamRefMode} (frames : List Frame) (seen : List StreamId)
    (deleted : Int) (h : stream.tree.Ordered) :
    stream.tree.Keeps (deleteIds refMode frames seen deleted stream).2.tree := by
  induction frames generalizing seen deleted stream with
  | nil => exact ⟨h, rfl⟩
  | cons frame frames ih =>
    rw [deleteIds]
    split
    · exact ⟨h, rfl⟩
    rename_i id _
    split
    · exact ih seen deleted h
    · obtain ⟨ho, hlast⟩ := h.deleteWithMode id refMode
      generalize stream.tree.deleteWithMode id refMode = r at ho hlast
      obtain ⟨ho', hlast'⟩ := @ih { stream with tree := r.1 } (id :: seen)
        (if r.2 then deleted + 1 else deleted) ho
      exact ⟨ho', hlast'.trans hlast⟩

/-- Neither option of `XSETID` is part of the log. -/
theorem setidOption_spec {token : Bytes} {value : Frame} (h : t.Ordered)
    (hoption : setidOption token value t = .ok t') : t.Keeps t' := by
  unfold setidOption at hoption
  split at hoption
  all_goals
    obtain ⟨raw, -, hoption⟩ := except_bind_eq_ok hoption
    obtain ⟨parsed, -, hoption⟩ := except_bind_eq_ok hoption
    split at hoption
    · cases hoption
    · cases hoption
      exact ⟨⟨h.increasing, h.positive, h.bounded, h.opened, h.closed, h.counted⟩, rfl⟩

theorem setidOptions_spec (options : List Frame) (h : t.Ordered) :
    t.Keeps (setidOptions options t).2 := by
  fun_induction setidOptions options t with
  | case5 tree frame token _ _ value rest tree' hoption ih =>
    obtain ⟨ho, hlast⟩ := setidOption_spec h hoption
    exact ⟨(ih ho).1, (ih ho).2.trans hlast⟩
  | _ => exact ⟨h, rfl⟩

theorem grows_setLastId {lastId : StreamId} (options : List Frame) (h : stream.tree.Ordered) :
    Grows stream.tree (setLastId lastId options stream).2.tree none := by
  unfold setLastId
  split
  · exact h.grows
  rename_i hle
  have hkeeps := setidOptions_spec options h
  generalize setidOptions options stream.tree = r at hkeeps
  obtain ⟨result, tree⟩ := r
  rcases result with e | u
  · exact hkeeps.grows
  have ho : tree.Ordered := hkeeps.1
  have hle' : tree.lastId ≤ lastId := hkeeps.2.trans_le (not_lt.1 hle)
  refine ⟨⟨ho.increasing, ho.positive, fun i hi => (ho.bounded i hi).trans hle',
    fun n hn => (ho.opened n hn).trans hle', ho.closed, ho.counted⟩, not_lt.1 hle, by simp⟩

/-! ## Commands on one key -/

inductive StreamWrite where
  | xadd (args : List Frame)
  | xdel (args : List Frame)
  | xdelex (args : List Frame)
  | xtrim (args : List Frame)
  | xsetid (args : List Frame)

namespace StreamWrite

section Commands

variable (env : Env) (clock : Nat → Nat) (key : Bytes)

/-- A command with the arguments after its key, and the id that it returns. -/
def run : StreamWrite → Command (Option StreamId)
  | xadd args => xaddId env clock (.bulkString key :: args)
  | xdel args => do
    let _ ← Senko.xdel env clock (.bulkString key :: args)
    pure none
  | xdelex args => do
    let _ ← Senko.xdelex env clock (.bulkString key :: args)
    pure none
  | xtrim args => do
    let _ ← Senko.xtrim env clock (.bulkString key :: args)
    pure none
  | xsetid args => do
    let _ ← Senko.xsetid env clock (.bulkString key :: args)
    pure none

/-- **The trims that keep the last id.** The trim of an `XADD` leaves the entry that was added: a
`MAXLEN` of at least one, or a `MINID` not above the id. An `XTRIM` leaves the newest live entry,
and that entry has the last id; or the stream has no id yet. -/
def Safe (t : StreamRadixTree) : StreamWrite → Prop
  | xadd args =>
    match parseXaddOptions args.length args {} with
    | .ok (opts, id :: _) =>
      match opts.trim, (argBytes id).bind fun raw => resolveXaddId (some t) raw (clock 3) with
      | some trim, .ok resolved => trim.Spares resolved
      | _, _ => True
    | _ => True
  | xtrim args =>
    match parseXtrim args with
    | .ok trim => trim.KeepsLastId t
    | .error _ => True
  | _ => True

instance (t : StreamRadixTree) (w : StreamWrite) : Decidable (w.Safe clock t) := by
  unfold Safe
  repeat' split
  all_goals infer_instance

end Commands

variable {env : Env} {clock : Nat → Nat} {key : Bytes}

/-- The state after a command: the ids have grown and there is still no deadline. -/
def After (v : StreamState) (added : Option StreamId) (v' : StreamState) : Prop :=
  Grows v.tree v'.tree added ∧ v'.bind Prod.snd = none

theorem live_of_no_deadline (h : v.bind Prod.snd = none) : v.Live clock := fun i => by
  rw [h]
  rfl

theorem resolveXaddId_tree :
    resolveXaddId ((v.map Prod.fst).map StreamObject.tree) = resolveXaddId (some v.tree) := by
  cases v <;> rfl

/-- Only an id above the last one is accepted. -/
theorem lt_of_resolveXaddId {raw : Bytes} {now : Nat}
    (h : resolveXaddId (some t) raw now = .ok id) : t.lastId < id := by
  obtain ⟨parsed, -, h⟩ := except_bind_eq_ok h
  obtain ⟨resolved, -, h⟩ := except_bind_eq_ok h
  split at h
  · cases h
  · rename_i hle
    cases h
    exact not_le.1 hle

/-- Working on a stream grows its ids if the function that is applied does. -/
theorem after_withStream {i : Nat} {missing : Except SenkoError α} (h : v.tree.Ordered)
    (hdeadline : v.bind Prod.snd = none)
    (hf : ∀ stream, stream.tree = v.tree → Grows stream.tree (f stream).2.tree none) :
    OnStream key v (withStream env clock i key missing f) fun _ v' => After v none v' := by
  refine .withStream (live_of_no_deadline hdeadline) ?_ ?_
  · rintro rfl
    exact ⟨h.grows, rfl⟩
  · rintro stream deadline rfl
    exact ⟨hf stream rfl, hdeadline⟩

theorem after_withNewStream {i : Nat} {key : CompactString}
    (added : Except SenkoError α → Option StreamId) (hdeadline : v.bind Prod.snd = none)
    (hf : ∀ stream, stream.tree = v.tree →
      Grows stream.tree (f stream).2.tree (added (f stream).1)) :
    OnStream key.bytes v (withNewStream env clock i key f) fun r v' => After v (added r) v' := by
  refine .withNewStream (live_of_no_deadline hdeadline) fun stream deadline hstream => ?_
  cases v with
  | none =>
    obtain ⟨rfl, rfl⟩ := Prod.mk.inj hstream
    exact ⟨hf {} rfl, rfl⟩
  | some x =>
    obtain ⟨rfl, rfl⟩ := Prod.mk.inj hstream
    exact ⟨hf x.1 rfl, hdeadline⟩

/-- The reply does not matter. -/
theorem after_reply {β : Type} {g : α → β} (h : OnStream key v x fun _ v' => After v none v') :
    OnStream key v (do let a ← x; pure (g a)) fun _ v' => After v none v' :=
  h.bind (fun _ _ hafter => pure hafter) fun _ _ hafter => hafter

/-- A command whose reply carries no id. -/
theorem after_discard (h : OnStream key v x fun _ v' => After v none v') :
    OnStream key v (do let _ ← x; pure none) fun r v' => After v (idAdded r) v' :=
  h.bind (fun _ _ hafter => pure hafter) fun _ _ hafter => hafter

/-- **`XADD`**. -/
theorem after_xaddId (args : List Frame) (h : v.tree.Ordered) (hdeadline : v.bind Prod.snd = none)
    (hsafe : (xadd args).Safe clock v.tree) :
    OnStream key v (xaddId env clock (.bulkString key :: args)) fun r v' =>
      After v (idAdded r) v' := by
  have hlive : v.Live clock := live_of_no_deadline hdeadline
  have hkeep : After v none v := ⟨h.grows, hdeadline⟩
  rw [xaddId]
  split
  · exact fail hkeep
  refine ensure_bind hlive (ofExcept_bind ?_ fun _ => hkeep)
  rintro ⟨opts, rest⟩ hopts
  rcases rest with _ | ⟨id, fields⟩
  · exact fail hkeep
  dsimp only
  split
  · exact fail hkeep
  refine leaves_bind ?_ (fun missing => ?_) fun _ => hkeep
  · unfold refusesToCreate
    split
    · exact getStream_bind hlive (pure rfl)
    · exact pure rfl
  · split
    · exact pure hkeep
    refine ofExcept_bind (fun key hkey => ?_) fun _ => hkeep
    refine getStream_bind hlive (ofExcept_bind ?_ fun _ => hkeep)
    intro resolved hresolve
    refine ofExcept_bind (fun fields _ => ?_) fun _ => hkeep
    rw [resolveXaddId_tree] at hresolve
    obtain rfl := parseKey_eq_ok hkey
    refine (after_withNewStream (fun r => idAdded (r.map some)) hdeadline ?_).bind ?_ ?_
    · intro stream hstream
      obtain ⟨raw, -, hresolved⟩ := except_bind_eq_ok hresolve
      refine grows_insertAndTrim (hstream ▸ h) (hstream ▸ lt_of_resolveXaddId hresolved) ?_
      intro trim htrim
      simpa only [Safe, hopts, htrim, hresolve] using hsafe
    · exact fun id v' hafter => pure hafter
    · exact fun _ _ hafter => hafter

/-- **The step.** -/
theorem run_after (env : Env) (w : StreamWrite) (h : v.tree.Ordered)
    (hdeadline : v.bind Prod.snd = none)
    (hsafe : w.Safe clock v.tree) :
    OnStream key v (w.run env clock key) fun r v' => After v (idAdded r) v' := by
  have hlive : v.Live clock := live_of_no_deadline hdeadline
  have hkeep : After v none v := ⟨h.grows, hdeadline⟩
  cases w with
  | xadd args => exact after_xaddId args h hdeadline hsafe
  | xdel args =>
    refine after_discard ?_
    cases args with
    | nil => exact fail hkeep
    | cons frame frames =>
      refine ensure_bind hlive (after_reply (after_withStream h hdeadline ?_))
      exact fun stream hstream => (keeps_deleteIds _ _ _ (hstream ▸ h)).grows
  | xdelex args =>
    refine after_discard ?_
    rw [Senko.xdelex]
    split
    · exact fail hkeep
    refine ensure_bind hlive (ofExcept_bind ?_ fun _ => hkeep)
    rintro ⟨refMode, ids⟩ -
    refine after_reply (after_withStream h hdeadline ?_)
    exact fun stream hstream => (keeps_deleteIds _ _ _ (hstream ▸ h)).grows
  | xtrim args =>
    refine after_discard ?_
    rw [Senko.xtrim]
    split
    · exact fail hkeep
    refine ensure_bind hlive (ofExcept_bind ?_ fun _ => hkeep)
    intro trim htrim
    have hkeeps : trim.KeepsLastId v.tree := by simpa only [Safe, htrim] using hsafe
    refine after_reply (after_withStream h hdeadline ?_)
    exact fun stream hstream => ((hstream ▸ h).applyTrim (hstream ▸ hkeeps)).grows
  | xsetid args =>
    refine after_discard ?_
    rcases args with _ | ⟨id, options⟩
    · exact fail hkeep
    refine ensure_bind hlive (ofExcept_bind ?_ fun _ => hkeep)
    intro key hkey
    obtain rfl := parseKey_eq_ok hkey
    refine ofExcept_bind (fun lastId _ => ?_) fun _ => hkeep
    refine after_reply (after_withNewStream (fun _ => none) hdeadline ?_)
    exact fun stream hstream => grows_setLastId options (hstream ▸ h)

/-! ## Runs -/

/-- A command and the readings of the clock it takes. -/
abbrev Timed := (Nat → Nat) × StreamWrite

/-- The tree of the stream at a key. -/
def treeAt (s : Store) (key : Bytes) : StreamRadixTree :=
  (((s.lookup key).bind fun e => Store.asStream e.value).map StreamObject.tree).getD {}

/-- **A run on one key**: for every command the id it returned and the last id it left, and the
store at the end. -/
def trace (env : Env) (key : Bytes) : List Timed → Store →
    Option (List (Option StreamId × StreamId) × Store)
  | [], s => some ([], s)
  | (clock, w) :: ops, s => do
    let (r, s) ← w.run env clock key s
    let (steps, s') ← trace env key ops s
    some ((idAdded r, (treeAt s key).lastId) :: steps, s')

/-- Every trim of the run keeps the last id. -/
def SafeRun (env : Env) (key : Bytes) : List Timed → Store → Prop
  | [], _ => True
  | (clock, w) :: ops, s =>
    w.Safe clock (treeAt s key) ∧
      match w.run env clock key s with
      | some (_, s') => SafeRun env key ops s'
      | none => True

instance (env : Env) (key : Bytes) :
    (ops : List Timed) → (s : Store) → Decidable (SafeRun env key ops s)
  | [], _ => isTrue trivial
  | (clock, w) :: ops, s =>
    haveI : Decidable (match w.run env clock key s with
        | some (_, s') => SafeRun env key ops s'
        | none => True) := by
      split
      · exact instDecidableSafeRun env key ops _
      · infer_instance
    inferInstanceAs (Decidable (_ ∧ _))

/-- The ids of a run grow, and its last ids do not go back, from a given last id on. -/
structure GrowsFrom (lastId : StreamId) (steps : List (Option StreamId × StreamId)) : Prop where
  ids : (steps.filterMap Prod.fst).Pairwise (· < ·)
  ids_above : ∀ id ∈ steps.filterMap Prod.fst, lastId < id
  lastIds : (lastId :: steps.map Prod.snd).Pairwise (· ≤ ·)

theorem treeAt_of_holds {s : Store} (h : s.Holds key v) : treeAt s key = v.tree := by
  rw [treeAt, h.stream]
  cases v <;> rfl

/-- A step in front of a run. -/
theorem GrowsFrom.cons {added : Option StreamId} {steps : List (Option StreamId × StreamId)}
    (hgrows : Grows t t' added) (h : GrowsFrom t'.lastId steps) :
    GrowsFrom t.lastId ((added, t'.lastId) :: steps) := by
  have hlasts : ∀ id ∈ t'.lastId :: steps.map Prod.snd, t.lastId ≤ id :=
    forall_mem_cons.2 ⟨hgrows.lastId_le, fun id hid =>
      hgrows.lastId_le.trans ((pairwise_cons.1 h.lastIds).1 id hid)⟩
  have habove : ∀ id ∈ steps.filterMap Prod.fst, t.lastId < id := fun id hid =>
    hgrows.lastId_le.trans_lt (h.ids_above id hid)
  refine ⟨?_, ?_, pairwise_cons.2 ⟨hlasts, h.lastIds⟩⟩
  · cases added with
    | none => exact h.ids
    | some id =>
      refine pairwise_cons.2 ?_
      exact ⟨fun id' hid' => (hgrows.above id rfl).2.trans_lt (h.ids_above id' hid'), h.ids⟩
  · rcases added with _ | id
    · exact habove
    exact forall_mem_cons.2 ⟨(hgrows.above _ rfl).1, habove⟩

/-- **The run**: from a store that holds an ordered log without a deadline. -/
theorem trace_growsFrom {s : Store} (ops : List Timed) (hs : s.Holds key v)
    (h : v.tree.Ordered) (hdeadline : v.bind Prod.snd = none) (hsafe : SafeRun env key ops s) :
    ∃ steps s', trace env key ops s = some (steps, s') ∧ GrowsFrom v.tree.lastId steps := by
  induction ops generalizing s v with
  | nil => exact ⟨[], s, rfl, by constructor <;> simp⟩
  | cons op ops ih =>
    obtain ⟨clock, w⟩ := op
    obtain ⟨hw, hrest⟩ := hsafe
    rw [treeAt_of_holds hs] at hw
    obtain ⟨r, s₁, v₁, hrun, hs₁, hgrows, hdeadline₁⟩ := run_after env w h hdeadline hw s hs
    obtain ⟨steps, s', htrace, hsteps⟩ := ih hs₁ hgrows.ordered hdeadline₁ (by rwa [hrun] at hrest)
    refine ⟨_, s', ?_, hsteps.cons hgrows⟩
    simp only [trace, hrun, htrace, treeAt_of_holds hs₁, Option.bind_eq_bind, Option.bind_some]

/-- **Stream ids grow.** In every run on a key that starts missing and whose trims all keep the last
id, the ids that `XADD` returns increase strictly and the last id of the stream never goes back. -/
theorem stream_ids_grow (env : Env) (key : Bytes) (ops : List Timed) (s : Store)
    (hmissing : s.lookup key = none) (hsafe : SafeRun env key ops s) :
    ∃ steps s', trace env key ops s = some (steps, s') ∧
      (steps.filterMap Prod.fst).Pairwise (· < ·) ∧
      (StreamId.zero :: steps.map Prod.snd).Pairwise (· ≤ ·) := by
  obtain ⟨steps, s', htrace, hgrows⟩ :=
    trace_growsFrom ops (show s.Holds key none by rw [Store.Holds, hmissing]; rfl)
      StreamRadixTree.ordered_empty rfl hsafe
  exact ⟨steps, s', htrace, hgrows.ids, hgrows.lastIds⟩

theorem stream_ids_grow_trimmed : (Store.new .plain none 0).lookup (ascii "s") = none ∧
      ∃ steps s', trace .plain (ascii "s")
          [(fun _ => 7, .xadd (words ["5-0", "f", "v"])),
            (fun _ => 8, .xtrim (words ["MAXLEN", "1"])),
            (fun _ => 9, .xadd (words ["MAXLEN", "1", "*", "f", "v"]))]
          (Store.new .plain none 0) = some (steps, s') ∧
        (steps.filterMap Prod.fst).Pairwise (· < ·) ∧
        (StreamId.zero :: steps.map Prod.snd).Pairwise (· ≤ ·) :=
  ⟨rfl, stream_ids_grow .plain (ascii "s") _ _ rfl (by decide +kernel)⟩

/-- A trim of the whole stream sets its last id back, and an id below an earlier one is accepted. -/
theorem stream_ids_grow_fails :
    ¬ ∀ (env : Env) (key : Bytes) (ops : List Timed) (s : Store), s.lookup key = none →
      ∃ steps s', trace env key ops s = some (steps, s') ∧
        (steps.filterMap Prod.fst).Pairwise (· < ·) ∧
        (StreamId.zero :: steps.map Prod.snd).Pairwise (· ≤ ·) := by
  intro h
  obtain ⟨steps, s', htrace, hids, -⟩ := h .plain (ascii "s")
    [(fun _ => 7, .xadd (words ["5-0", "f", "v"])), (fun _ => 8, .xtrim (words ["MAXLEN", "0"])),
      (fun _ => 9, .xadd (words ["1-0", "f", "v"]))] (Store.new .plain none 0) rfl
  have hsteps : (trace .plain (ascii "s")
      [(fun _ => 7, .xadd (words ["5-0", "f", "v"])), (fun _ => 8, .xtrim (words ["MAXLEN", "0"])),
        (fun _ => 9, .xadd (words ["1-0", "f", "v"]))] (Store.new .plain none 0)).map Prod.fst =
      some [(some ⟨5, 0⟩, ⟨5, 0⟩), (none, ⟨0, 0⟩), (some ⟨1, 0⟩, ⟨1, 0⟩)] := by
    decide +kernel
  rw [htrace, Option.map_some, Option.some.injEq] at hsteps
  rw [show steps = _ from hsteps] at hids
  revert hids
  decide

end StreamWrite

end Senko
