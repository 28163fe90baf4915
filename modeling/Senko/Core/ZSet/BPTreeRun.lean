import Senko.Core.ZSet.BPTreeQuery
import Senko.Core.ZSet.SortedSet

/-!
# Senko — runs of the B+tree

Removal takes an entry out of its leaf, which may leave the leaf empty and the counts above it
wrong, and then rebuilds the whole tree from the leaf list; so it only relies on the leaf list
(`Leaves.collectEntries`). With it every public operation refines the operation of the abstract
sorted set (`Refines`), and by induction so does every run from the empty tree.
-/

namespace Senko

open ZSetEntry List Option SortedSet Function CompactString

variable {es : List ZSetEntry} {t : BPTree} {S : SortedSet} {x : ZSetEntry}

namespace BPTree

/-! ## Removal and rebuilding -/

/-- The leaf list is read from end to end. -/
theorem Leaves.collectEntries {cells : List (NodeId × List ZSetEntry)}
    (hleaves : Leaves t.arena.get t.leftmost t.rightmost cells) :
    t.collectEntries = some (cells.flatMap Prod.snd) := by
  have hloop : ∀ (post pre : List (NodeId × List ZSetEntry)) (fuel : Nat), cells = pre ++ post →
      post.length ≤ fuel →
      t.collectEntriesLoop fuel (firstId post none) = some (post.flatMap Prod.snd) := by
    intro post
    induction post with
    | nil =>
      intro pre fuel _ _
      cases fuel <;> rfl
    | cons c post ih =>
      intro pre fuel hcells hfuel
      obtain ⟨fuel, rfl, hfuel'⟩ := exists_fuel hfuel
      have hleaves' := hleaves
      rw [hcells] at hleaves'
      obtain ⟨leaf, hget, hes, -, hnext⟩ := hleaves'.get_mid
      have hrest := ih (pre ++ [c]) fuel (by simpa using hcells) hfuel'
      rw [firstId_cons, collectEntriesLoop, leaf_eq hget]
      simp [hnext, hrest, hes]
  rw [BPTree.collectEntries, hleaves.leftmost_eq]
  exact hloop cells [] t.fuel rfl hleaves.length_lt_fuel.le

/-- Inserting larger and larger entries appends them. -/
theorem TreeInv.insertAll {rs : List ZSetEntry} (hinv : TreeInv t es)
    (hsorted : SortedEntries (es ++ rs)) :
    ∃ t', t.insertAll rs = some t' ∧ TreeInv t' (es ++ rs) ∧ t'.memberScores = t.memberScores := by
  induction rs generalizing t es with
  | nil => exact ⟨t, rfl, by simpa using hinv, rfl⟩
  | cons x rs ih =>
    have hlt : ∀ e ∈ es, e.ord < x.ord := fun e he =>
      (pairwise_append.1 hsorted.pairwise).2.2 e he x (by simp)
    obtain ⟨t', es', ht', hinv', hins, hscores⟩ :=
      hinv.insertNewEntry (hsorted.notNan x (by simp)) fun e he => (hlt e he).ne
    -- nothing lies above the new entry, so it goes to the end
    obtain rfl : es' = es ++ [x] := by
      obtain ⟨l, r, rfl, rfl, -, hr⟩ := hins
      cases r with
      | nil => simp
      | cons y r => exact absurd (hlt y (by simp)) (hr y (by simp)).not_gt
    obtain ⟨t'', ht'', hinv'', hscores'⟩ := ih hinv' (by simpa using hsorted)
    refine ⟨t'', ?_, by simpa using hinv'', hscores'.trans hscores⟩
    rw [BPTree.insertAll, ht']
    exact ht''

/-- A tree with no nodes. -/
theorem treeInv_cleared (t : BPTree) :
    TreeInv { t with root := none, leftmost := none, rightmost := none, len := 0,
                     arena := t.arena.clear } [] :=
  ⟨.empty rfl rfl rfl, .nil, rfl, rfl⟩

/-- **Removing an entry** takes it out of the sequence, and out of the member index if asked. -/
theorem TreeInv.removeExact (hinv : TreeInv t es) {x : ZSetEntry} (hx : x ∈ es) (flag : Bool) :
    ∃ t' l r, es = l ++ x :: r ∧ t.removeExact x flag = some (t', true) ∧ TreeInv t' (l ++ r) ∧
      t'.memberScores = if flag then update t.memberScores x.member none else t.memberScores := by
  obtain ⟨cells, leafId, pre, l₁, l₂, post, hleaves, hflat, rfl, hsearch⟩ :=
    hinv.searchKey_mem (hinv.sorted.notNan x hx) hx rfl
  have hes : es = (pre.flatMap Prod.snd ++ l₁) ++ x :: (l₂ ++ post.flatMap Prod.snd) := by
    rw [← hflat]
    simp
  generalize hl : pre.flatMap Prod.snd ++ l₁ = l at hes
  generalize hr : l₂ ++ post.flatMap Prod.snd = r at hes
  have hsorted : SortedEntries (l ++ r) := by
    apply hinv.sorted.sublist
    rw [hes]
    exact (List.Sublist.refl l).append (sublist_cons_self x r)
  obtain ⟨leaf, hget, hentries, -, -⟩ := hleaves.get_mid
  obtain ⟨a, ha, hfree, hsize, hget'⟩ := setNode_eq hget (.leaf { leaf with entries := l₁ ++ l₂ })
  have hleaves' : Leaves a.get t.leftmost t.rightmost (pre ++ (leafId, l₁ ++ l₂) :: post) :=
    hleaves.set_entries hget (by rw [hget', if_pos rfl]) fun q hq => by rw [hget', if_neg hq]
  have hlen : t.len - 1 = (l ++ r).length := by
    rw [hinv.len_eq, hes]
    simp only [length_append, length_cons]
    omega
  -- the tree after the leaf was written and the index and the length were updated
  generalize hms : (if flag then update t.memberScores x.member none
    else t.memberScores) = ms
  have hstart : t.removeExact x flag = if t.len - 1 = 0 then
        some ({ t with root := none, leftmost := none, rightmost := none, len := t.len - 1,
                       arena := a.clear, memberScores := ms }, true)
      else (rebuildTree { t with len := t.len - 1, arena := a, memberScores := ms }).map
        fun t => (t, true) := by
    unfold BPTree.removeExact
    simp only [hsearch, leaf_eq hget, hentries, vecRemove_append, leafMut_eq hget, ha, some_bind]
    cases flag <;> simp [← hms]
  by_cases hzero : t.len - 1 = 0
  · rw [hzero] at hlen
    have hnil : l ++ r = [] := length_eq_zero_iff.1 hlen.symm
    refine ⟨_, l, r, hes, by rw [hstart, if_pos hzero], ?_, rfl⟩
    rw [hnil]
    exact ⟨.empty rfl rfl rfl, .nil, hzero, rfl⟩
  have hcollect : collectEntries { t with len := t.len - 1, arena := a, memberScores := ms } =
      some (l ++ r) := by
    rw [Leaves.collectEntries hleaves', ← hl, ← hr]
    simp
  obtain ⟨t', ht', hinv', hscores⟩ := (treeInv_cleared
    { t with len := t.len - 1, arena := a, memberScores := ms }).insertAll
      (show SortedEntries ([] ++ (l ++ r)) from hsorted)
  refine ⟨t', l, r, hes, ?_, hinv', hscores⟩
  rw [hstart, if_neg hzero, rebuildTree, hcollect]
  simp only [some_bind, ht', map_some]

/-! ## Refinement of the abstract sorted set -/

/-- The tree stores the sorted set, and its member index is the set's map. -/
def Refines (t : BPTree) (S : SortedSet) : Prop := Inv t S.entries

theorem Refines.memberScores_eq (h : Refines t S) (m : CompactString) :
    t.memberScores m = S.score? m := by
  apply Option.ext
  intro s
  rw [score?_eq_some]
  exact h.index m s

theorem refines_of (hinv : TreeInv t es) (hes : es = S.entries)
    (hscores : ∀ m s, t.memberScores m = some s ↔ (⟨s, m⟩ : ZSetEntry) ∈ S.entries) :
    Refines t S := by
  subst hes
  exact ⟨hinv, hscores⟩

theorem refines_new : Refines new SortedSet.empty :=
  ⟨⟨Holds.empty rfl rfl rfl, SortedEntries.nil, rfl, rfl⟩, by simp [new, SortedSet.empty]⟩

theorem Refines.clear (_ : Refines t S) : Refines t.clear SortedSet.empty :=
  ⟨⟨Holds.empty rfl rfl rfl, SortedEntries.nil, rfl, rfl⟩, by simp [BPTree.clear, SortedSet.empty]⟩

/-- Removing an entry of the set. -/
theorem Refines.removeExact (h : Refines t S) (hx : x ∈ S.entries) :
    ∃ t', t.removeExact x true = some (t', true) ∧ Refines t' (S.erase x.member) := by
  obtain ⟨t', l, r, hes, hrun, hinv, hscores⟩ := h.toTreeInv.removeExact hx true
  refine ⟨t', hrun, refines_of hinv (SortedSet.entries_erase hes).symm ?_⟩
  intro m s
  rw [hscores, if_pos rfl, update_apply, mem_erase, ← h.index m s]
  by_cases hm : m = x.member <;> simp [hm]

/-- The tree does not depend on the member index. -/
theorem TreeInv.with_memberScores (hinv : TreeInv t es) (ms : CompactString → Option F64) :
    TreeInv { t with memberScores := ms } es := by
  refine ⟨?_, hinv.sorted, hinv.len_eq, hinv.freeList_eq⟩
  cases hinv.holds with
  | empty hroot hleft hright => exact .empty hroot hleft hright
  | tree h P hroot hsub hids hleaves => exact .tree h P hroot hsub hids hleaves

/-- Inserting a member whose old entry, if any, is already out of the tree. -/
theorem Refines.insertNewEntry (h : Refines t S) (hx : x.NotNan) {t₀ : BPTree}
    (hinv : TreeInv t₀ (S.erase x.member).entries) (hscores : t₀.memberScores = t.memberScores) :
    ∃ t', BPTree.insertNewEntry
        { t₀ with memberScores := update t₀.memberScores x.member (some x.score) } x =
          some t' ∧ Refines t' (S.upsert x) := by
  obtain ⟨t', es', hrun, hinv', hins, hscores'⟩ :=
    (hinv.with_memberScores (update t₀.memberScores x.member (some x.score))).insertNewEntry
      hx fun e he heq => (mem_erase.1 he).2 (ord_eq_iff.1 heq).2
  refine ⟨t', hrun, refines_of hinv' ?_ ?_⟩
  · rw [hins.eq_insertSorted, entries_upsert hx]
  · intro m s
    rw [hscores', mem_upsert hx]
    show update t₀.memberScores x.member (some x.score) m = some s ↔ _
    rw [update_apply, hscores]
    by_cases hm : m = x.member
    · subst hm
      have hentry : (⟨s, x.member⟩ : ZSetEntry) = x ↔ x.score = s := by
        cases x
        simp [eq_comm]
      simp [hentry]
    · rw [if_neg hm, h.index m s]
      have hne : (⟨s, m⟩ : ZSetEntry) ≠ x := fun heq => hm (congrArg ZSetEntry.member heq)
      simp [hne, hm]

/-- **`insert`** sets the score of a member, unless the member already has an equal one. -/
theorem Refines.insert (h : Refines t S) (hx : x.NotNan) :
    ∃ t', t.insert x.score x.member = some (t', match S.score? x.member with
        | none => .inserted
        | some old => .updated old) ∧
      Refines t' (if (S.score? x.member).any (scoresEqual · x.score) then S else S.upsert x) := by
  unfold BPTree.insert
  rw [h.memberScores_eq]
  rcases hscore : S.score? x.member with _ | old
  · have herase := erase_of_notMem (score?_eq_none.1 hscore)
    obtain ⟨t', hrun, href⟩ := h.insertNewEntry hx (by rw [herase]; exact h.toTreeInv) rfl
    exact ⟨t', by simp only [hrun, some_bind], by simpa using href⟩
  simp only [any_some]
  by_cases heq : scoresEqual old x.score = true
  · rw [if_pos heq, if_pos heq]
    exact ⟨t, rfl, h⟩
  rw [if_neg heq, if_neg heq]
  -- the old entry leaves the tree but stays in the index until the new score is written
  obtain ⟨t₀, l, r, hes, hremove, hinv, hscores⟩ :=
    h.toTreeInv.removeExact (score?_eq_some.1 hscore) false
  rw [← SortedSet.entries_erase hes] at hinv
  obtain ⟨t', hrun, href⟩ := h.insertNewEntry hx hinv (by simpa using hscores)
  refine ⟨t', ?_, href⟩
  simp only [hremove, hrun, some_bind]

/-- **`remove`** takes a member out and returns its score. -/
theorem Refines.remove (h : Refines t S) (member : Bytes) : ∃ t', t.remove member =
        some (t', (fromUtf8 member).bind fun m => S.score? m) ∧
      Refines t' (((fromUtf8 member).map S.erase).getD S) := by
  unfold BPTree.remove
  rcases fromUtf8 member with _ | m
  · exact ⟨t, rfl, h⟩
  simp only [h.memberScores_eq, bind_some, map_some]
  cases hscore : S.score? m with
  | none => exact ⟨t, rfl, by rwa [erase_of_notMem (score?_eq_none.1 hscore)]⟩
  | some s =>
    obtain ⟨t', hrun, href⟩ := h.removeExact (score?_eq_some.1 hscore)
    exact ⟨t', by simp only [hrun, some_bind, if_true], href⟩

/-- **`pop_min`** removes and returns the first entry. -/
theorem Refines.popMin (h : Refines t S) :
    ∃ t', t.popMin = some (t', S.entries.head?) ∧ Refines t' S.tail := by
  have hholds := h.holds
  generalize hes : S.entries = es at hholds
  cases hholds with
  | empty _ hleft =>
    have hnil : S.tail = S := SortedSet.ext (by simp [SortedSet.tail, hes])
    exact ⟨t, by simp [BPTree.popMin, hleft], by rwa [hnil]⟩
  | tree _ P _ hsub _ hleaves =>
    rcases hcells : P.cells with _ | ⟨c, cells⟩
    · exact absurd (by simp [Part.entries, hcells]) hsub.entries_ne_nil
    rw [hcells] at hleaves
    obtain ⟨leaf, hget, hleaf⟩ := hleaves.get_of_mem (c := c) (by simp)
    obtain ⟨e, l, hc⟩ := exists_cons_of_ne_nil (hsub.cells_nonempty c (by simp [hcells]))
    have hentries : S.entries = e :: (l ++ cells.flatMap Prod.snd) := by
      rw [hes, Part.entries, hcells]
      simp [hc]
    obtain ⟨t', hrun, href⟩ := h.removeExact (x := e) (by simp [hentries])
    have htail : S.erase e.member = S.tail := SortedSet.ext (by
      rw [SortedSet.entries_erase (l := []) hentries]
      simp [SortedSet.tail, hentries])
    rw [htail] at href
    refine ⟨t', ?_, href⟩
    rw [← hes, hentries, BPTree.popMin, hleaves.leftmost_eq]
    simp [leaf_eq hget, hleaf, hc, popEntry, hrun]

/-- **`pop_max`** removes and returns the last entry. -/
theorem Refines.popMax (h : Refines t S) :
    ∃ t', t.popMax = some (t', S.entries.getLast?) ∧ Refines t' S.dropLast := by
  have hholds := h.holds
  generalize hes : S.entries = es at hholds
  cases hholds with
  | empty _ _ hright =>
    have hnil : S.dropLast = S := SortedSet.ext (by simp [SortedSet.dropLast, hes])
    exact ⟨t, by simp [BPTree.popMax, hright], by rwa [hnil]⟩
  | tree _ P _ hsub _ hleaves =>
    rcases eq_nil_or_concat P.cells with hcells | ⟨cells, c, hcells⟩
    · exact absurd (by simp [Part.entries, hcells]) hsub.entries_ne_nil
    rw [concat_eq_append] at hcells
    rw [hcells] at hleaves
    obtain ⟨leaf, hget, hleaf⟩ := hleaves.get_of_mem (c := c) (by simp)
    obtain ⟨l, e, hc⟩ := (eq_nil_or_concat c.2).resolve_left
      (hsub.cells_nonempty c (by simp [hcells]))
    rw [concat_eq_append] at hc
    have hentries : S.entries = (cells.flatMap Prod.snd ++ l) ++ [e] := by
      rw [hes, Part.entries, hcells]
      simp [hc]
    obtain ⟨t', hrun, href⟩ := h.removeExact (x := e) (by simp [hentries])
    have hlast : S.erase e.member = S.dropLast := SortedSet.ext (by
      rw [SortedSet.entries_erase hentries]
      simp [SortedSet.dropLast, hentries])
    rw [hlast] at href
    refine ⟨t', ?_, href⟩
    rw [← hes, hentries, BPTree.popMax, hleaves.rightmost_eq]
    simp [leaf_eq hget, hleaf, hc, popEntry, hrun]

/-! ## Queries -/

/-- **What the queries of a tree over `S` answer.** -/
structure Answers (t : BPTree) (S : SortedSet) : Prop where
  /-- the leaf list, from the leftmost leaf on, is the sorted sequence -/
  collectEntries : t.collectEntries = some S.entries
  rankOf : ∀ i e, S.entries[i]? = some e → t.rankOf e.score e.member.bytes = some (some i)
  rankOf_absent : ∀ e : ZSetEntry, e.NotNan → (∀ e' ∈ S.entries, entryMatches e' e = false) →
    t.rankOf e.score e.member.bytes = some none
  rankOfRev : ∀ i e, S.entries[i]? = some e →
    t.rankOfRev e.score e.member.bytes = some (some (S.entries.length - 1 - i))
  rangeByRank : ∀ start stop, ∃ it, t.rangeByRank start stop = some it ∧
    t.collect it = some ((S.entries.take (stop + 1)).drop start)
  popMin : ∃ t', t.popMin = some (t', S.entries.head?) ∧ Refines t' S.tail
  popMax : ∃ t', t.popMax = some (t', S.entries.getLast?) ∧ Refines t' S.dropLast

theorem Refines.collectEntries (h : Refines t S) : t.collectEntries = some S.entries := by
  have hholds := h.holds
  generalize S.entries = es at hholds
  cases hholds with
  | empty _ hleft => rw [BPTree.collectEntries, hleft]; rfl
  | tree _ P _ _ _ hleaves => exact hleaves.collectEntries

/-- The rank of a stored entry is its index. -/
theorem Refines.rankOf_getElem (h : Refines t S) {i : Nat}
    {e : ZSetEntry} (he : S.entries[i]? = some e) :
    t.rankOf e.score e.member.bytes = some (some i) := by
  have hmem := mem_of_getElem? he
  rw [h.toTreeInv.rankOf (S.sorted.notNan e hmem), Option.some.injEq, findIdx?_eq_some_iff_getElem]
  obtain ⟨hi, rfl⟩ := List.getElem?_eq_some_iff.1 he
  refine ⟨hi, by simp, ?_⟩
  intro j hj
  have hlt : S.entries[j].ord < S.entries[i].ord :=
    pairwise_iff_getElem.1 S.sorted.pairwise j i (by omega) hi hj
  simpa using hlt.ne

theorem Refines.answers (h : Refines t S) : Answers t S where
  collectEntries := h.collectEntries
  rankOf _ _ he := h.rankOf_getElem he
  rankOf_absent e he habsent := by
    rw [h.toTreeInv.rankOf he, Option.some.injEq, findIdx?_eq_none_iff]
    intro e' he'
    have hne := habsent e' he'
    rw [← Bool.not_eq_true, entryMatches_iff (S.sorted.notNan e' he') he] at hne
    simpa using hne
  rankOfRev i e he := by
    rw [BPTree.rankOfRev, h.rankOf_getElem he, h.len_eq]
    rfl
  rangeByRank := h.toTreeInv.rangeByRank
  popMin := h.popMin
  popMax := h.popMax

/-! ## Runs -/

inductive Op where
  | insert (score : F64) (member : CompactString)
  | remove (member : Bytes)
  | popMin
  | popMax
  | clear

inductive Reply where
  | insert (result : InsertResult)
  | remove (score : Option F64)
  | pop (entry : Option ZSetEntry)
  | clear
deriving DecidableEq

/-- Scores are not NaN. -/
def Op.NotNan : Op → Prop
  | .insert score _ => score.isNan = false
  | _ => True

instance (op : Op) : Decidable op.NotNan :=
  match op with
  | .insert _ _ => inferInstanceAs (Decidable (_ = _))
  | .remove _ | .popMin | .popMax | .clear => inferInstanceAs (Decidable True)

def step (t : BPTree) : Op → Option (BPTree × Reply)
  | .insert score member => (t.insert score member).map fun (t, r) => (t, .insert r)
  | .remove member => (t.remove member).map fun (t, r) => (t, .remove r)
  | .popMin => t.popMin.map fun (t, r) => (t, .pop r)
  | .popMax => t.popMax.map fun (t, r) => (t, .pop r)
  | .clear => some (t.clear, .clear)

def run : BPTree → List Op → Option (BPTree × List Reply)
  | t, [] => some (t, [])
  | t, op :: ops => do
    let (t, reply) ← t.step op
    let (t, replies) ← run t ops
    some (t, reply :: replies)

/-- The same operations on the abstract set. -/
def setStep (S : SortedSet) : Op → SortedSet × Reply
  | .insert score member =>
    match S.score? member with
    | none => (S.upsert ⟨score, member⟩, .insert .inserted)
    | some old =>
      (if scoresEqual old score then S else S.upsert ⟨score, member⟩, .insert (.updated old))
  | .remove member =>
    match CompactString.fromUtf8 member with
    | none => (S, .remove none)
    | some member => (S.erase member, .remove (S.score? member))
  | .popMin => (S.tail, .pop S.entries.head?)
  | .popMax => (S.dropLast, .pop S.entries.getLast?)
  | .clear => (SortedSet.empty, .clear)

def setRun : SortedSet → List Op → SortedSet × List Reply
  | S, [] => (S, [])
  | S, op :: ops =>
    ((setRun (setStep S op).1 ops).1, (setStep S op).2 :: (setRun (setStep S op).1 ops).2)

/-- **One step** of the tree is the step of the set it stores. -/
theorem Refines.step (h : Refines t S) {op : Op} (hop : op.NotNan) :
    ∃ t', t.step op = some (t', (setStep S op).2) ∧ Refines t' (setStep S op).1 := by
  cases op with
  | insert score member =>
    obtain ⟨t', hrun, href⟩ := h.insert (x := ⟨score, member⟩) hop
    simp only [BPTree.step, setStep, hrun]
    cases hscore : S.score? member with
    | none | some => exact ⟨t', by simp, by simpa [hscore] using href⟩
  | remove member =>
    obtain ⟨t', hrun, href⟩ := h.remove member
    simp only [BPTree.step, setStep, hrun]
    cases hm : fromUtf8 member with
    | none | some => exact ⟨t', by simp, by simpa [hm] using href⟩
  | popMin =>
    obtain ⟨t', hrun, href⟩ := h.popMin
    exact ⟨t', by rw [BPTree.step, hrun]; rfl, href⟩
  | popMax =>
    obtain ⟨t', hrun, href⟩ := h.popMax
    exact ⟨t', by rw [BPTree.step, hrun]; rfl, href⟩
  | clear => exact ⟨t.clear, rfl, h.clear⟩

/-- **Every run** of the tree is the run of the set it stores. -/
theorem Refines.run (h : Refines t S) {ops : List Op} (hops : ∀ op ∈ ops, op.NotNan) :
    ∃ t', t.run ops = some (t', (setRun S ops).2) ∧ Refines t' (setRun S ops).1 := by
  induction ops generalizing t S with
  | nil => exact ⟨t, rfl, h⟩
  | cons op ops ih =>
    obtain ⟨t₁, hstep, h₁⟩ := h.step (hops op (by simp))
    obtain ⟨t₂, hrun, h₂⟩ := ih h₁ fun op' hop' => hops op' (by simp [hop'])
    exact ⟨t₂, by simp [BPTree.run, hstep, hrun, setRun], h₂⟩

/-- **The B+tree is correct.** Every sequence of operations without NaN scores runs without a
panic from the empty tree and replies as the abstract sorted set does; the tree it ends with
satisfies the invariant (all leaves at one depth, separators that bound their subtrees, exact
subtree sizes, a consistent leaf list in strictly increasing order, an exact length and an exact
member index), and its queries answer from the sorted sequence. -/
theorem bpTree_refines_sortedSet (ops : List Op) (hops : ∀ op ∈ ops, op.NotNan) :
    ∃ t S replies, run new ops = some (t, replies) ∧ setRun SortedSet.empty ops = (S, replies) ∧
      Inv t S.entries ∧ Answers t S := by
  obtain ⟨t, hrun, href⟩ := refines_new.run hops
  exact ⟨t, _, _, hrun, rfl, href, href.answers⟩

theorem bpTree_refines_sortedSet_sample : ∃ t S replies,
      run new [.insert ⟨3⟩ ⟨[0x61], rfl⟩, .insert ⟨2⟩ ⟨[0x62], rfl⟩, .insert ⟨5⟩ ⟨[0x61], rfl⟩,
        .remove [0x62], .popMin] = some (t, replies) ∧
      setRun SortedSet.empty [.insert ⟨3⟩ ⟨[0x61], rfl⟩, .insert ⟨2⟩ ⟨[0x62], rfl⟩,
        .insert ⟨5⟩ ⟨[0x61], rfl⟩, .remove [0x62], .popMin] = (S, replies) ∧
      Inv t S.entries ∧ Answers t S :=
  bpTree_refines_sortedSet _ (by decide)

end BPTree

end Senko
