import Senko.Core.ZSet.BPTreeInsert

/-!
# Senko — searching and iterating over the B+tree

Every query ends at a *cursor*: a leaf and an index in it, which stands for the entries from there
to the end of the leaf list (`Cursor`). The descents by key, by rank and by score bound each lead
to a cursor whose place in the sorted sequence is known, and `iterCollect_spec` says what an
iterator yields from a cursor on. Together they give the range queries as list functions.
-/

namespace Senko

open ZSetEntry List Option

variable {es before rest : List ZSetEntry} {cells post pre : List (NodeId × List ZSetEntry)}
  {fuel index rank : Nat} {P : BPTree.Part} {e x : ZSetEntry} {leafId : NodeId} {t : BPTree}
  {lm rm : Option NodeId} {it : BPTreeRangeIter}

namespace BPTree

/-! ## Cursors -/

/-- Position `index` of leaf `leafId` is before the entries `rest`, and after `before` others. -/
def Cursor (cells : List (NodeId × List ZSetEntry)) (leafId : NodeId) (index : Nat)
    (before rest : List ZSetEntry) : Prop :=
  ∃ pre l₁ l₂ post, cells = pre ++ (leafId, l₁ ++ l₂) :: post ∧ index = l₁.length ∧
    before = pre.flatMap Prod.snd ++ l₁ ∧ rest = l₂ ++ post.flatMap Prod.snd

theorem Cursor.flatMap_eq (h : Cursor cells leafId index before rest) :
    cells.flatMap Prod.snd = before ++ rest := by
  obtain ⟨pre, l₁, l₂, post, rfl, -, rfl, rfl⟩ := h
  simp

/-- A cursor in a subtree is a cursor in the tree. -/
theorem Cursor.context (h : Cursor cells leafId index before rest)
    (cells₁ cells₂ : List (NodeId × List ZSetEntry)) :
    Cursor (cells₁ ++ cells ++ cells₂) leafId index (cells₁.flatMap Prod.snd ++ before)
      (rest ++ cells₂.flatMap Prod.snd) := by
  obtain ⟨pre, l₁, l₂, post, rfl, rfl, rfl, rfl⟩ := h
  exact ⟨cells₁ ++ pre, l₁, l₂, post ++ cells₂, by simp, rfl, by simp, by simp⟩

/-- The number of leaves is bounded by the fuel. -/
theorem Leaves.length_lt_fuel (h : Leaves t.arena.get lm rm cells) : cells.length < t.fuel := by
  have hle : (cells.map Prod.fst).length ≤ t.arena.slots.size :=
    Arena.length_le_size h.nodup h.chain.live
  rw [length_map] at hle
  unfold fuel
  omega

/-! ## Iterators -/

section Iterators

variable (hleaves : Leaves t.arena.get lm rm cells) (hrev : it.reversed = false)
  (hleaf : it.currentLeaf = some leafId)

include hleaves hrev hleaf

/-- An exhausted leaf is left for the next one. -/
theorem iterNextLoop_skip {l : List ZSetEntry} (hcells : cells = pre ++ (leafId, l) :: post)
    (hindex : it.index = l.length) (fuel : Nat) :
    t.iterNextLoop (fuel + 1) it =
      t.iterNextLoop fuel { it with currentLeaf := firstId post none, index := 0 } := by
  obtain ⟨leaf, hget, rfl, -, hnext⟩ := (hcells ▸ hleaves).get_mid
  rw [iterNextLoop, hleaf]
  simp [leaf_eq hget, hindex, enterLeaf, hrev, hnext]

/-- What `next` may do with the entries `rest` before it: yield the first and move behind it, or
stop at it. -/
def NextSpec (cells : List (NodeId × List ZSetEntry)) (it : BPTreeRangeIter)
    (rest : List ZSetEntry) (result : Option (Option ZSetEntry × BPTreeRangeIter)) : Prop :=
  (∀ e ∈ rest.head?, it.stop.allows e = true → ∃ leafId index before,
    result = some (some e, { it with currentLeaf := some leafId, index := index,
                                     remaining := it.remaining.map (· - 1) }) ∧
      Cursor cells leafId index before rest.tail) ∧
  ((∀ e ∈ rest.head?, it.stop.allows e = false) → ∃ it', result = some (none, it'))

/-- An entry that the iterator may yield is yielded, one that it may not ends the iteration. -/
theorem iterNextLoop_hit {l₁ l₂ : List ZSetEntry}
    (hcells : cells = pre ++ (leafId, l₁ ++ e :: l₂) :: post) (hindex : it.index = l₁.length)
    (fuel : Nat) :
    NextSpec cells it (e :: l₂ ++ post.flatMap Prod.snd) (t.iterNextLoop (fuel + 1) it) := by
  obtain ⟨leaf, hget, hes, -, -⟩ := (hcells ▸ hleaves).get_mid
  have hstep : t.iterNextLoop (fuel + 1) it = if it.stop.allows e then
        some (some e, { it with remaining := it.remaining.map (· - 1), index := l₁.length + 1 })
      else some (none, { it with currentLeaf := none }) := by
    rw [iterNextLoop, hleaf]
    simp only [leaf_eq hget, some_bind, hes, hindex, getElem?_append_cons]
    cases it.stop.allows e <;> simp [stepEntry, hrev]
  simp only [NextSpec, cons_append, head?_cons, mem_def, Option.some.injEq, forall_eq', hstep]
  constructor
  · intro hok
    exact ⟨leafId, l₁.length + 1, _, by rw [if_pos hok, ← hleaf], pre, l₁ ++ [e], l₂, post,
      by simpa using hcells, by simp, rfl, rfl⟩
  · intro hstop
    exact ⟨_, by rw [hstop]; rfl⟩

/-- **`next` at a cursor** yields the first entry after it, and moves behind that entry. -/
theorem iterNext_spec (hcur : Cursor cells leafId index before rest) (hindex : it.index = index)
    (hrem : it.remaining ≠ some 0) : NextSpec cells it rest (t.iterNext it) := by
  rw [iterNext, if_neg hrem]
  obtain ⟨pre, l₁, l₂, post, hcells, rfl, rfl, rfl⟩ := hcur
  have hfuel : post.length + 1 < t.fuel := by
    have hlt := hleaves.length_lt_fuel
    rw [hcells, length_append, length_cons] at hlt
    omega
  generalize t.fuel = fuel at hfuel
  -- leaf by leaf: only a leaf with entries left stops the walk
  induction post generalizing pre leafId l₁ l₂ it fuel with
  | nil =>
    obtain ⟨fuel, rfl, hfuel'⟩ := exists_fuel hfuel
    obtain ⟨fuel, rfl, -⟩ := exists_fuel hfuel'
    cases l₂ with
    | nil =>
      rw [iterNextLoop_skip hleaves hrev hleaf hcells (by simpa using hindex)]
      exact ⟨by simp, fun _ => ⟨_, rfl⟩⟩
    | cons e l₂ => exact iterNextLoop_hit hleaves hrev hleaf hcells hindex _
  | cons c post ih =>
    obtain ⟨fuel, rfl, hfuel'⟩ := exists_fuel hfuel
    cases l₂ with
    | nil =>
      rw [iterNextLoop_skip hleaves hrev hleaf hcells (by simpa using hindex)]
      exact @ih c.1 { it with currentLeaf := some c.1, index := 0 } hrev rfl hrem
        (pre ++ [(leafId, l₁)]) [] c.2 (by simpa using hcells) rfl fuel hfuel'
    | cons e l₂ => exact iterNextLoop_hit hleaves hrev hleaf hcells hindex _

/-- Keep at most as many entries as an iterator has left. -/
def takeRemaining : Option Nat → List ZSetEntry → List ZSetEntry
  | none, es => es
  | some n, es => es.take n

/-- **Draining an iterator** that stands at a cursor: the entries it may yield, up to the first
one that it may not, and at most as many as it has left. -/
theorem iterCollect_spec (hcur : Cursor cells leafId index before rest) (hindex : it.index = index)
    (hfuel : rest.length < fuel) :
    t.iterCollect fuel it =
      some (takeRemaining it.remaining (rest.takeWhile fun e => it.stop.allows e)) := by
  induction rest generalizing leafId index before it fuel with
  | nil =>
    obtain ⟨fuel, rfl, -⟩ := exists_fuel hfuel
    have hnext : ∃ it', t.iterNext it = some (none, it') := by
      by_cases hrem : it.remaining = some 0
      · exact ⟨it, by rw [iterNext, if_pos hrem]⟩
      · exact (iterNext_spec hleaves hrev hleaf hcur hindex hrem).2 (by simp)
    obtain ⟨it', hit'⟩ := hnext
    rw [iterCollect, hit']
    cases it.remaining <;> simp [takeRemaining]
  | cons e rest ih =>
    obtain ⟨fuel, rfl, hfuel'⟩ := exists_fuel hfuel
    by_cases hrem : it.remaining = some 0
    · rw [iterCollect, iterNext, if_pos hrem, hrem]
      simp [takeRemaining]
    have hnext := iterNext_spec hleaves hrev hleaf hcur hindex hrem
    simp only [NextSpec, head?_cons, mem_def, Option.some.injEq, forall_eq'] at hnext
    cases hok : it.stop.allows e with
    | true =>
      obtain ⟨leafId', index', before', hstep, hcur'⟩ := hnext.1 hok
      have hih : t.iterCollect fuel { it with
          currentLeaf := some leafId', index := index'
          remaining := it.remaining.map (· - 1) } = _ :=
        ih hrev rfl hcur' rfl hfuel'
      rw [iterCollect, hstep]
      simp only [some_bind, hih, takeWhile_cons, hok]
      cases hn : it.remaining with
      | none => rfl
      | some n =>
        cases n with
        | zero => exact absurd hn hrem
        | succ n => simp [takeRemaining]
    | false =>
      obtain ⟨it', hit'⟩ := hnext.2 hok
      rw [iterCollect, hit']
      cases it.remaining <;> simp [takeRemaining, hok]

end Iterators

/-- The empty iterator yields nothing. -/
theorem collect_emptyIter : t.collect emptyIter = some [] := rfl

/-! ## Search by key -/

/-- **The descent by key** ends in the leaf where the key is, or would be. -/
theorem searchKeyLoop_spec {h : Nat} (hsub : SubTree t.arena.get h P)
    (hsorted : SortedEntries P.entries) {x : EntryKey} (hx : x.NotNan) (hfuel : h < fuel)
    (rank : Nat) : ∃ leafId pre l₁ l₂ post, P.cells = pre ++ (leafId, l₁ ++ l₂) :: post ∧
      (∀ e ∈ pre.flatMap Prod.snd ++ l₁, e.ord < x.ord) ∧ (∀ e ∈ l₂, x.ord ≤ e.ord) ∧
      (∀ e ∈ post.flatMap Prod.snd, x.ord < e.ord) ∧
      t.searchKeyLoop x fuel P.id rank = some
        { leafId, index := l₁.length, found := l₂.head?.any fun e => entryMatches e x,
          rank := rank + (pre.flatMap Prod.snd ++ l₁).length } := by
  induction h generalizing P fuel rank with
  | zero =>
    obtain ⟨fuel, rfl, -⟩ := exists_fuel hfuel
    obtain ⟨leaf, hget, hP, -, -⟩ := hsub
    rw [hP, Part.entries_leaf] at hsorted
    obtain ⟨l₁, l₂, hl, hcut, hlt, hge⟩ := hsorted.lowerBoundEntry hx
    refine ⟨P.id, [], l₁, l₂, [], by rw [hP, hl]; rfl, by simpa using hlt, hge, by simp, ?_⟩
    rw [searchKeyLoop, hget]
    simp only [hcut]
    rw [hl, getElem?_append_right le_rfl, head?_eq_getElem?]
    simp
  | succ h ih =>
    obtain ⟨fuel, rfl, hfuel'⟩ := exists_fuel hfuel
    obtain ⟨inner, parts, hget, hP, hdesc, -, hparts⟩ := hsub
    obtain ⟨-, -, ps₁, C, ps₂, -, rfl, -, hindex, -, hbefore, hafter, -⟩ := hdesc.routeKey hx
    rw [Part.entries_mid hP] at hsorted
    obtain ⟨leafId, pre, l₁, l₂, post, hcells, hlt, hge, hgtPost, hrun⟩ :=
      ih (hparts C (by simp)) hsorted.append_right.append_left hfuel'
        (rank + (ps₁.flatMap Part.entries).length)
    have hpre : (ps₁.flatMap Part.cells ++ pre).flatMap Prod.snd =
        ps₁.flatMap Part.entries ++ pre.flatMap Prod.snd := by
      rw [flatMap_append, Part.entries_flatMap_cells]
    have hpost : (post ++ ps₂.flatMap Part.cells).flatMap Prod.snd =
        post.flatMap Prod.snd ++ ps₂.flatMap Part.entries := by
      rw [flatMap_append, Part.entries_flatMap_cells]
    refine ⟨leafId, ps₁.flatMap Part.cells ++ pre, l₁, l₂, post ++ ps₂.flatMap Part.cells,
      ?_, ?_, hge, ?_, ?_⟩
    · rw [hP]
      simp [Part.node, hcells]
    · intro e he
      rw [hpre, append_assoc] at he
      exact (mem_append.1 he).elim (hbefore e) (hlt e)
    · intro e he
      rw [hpost] at he
      exact (mem_append.1 he).elim (hgtPost e) (hafter e)
    · rw [searchKeyLoop, hget]
      simp only [hindex, hdesc.children_mid, hdesc.sum_before, some_bind, hrun, hpre]
      simp only [length_append, Option.some.injEq, SearchPath.mk.injEq, true_and]
      omega

/-- A key whose entry is in the tree is found there, at its rank. -/
theorem TreeInv.searchKey_mem (hinv : TreeInv t es) (hx : x.NotNan) (he : e ∈ es)
    (hord : e.ord = x.ord) :
    ∃ cells leafId pre l₁ l₂ post, Leaves t.arena.get t.leftmost t.rightmost cells ∧
      cells.flatMap Prod.snd = es ∧ cells = pre ++ (leafId, l₁ ++ e :: l₂) :: post ∧
      t.searchKey x = some (some { leafId, index := l₁.length, found := true,
                                   rank := (pre.flatMap Prod.snd ++ l₁).length }) := by
  obtain ⟨hholds, hsorted, -, -⟩ := hinv
  cases hholds with
  | empty => simp at he
  | tree h P hroot hsub hids hleaves =>
    obtain ⟨leafId, pre, l₁, l₂, post, hcells, hlt, hge, hgt, hrun⟩ :=
      searchKeyLoop_spec hsub hsorted hx (hsub.height_lt_fuel hids) 0
    have hentries : P.entries = (pre.flatMap Prod.snd ++ l₁) ++ (l₂ ++ post.flatMap Prod.snd) := by
      rw [Part.entries, hcells]
      simp
    -- the entry can only be the first one that is not below the key
    have hmem : e ∈ l₂ := by
      rw [hentries] at he
      rcases mem_append.1 he with he | he
      · exact absurd hord (hlt e he).ne
      · rcases mem_append.1 he with he | he
        · exact he
        · exact absurd hord (hgt e he).ne'
    rcases l₂ with _ | ⟨y, l₂⟩
    · simp at hmem
    obtain rfl : e = y := by
      rcases mem_cons.1 hmem with rfl | hmem
      · rfl
      · rw [hentries] at hsorted
        have hpair := hsorted.append_right.append_left.pairwise
        have hye := rel_of_pairwise_cons hpair hmem
        exact absurd hord (((hge y (by simp)).trans_lt hye).ne')
    have hfound : entryMatches e x = true :=
      (entryMatches_iff (hsorted.notNan e (by rw [hentries]; simp)) hx).2 hord
    refine ⟨P.cells, leafId, pre, l₁, l₂, post, hleaves, rfl, hcells, ?_⟩
    rw [searchKey, hroot]
    simp only [hrun]
    simp [hfound]

/-- A key that no entry has is not found. -/
theorem TreeInv.searchKey_notMem (hinv : TreeInv t es) (hx : x.NotNan)
    (hfresh : ∀ e ∈ es, e.ord ≠ x.ord) :
    t.searchKey x = some none ∨ ∃ path, t.searchKey x = some (some path) ∧ path.found = false := by
  obtain ⟨hholds, hsorted, -, -⟩ := hinv
  cases hholds with
  | empty hroot => exact Or.inl (by rw [searchKey, hroot])
  | tree h P hroot hsub hids hleaves =>
    obtain ⟨leafId, pre, l₁, l₂, post, hcells, -, -, -, hrun⟩ :=
      searchKeyLoop_spec hsub hsorted hx (hsub.height_lt_fuel hids) 0
    refine Or.inr ⟨_, by rw [searchKey, hroot]; simp only [hrun]; rfl, ?_⟩
    cases l₂ with
    | nil => rfl
    | cons y l₂ =>
      have hy : y ∈ P.entries := by rw [Part.entries, hcells]; simp
      have hne := (entryMatches_iff (hsorted.notNan y hy) hx).not.2 (hfresh y hy)
      simpa using hne

/-- **`rank_of`** is the position in the sorted sequence. -/
theorem TreeInv.rankOf (hinv : TreeInv t es) {score : F64} {member : CompactString}
    (hx : score.isNan = false) :
    t.rankOf score member.bytes =
      some (es.findIdx? fun e => decide (e.ord = (⟨score, member⟩ : ZSetEntry).ord)) := by
  unfold BPTree.rankOf
  simp only [CompactString.fromUtf8_bytes]
  by_cases hmem : ∃ e ∈ es, e.ord = (⟨score, member⟩ : ZSetEntry).ord
  · obtain ⟨e, he, hord⟩ := hmem
    obtain ⟨cells, leafId, pre, l₁, l₂, post, -, hflat, rfl, hsearch⟩ :=
      hinv.searchKey_mem (x := ⟨score, member⟩) hx he hord
    rw [hsearch]
    have hsplit : es = (pre.flatMap Prod.snd ++ l₁) ++ e :: (l₂ ++ post.flatMap Prod.snd) := by
      rw [← hflat]
      simp
    -- nothing before the entry has its key
    have hbefore : ∀ y ∈ pre.flatMap Prod.snd ++ l₁, y.ord < e.ord := by
      intro y hy
      have hpair := hinv.sorted.pairwise
      rw [hsplit] at hpair
      exact (pairwise_append.1 hpair).2.2 y hy e (by simp)
    have hnone : (pre.flatMap Prod.snd ++ l₁).findIdx?
        (fun y => decide (y.ord = (⟨score, member⟩ : ZSetEntry).ord)) = none := by
      rw [findIdx?_eq_none_iff]
      intro y hy
      simpa [← hord] using (hbefore y hy).ne
    rw [hsplit, findIdx?_append, hnone, findIdx?_cons]
    simp [hord]
  · have hfresh : ∀ e ∈ es, e.ord ≠ (⟨score, member⟩ : ZSetEntry).ord :=
      fun e he hord => hmem ⟨e, he, hord⟩
    have hnone : es.findIdx? (fun e => decide (e.ord = (⟨score, member⟩ : ZSetEntry).ord)) =
        none := by
      rw [findIdx?_eq_none_iff]
      intro e he
      simpa using hfresh e he
    rw [hnone]
    rcases hinv.searchKey_notMem (x := ⟨score, member⟩) hx hfresh with hsearch | ⟨path, hsearch, hf⟩
    · rw [hsearch]
      rfl
    · rw [hsearch]
      simp [hf]

/-! ## Search by rank -/

/-- Skipping whole children leads to the child that contains the rank. -/
theorem skipChildren_spec {parts : List Part} (hrank : rank < (parts.flatMap Part.entries).length) :
    ∃ ps₁ C ps₂ r, parts = ps₁ ++ C :: ps₂ ∧
      skipChildren (parts.map Part.size) rank = (ps₁.length, r) ∧
      rank = (ps₁.flatMap Part.entries).length + r ∧ r < C.entries.length := by
  induction parts generalizing rank with
  | nil => simp at hrank
  | cons C parts ih =>
    simp only [map_cons, skipChildren]
    by_cases hskip : C.size ≤ rank
    · have hrank' : rank - C.size < (parts.flatMap Part.entries).length := by
        simp only [flatMap_cons, length_append, Part.size] at hrank hskip ⊢
        omega
      obtain ⟨ps₁, D, ps₂, r, rfl, hrun, hr, hlt⟩ := ih hrank'
      refine ⟨C :: ps₁, D, ps₂, r, rfl, ?_, ?_, hlt⟩
      · rw [if_pos hskip, hrun]
        rfl
      · simp only [flatMap_cons, length_append, Part.size] at hr hskip ⊢
        omega
    · exact ⟨[], C, parts, rank, rfl, by rw [if_neg hskip]; rfl, by simp, not_le.1 hskip⟩

/-- **The descent by rank** ends at the entry of that rank. -/
theorem locateByRankLoop_spec {h : Nat} (hsub : SubTree t.arena.get h P) (hfuel : h < fuel)
    (hrank : rank < P.entries.length) :
    ∃ leafId index before rest, t.locateByRankLoop fuel P.id rank = some (some (leafId, index)) ∧
      Cursor P.cells leafId index before rest ∧ before.length = rank := by
  induction h generalizing P fuel rank with
  | zero =>
    obtain ⟨fuel, rfl, -⟩ := exists_fuel hfuel
    obtain ⟨leaf, hget, hP, -, -⟩ := hsub
    rw [hP, Part.entries_leaf] at hrank
    obtain ⟨l₁, l₂, hl, hlen⟩ := exists_append_of_le_length leaf.entries hrank.le
    refine ⟨P.id, rank, l₁, l₂, ?_, ?_, hlen.symm⟩
    · rw [locateByRankLoop, hget]
      simp [hrank]
    · exact ⟨[], l₁, l₂, [], by rw [hP, hl]; rfl, hlen, by simp, by simp⟩
  | succ h ih =>
    obtain ⟨fuel, rfl, hfuel'⟩ := exists_fuel hfuel
    obtain ⟨inner, parts, hget, hP, hdesc, -, hparts⟩ := hsub
    have hentries : P.entries = parts.flatMap Part.entries := by
      rw [hP]
      simp
    rw [hentries] at hrank
    obtain ⟨ps₁, C, ps₂, r, rfl, hskip, hr, hlt⟩ := skipChildren_spec hrank
    obtain ⟨leafId, index, before, rest, hrun, hcur, hlen⟩ :=
      ih (hparts C (by simp)) hfuel' hlt
    refine ⟨leafId, index, ps₁.flatMap Part.entries ++ before, rest ++ ps₂.flatMap Part.entries,
      ?_, ?_, by rw [length_append, hlen, hr]⟩
    · rw [locateByRankLoop, hget]
      simp only [hdesc.childSizes, hskip, hdesc.children_mid, some_bind, hrun]
    · have hctx := hcur.context (ps₁.flatMap Part.cells) (ps₂.flatMap Part.cells)
      rw [Part.entries_flatMap_cells, Part.entries_flatMap_cells] at hctx
      rw [hP]
      simpa [Part.node] using hctx

/-- **`range_by_rank(start, stop)`** is the slice of the sorted sequence. -/
theorem TreeInv.rangeByRank (hinv : TreeInv t es) (start stop : Nat) :
    ∃ it, t.rangeByRank start stop = some it ∧
      t.collect it = some ((es.take (stop + 1)).drop start) := by
  obtain ⟨hholds, -, hlen, -⟩ := hinv
  unfold BPTree.rangeByRank
  by_cases hempty : stop < start ∨ t.len ≤ start
  · refine ⟨emptyIter, by rw [if_pos hempty], ?_⟩
    rw [collect_emptyIter, eq_comm, Option.some.injEq, drop_eq_nil_iff, length_take]
    omega
  rw [if_neg hempty]
  rw [not_or, not_le] at hempty
  cases hholds with
  | empty => simp [hlen] at hempty
  | tree h P hroot hsub hids hleaves =>
    obtain ⟨leafId, index, before, rest, hrun, hcur, hbefore⟩ :=
      locateByRankLoop_spec hsub (hsub.height_lt_fuel hids) (hlen ▸ hempty.2)
    have hes : P.entries = before ++ rest := hcur.flatMap_eq
    refine ⟨_, by simp only [locateByRank, hroot, hrun]; rfl, ?_⟩
    rw [collect, iterCollect_spec hleaves rfl rfl hcur rfl (by
      rw [hlen, hes, length_append]
      omega)]
    -- the iterator stops after as many entries as the slice has, or at the end of the list
    have hall : rest.takeWhile (fun e => IterStop.none.allows e) = rest := by
      rw [takeWhile_eq_self_iff]
      intro e _
      rfl
    rw [hall, takeRemaining, hes, take_append, drop_append]
    have hlenr : rest.length = t.len - start := by
      rw [hlen, hes, length_append]
      omega
    rw [drop_eq_nil_of_le (by rw [length_take]; omega), nil_append,
      length_take, hbefore, show start - min (stop + 1) start = 0 by omega, drop_zero]
    rcases Nat.lt_or_ge stop t.len with hstop | hstop
    · rw [show min stop (t.len - 1) - start + 1 = stop + 1 - start by omega]
    · rw [take_of_length_le (by omega), take_of_length_le (by omega)]

/-! ## Search by score -/

/-- `score_lower_predicate` on sort keys: whether the key lies below the lower bound. Nothing lies
below a NaN bound. -/
def belowBound : ScoreBound → ℤ ×ₗ List ℕ → Bool
  | .inclusive min, k => !min.isNan && decide ((ofLex k).1 < min.key)
  | .exclusive min, k => !min.isNan && decide ((ofLex k).1 ≤ min.key)
  | .negInf, _ => false
  | .posInf, _ => true

theorem belowBound_mono (bound : ScoreBound) (a b : ℤ ×ₗ List ℕ) (hab : a < b)
    (hb : belowBound bound b = true) : belowBound bound a = true := by
  have hle : (ofLex a).1 ≤ (ofLex b).1 := by
    rcases Prod.Lex.lt_iff.1 hab with h | h
    · exact h.le
    · exact h.1.le
  cases bound with
  | inclusive min =>
    simp only [belowBound, Bool.and_eq_true, decide_eq_true_eq] at hb ⊢
    exact ⟨hb.1, hle.trans_lt hb.2⟩
  | exclusive min =>
    simp only [belowBound, Bool.and_eq_true, decide_eq_true_eq] at hb ⊢
    exact ⟨hb.1, hle.trans hb.2⟩
  | negInf => exact hb
  | posInf => rfl

theorem scoreLowerPredicate_eq (he : e.NotNan) (bound : ScoreBound) :
    scoreLowerPredicate e.score bound = belowBound bound e.ord := by
  have hnan : e.score.isNan = false := he
  have hkey : (ofLex e.ord).1 = e.score.key := rfl
  cases bound <;> simp [scoreLowerPredicate, belowBound, F64.lt, F64.le, hnan, hkey]

/-- Descending by `child_index_for_score_bound` is routing by `belowBound`. -/
theorem childIndexForScoreBound_eq {keys : List EntryKey} (hkeys : ∀ k ∈ keys, k.NotNan)
    (bound : ScoreBound) :
    childIndexForScoreBound keys bound = partitionPoint (fun k => belowBound bound k.ord) keys := by
  cases bound with
  | inclusive min =>
    exact partitionPoint_congr fun k hk => scoreLowerPredicate_eq (hkeys k hk) (.inclusive min)
  | exclusive min =>
    exact partitionPoint_congr fun k hk => scoreLowerPredicate_eq (hkeys k hk) (.exclusive min)
  | negInf => cases keys <;> rfl
  | posInf =>
    have hall := partitionPoint_append (p := fun k : EntryKey => belowBound .posInf k.ord)
      (l := keys) (r := []) (fun _ _ => rfl) (by simp)
    rw [append_nil] at hall
    exact hall.symm

/-- **The descent by score bound** ends in the leaf where the entries below the bound end. -/
theorem lowerBoundScoreLoop_spec {h : Nat} (hsub : SubTree t.arena.get h P)
    (hsorted : SortedEntries P.entries) (bound : ScoreBound) (hfuel : h < fuel) (rank : Nat) :
    ∃ leafId index before rest, Cursor P.cells leafId index before rest ∧
      (∀ e ∈ before, belowBound bound e.ord = true) ∧
      (∀ e ∈ rest, belowBound bound e.ord = false) ∧
      t.lowerBoundScoreLoop bound fuel P.id rank =
        t.skipExhausted t.fuel leafId index (rank + before.length) := by
  induction h generalizing P fuel rank with
  | zero =>
    obtain ⟨fuel, rfl, -⟩ := exists_fuel hfuel
    obtain ⟨leaf, hget, hP, -, -⟩ := hsub
    rw [hP, Part.entries_leaf] at hsorted
    obtain ⟨l₁, l₂, hl, hcut, htrue, hfalse⟩ := hsorted.cut (belowBound_mono bound)
    refine ⟨P.id, l₁.length, l₁, l₂, ?_, htrue, hfalse, ?_⟩
    · exact ⟨[], l₁, l₂, [], by rw [hP, hl]; rfl, rfl, by simp, by simp⟩
    · have hindex : partitionPoint (fun e => scoreLowerPredicate e.score bound) leaf.entries =
          l₁.length := by
        rw [← hcut]
        exact partitionPoint_congr fun e he => scoreLowerPredicate_eq (hsorted.notNan e he) bound
      rw [lowerBoundScoreLoop, hget]
      simp only [hindex]
  | succ h ih =>
    obtain ⟨fuel, rfl, hfuel'⟩ := exists_fuel hfuel
    obtain ⟨inner, parts, hget, hP, hdesc, -, hparts⟩ := hsub
    obtain ⟨keys₁, keys₂, ps₁, C, ps₂, hkeys, rfl, hlen, hcut, htrue, hfalse, hbefore, hafter, -⟩ :=
      hdesc.route (belowBound_mono bound)
    rw [Part.entries_mid hP] at hsorted
    obtain ⟨leafId, index, before, rest, hcur, hb, hr, hrun⟩ :=
      ih (hparts C (by simp)) hsorted.append_right.append_left hfuel'
        (rank + (ps₁.flatMap Part.entries).length)
    have hctx := hcur.context (ps₁.flatMap Part.cells) (ps₂.flatMap Part.cells)
    rw [Part.entries_flatMap_cells, Part.entries_flatMap_cells] at hctx
    refine ⟨leafId, index, ps₁.flatMap Part.entries ++ before, rest ++ ps₂.flatMap Part.entries,
      ?_, ?_, ?_, ?_⟩
    · rw [hP]
      simpa [Part.node] using hctx
    · refine forall_mem_append.2 ⟨fun e he => ?_, hb⟩
      obtain ⟨k, hk, hlt⟩ := hbefore e he
      exact belowBound_mono bound _ _ hlt (htrue k hk)
    · refine forall_mem_append.2 ⟨hr, fun e he => ?_⟩
      -- an entry at or above a key that is not below the bound is not below it either
      obtain ⟨k, hk, hle⟩ := hafter e he
      have hkey := hfalse k hk
      rcases hle.lt_or_eq with hlt | heq
      · cases hbe : belowBound bound e.ord with
        | false => rfl
        | true => exact absurd (belowBound_mono bound _ _ hlt hbe) (by simp [hkey])
      · rw [← heq]
        exact hkey
    · have hindex : childIndexForScoreBound inner.keys bound = ps₁.length := by
        rw [childIndexForScoreBound_eq hdesc.notNan, hlen]
        exact hcut
      have hmin : min ps₁.length (inner.children.length - 1) = ps₁.length := by
        rw [hdesc.children, length_map, length_append, length_cons]
        omega
      rw [lowerBoundScoreLoop, hget]
      simp only [hindex, hmin, hdesc.children_mid, hdesc.sum_before, some_bind, hrun, length_append]
      rw [Nat.add_assoc]

/-- Walking past exhausted leaves does not move past an entry. -/
theorem skipExhausted_spec (hleaves : Leaves t.arena.get lm rm cells)
    {leafId : NodeId} (hcur : Cursor cells leafId index before rest) (rank : Nat) :
    (rest = [] → t.skipExhausted t.fuel leafId index rank = some none) ∧
    ∀ e ∈ rest.head?, ∃ leafId' index' leaf,
      t.skipExhausted t.fuel leafId index rank =
        some (some { leafId := leafId', index := index', rank }) ∧
      Cursor cells leafId' index' before rest ∧
      t.arena.get leafId' = some (.leaf leaf) ∧ leaf.entries[index']? = some e := by
  obtain ⟨pre, l₁, l₂, post, hcells, rfl, rfl, rfl⟩ := hcur
  have hfuel : post.length < t.fuel := by
    have hlt := hleaves.length_lt_fuel
    rw [hcells, length_append, length_cons] at hlt
    omega
  generalize t.fuel = fuel at hfuel
  induction post generalizing pre leafId l₁ l₂ fuel with
  | nil | cons c post ih =>
    obtain ⟨fuel, rfl, hfuel'⟩ := exists_fuel hfuel
    obtain ⟨leaf, hget, hes, -, hnext⟩ := (hcells ▸ hleaves).get_mid
    cases l₂ with
    | cons e l₂ =>
      refine ⟨by simp, fun e' he' =>
        ⟨leafId, l₁.length, leaf, ?_, ⟨pre, l₁, e :: l₂, _, hcells, rfl,
        rfl, rfl⟩, hget, ?_⟩⟩
      · simp [skipExhausted, leaf_eq hget, hes]
      · rw [hes, getElem?_append_cons]
        exact he'
    | nil =>
      have hskip : t.skipExhausted (fuel + 1) leafId l₁.length rank =
          leaf.next.elim (some none) fun next => t.skipExhausted fuel next 0 rank := by
        cases hleaf : leaf.next <;> simp [skipExhausted, leaf_eq hget, hes, hleaf]
      rw [hskip, hnext]
      -- this was the last leaf, or the walk goes on at the next one
      first
      | exact ⟨fun _ => rfl, by simp⟩
      | simpa using ih (pre ++ [(leafId, l₁)]) [] c.2 (by simpa using hcells) fuel hfuel'

/-- **`lower_bound_score`** stops at the first entry that is not below the bound. -/
theorem TreeInv.lowerBoundScore (hinv : TreeInv t es) (bound : ScoreBound) :
    ∃ before rest, es = before ++ rest ∧ (∀ e ∈ before, scoreLowerPredicate e.score bound = true) ∧
      (∀ e ∈ rest, scoreLowerPredicate e.score bound = false) ∧
      (rest = [] → t.lowerBoundScore bound = some none) ∧
      ∀ e ∈ rest.head?, ∃ cells hit leaf, Leaves t.arena.get t.leftmost t.rightmost cells ∧
        t.lowerBoundScore bound = some (some hit) ∧
        Cursor cells hit.leafId hit.index before rest ∧ hit.rank = before.length ∧
        t.leaf hit.leafId = some leaf ∧ leaf.entries[hit.index]? = some e := by
  obtain ⟨hholds, hsorted, -, -⟩ := hinv
  cases hholds with
  | empty hroot =>
    exact ⟨[], [], rfl, by simp, by simp, fun _ => by rw [BPTree.lowerBoundScore, hroot], by simp⟩
  | tree h P hroot hsub hids hleaves =>
    obtain ⟨leafId, index, before, rest, hcur, hbefore, hrest, hrun⟩ :=
      lowerBoundScoreLoop_spec hsub hsorted bound (hsub.height_lt_fuel hids) 0
    obtain ⟨hnone, hsome⟩ := skipExhausted_spec hleaves hcur (0 + before.length)
    have hes : P.entries = before ++ rest := hcur.flatMap_eq
    have hnan : ∀ e ∈ before ++ rest, e.NotNan := hes ▸ hsorted.notNan
    refine ⟨before, rest, hes, ?_, ?_, ?_, ?_⟩
    · intro e he
      rw [scoreLowerPredicate_eq (hnan e (by simp [he]))]
      exact hbefore e he
    · intro e he
      rw [scoreLowerPredicate_eq (hnan e (by simp [he]))]
      exact hrest e he
    · intro hr
      rw [BPTree.lowerBoundScore, hroot]
      exact hrun.trans (hnone hr)
    · intro e he
      obtain ⟨leafId', index', leaf, hskip, hcur', hget, hentry⟩ := hsome e he
      refine ⟨P.cells, { leafId := leafId', index := index', rank := 0 + before.length }, leaf,
        hleaves,
        ?_, hcur', Nat.zero_add _, leaf_eq hget, hentry⟩
      rw [BPTree.lowerBoundScore, hroot]
      exact hrun.trans hskip

/-- **`range_by_score(min, max)`** starts at the first entry not below `min` and stops before the
first entry above `max`. -/
theorem TreeInv.rangeByScore (hinv : TreeInv t es) (min max : ScoreBound) :
    ∃ it, t.rangeByScore min max = some it ∧
      t.collect it = some ((es.dropWhile fun e => scoreLowerPredicate e.score min).takeWhile
        fun e => scoreWithinUpperBound e.score max) := by
  obtain ⟨before, rest, rfl, hbefore, hrest, hnone, hsome⟩ := hinv.lowerBoundScore min
  have hdrop : (before ++ rest).dropWhile (fun e => scoreLowerPredicate e.score min) = rest := by
    rw [dropWhile_append_of_pos hbefore]
    cases rest with
    | nil => rfl
    | cons e rest => rw [dropWhile_cons_of_neg (by simp [hrest e (by simp)])]
  rw [hdrop]
  unfold BPTree.rangeByScore
  rcases rest with _ | ⟨e, rest⟩
  · exact ⟨emptyIter, by rw [hnone rfl]; rfl, collect_emptyIter⟩
  obtain ⟨cells, hit, leaf, hleaves, hrun, hcur, -, hleaf, hentry⟩ := hsome e rfl
  simp only [hrun, hleaf, hentry, some_bind]
  rcases hmax : scoreWithinUpperBound e.score max with _ | _
  · refine ⟨emptyIter, rfl, ?_⟩
    rw [collect_emptyIter, takeWhile_cons_of_neg (by simp [hmax])]
  refine ⟨_, rfl, ?_⟩
  rw [collect, iterCollect_spec hleaves rfl rfl hcur rfl (by
    rw [hinv.len_eq, length_append]
    omega)]
  rfl

end BPTree

end Senko
