import Senko.Core.QuickListRefinement
import Senko.Core.ListpackFind
import Senko.Lib.Sorted
import Mathlib.Data.List.Chain

/-!
# Senko — quicklist operations that search

`insert_before`, `insert_after`, `remove` and `pos`, against the list. Two of them hold under a
condition only. A pivot must be visible to the raw search of the node it is first found in
(`PivotVisible`). And `remove` saves each node's successor before it cleans the node up, so the
chain it leaves must not let a node merge with the successor that was saved (`MergeFree`): the
merge releases that successor and the loop then reads it.
-/

namespace Senko.QuickList

open List Option QuickList Function

variable {q : QuickList} {l c : List Bytes} {xs ys cells rest done : List (Nat × List Bytes)}
  {p fuel r target count : Nat} {pivot e element : Bytes} {forward : Bool}
  {insert : ListpackNode → Nat → Bytes → ListpackNode} {cell : Nat × List Bytes}

/-- The nodes of a quicklist from head to tail, with the entries each one holds. -/
def nodesFrom (q : QuickList) : Nat → Option Nat → Option (List (Nat × List Bytes))
  | _, none => some []
  | 0, some _ => none
  | fuel + 1, some p => do
    let node ← q.arena.get p
    let rest ← nodesFrom q fuel node.next
    some ((p, lpIter node) :: rest)

def nodes (q : QuickList) : Option (List (Nat × List Bytes)) := q.nodesFrom q.arena.size q.head

theorem nodesFrom_eq {a : Option Nat}
    (hchain : Chain nodeView q.arena.get a cells none) (hfuel : cells.length ≤ fuel) :
    q.nodesFrom fuel (firstId cells none) = some cells := by
  induction cells generalizing a fuel with
  | nil => simp [nodesFrom]
  | cons cell cells ih =>
    obtain ⟨⟨n, hget, hn, -, hnext⟩, hrest⟩ := hchain
    obtain ⟨fuel, rfl, hfuel'⟩ := exists_fuel hfuel
    have hnext : n.next = firstId cells none := hnext
    simp only [firstId_cons, nodesFrom, hget, some_bind, hnext,
      ih hrest hfuel', (actsAsList_of_holds hn).iter]

/-- `nodes` reads the representation back. -/
theorem Linked.nodes (h : Linked q cells) : q.nodes = some cells := by
  rw [QuickList.nodes, h.head, nodesFrom_eq h.chain h.length_le_size]

/-! ## Inserting at a pivot -/

/-- In the first node that holds the pivot, the raw search reports the pivot's entry. -/
def PivotVisible (q : QuickList) (pivot : Bytes) : Prop :=
  ∀ cells ∈ q.nodes, ∀ cell ∈ cells.find? (fun cell => pivot ∈ cell.2),
    PayloadVisible cell.2 pivot
deriving Decidable

theorem insertIdx_append_le {a : List Bytes} (b : List Bytes) {k : Nat} (hk : k ≤ a.length)
    (e : Bytes) : (a ++ b).insertIdx k e = a.insertIdx k e ++ b := by
  induction a generalizing k with
  | nil =>
    obtain rfl : k = 0 := by simpa using hk
    simp
  | cons x a ih =>
    cases k with
    | zero => simp
    | succ k => simp [ih (by simpa using hk)]

theorem lpFind_of_holds {n : ListpackNode} (hn : nodeView.holds n c)
    (hvis : PayloadVisible c pivot) : lpFind n pivot 0 = c.findIdx? fun e => e = pivot := by
  have hfits := encodedLengths_le_of_short hn.2.2.1 (Nat.zero_le 255)
  exact (lpFind_eq_iff ⟨hn.1, hn.2.1, hfits⟩).2 hvis

/-- The walk of both insertions, from any node on. `d` is 0 to insert before the pivot and 1 to
insert after it. -/
theorem InvWith.insertFrom (h : InvWith q (xs ++ rest)) {d : Nat} (hd : d ≤ 1) (he : ShortElement e)
    (hins : ∀ n c i, ActsAsList n c → i < c.length →
      insert n i e = encodeNodeEntries n (c.insertIdx (i + d) e))
    (hvis : ∀ cell, rest.find? (fun cell => pivot ∈ cell.2) = some cell →
      PayloadVisible cell.2 pivot) (hfuel : rest.length ≤ fuel) :
    (∀ i, (flat rest).findIdx? (fun x => x = pivot) = some i →
      ∃ q', insertFrom insert pivot e fuel q (firstId rest none) = some (q', .found) ∧
        Inv q' ((flat (xs ++ rest)).insertIdx ((flat xs).length + i + d) e) ∧ q'.fill = q.fill) ∧
    ((flat rest).findIdx? (fun x => x = pivot) = none →
      insertFrom insert pivot e fuel q (firstId rest none) = some (q, .notFound)) := by
  induction rest generalizing xs fuel with
  | nil => exact ⟨by simp, fun _ => by simp [insertFrom]⟩
  | cons cell rest ih =>
    obtain ⟨p, c⟩ := cell
    obtain ⟨n, hget, hn, -, hnext⟩ := h.linked.node
    obtain ⟨fuel, rfl, hfuel'⟩ := exists_fuel hfuel
    have hfindIdx : (flat ((p, c) :: rest)).findIdx? (fun x => x = pivot) =
        (c.findIdx? fun x => x = pivot).or
          (((flat rest).findIdx? fun x => x = pivot).map (· + c.length)) := by
      rw [flat_cons, findIdx?_append]
    by_cases hmem : pivot ∈ c
    · -- the pivot's first occurrence is in this node
      obtain ⟨i, hi⟩ : ∃ i, c.findIdx? (fun x => x = pivot) = some i := by
        rw [← isSome_iff_exists, findIdx?_isSome, List.any_eq_true]
        exact ⟨pivot, hmem, by simp⟩
      have hilt : i < c.length := (findIdx?_eq_some_iff_getElem.1 hi).1
      have hfind : lpFind n pivot 0 = some i := by
        rw [lpFind_of_holds hn (hvis (p, c) (by simp [hmem])), hi]
      rw [hfindIdx, hi]
      refine ⟨?_, by simp⟩
      rintro _ ⟨⟩
      obtain ⟨q', hrun, hinv, hfill⟩ := h.growNode (f := (insert · i e))
        (length_insertIdx_of_le_length (show i + d ≤ c.length by omega) e)
        (.grow he fun x => eq_or_mem_of_mem_insertIdx) fun m hm => hins m c i hm hilt
      have hflat : (flat (xs ++ (p, c) :: rest)).insertIdx ((flat xs).length + i + d) e =
          flat (xs ++ (p, c.insertIdx (i + d) e) :: rest) := by
        rw [flat_append, flat_append, flat_cons, flat_cons, Nat.add_assoc, insertIdx_append_add,
          insertIdx_append_le _ (show i + d ≤ c.length by omega)]
      refine ⟨q', ?_, hflat ▸ hinv, hfill⟩
      simp only [firstId_cons, insertFrom, hget, some_bind, hfind]
      rw [bind_eq_bind, ← Option.bind_assoc, hrun, bind_some]
    -- no occurrence here: an invisible pivot is not the issue, and the walk moves on
    have hnone : c.findIdx? (fun x => x = pivot) = none := by
      rw [findIdx?_eq_none_iff]
      intro x hx
      simpa using fun hxe : x = pivot => hmem (hxe ▸ hx)
    have hfind : lpFind n pivot 0 = none := by
      have hslices : (entrySlices 0 0 c).find? (fun s => s.bytes = pivot) = none := by
        rw [← entrySlices_bytes 0 0 c] at hmem
        simpa using hmem
      rw [lpFind_of_holds hn (by simp [PayloadVisible, firstPayloadStart, hslices]), hnone]
    have hsplit : xs ++ (p, c) :: rest = (xs ++ [(p, c)]) ++ rest := by simp
    have hxlen : (flat (xs ++ [(p, c)])).length = (flat xs).length + c.length := by simp
    rw [hsplit] at h
    obtain ⟨hfound, hmissing⟩ := ih h
      (fun cell hcell => hvis cell (by simpa [hmem] using hcell))
      hfuel'
    have hstep : insertFrom insert pivot e (fuel + 1) q
        (firstId ((p, c) :: rest) none) =
        insertFrom insert pivot e fuel q (firstId rest none) := by
      simp only [firstId_cons, insertFrom, hget, some_bind, hfind, hnext]
    rw [hfindIdx, hnone, hstep, hsplit]
    refine ⟨fun i hi => ?_, fun hnone' => hmissing (by simpa using hnone')⟩
    obtain ⟨j, hj, rfl⟩ := map_eq_some_iff.1 (by simpa using hi)
    obtain ⟨q', hrun, hinv, hfill⟩ := hfound j hj
    refine ⟨q', hrun, ?_, hfill⟩
    rwa [show (flat xs).length + (j + c.length) + d =
      (flat (xs ++ [(p, c)])).length + j + d by rw [hxlen]; omega]

/-- What `insert_before` (`d = 0`) and `insert_after` (`d = 1`) do to a list. -/
def listInsert (d : Nat) (l : List Bytes) (pivot e : Bytes) : List Bytes × InsertResult :=
  if l = [] then (l, .keyMissing)
  else
    match l.findIdx? fun x => x = pivot with
    | none => (l, .notFound)
    | some i => (l.insertIdx (i + d) e, .found)

section Insert

variable (h : Inv q l) (he : ShortElement e) (hvis : PivotVisible q pivot)

include h he hvis

theorem Inv.insertAt {d : Nat} (hd : d ≤ 1) (hins : ∀ n c i, ActsAsList n c → i < c.length →
      insert n i e = encodeNodeEntries n (c.insertIdx (i + d) e)) :
    ∃ q', q.insertAt insert pivot e = some (q', (listInsert d l pivot e).2) ∧
      Inv q' (listInsert d l pivot e).1 ∧ q'.fill = q.fill := by
  obtain ⟨cells, hinv, rfl⟩ := h
  have hnodes := hinv.linked.nodes
  rcases cells with _ | ⟨cell, rest⟩
  · have hhead : q.head = none := hinv.linked.head
    refine ⟨q, ?_, ⟨[], hinv, rfl⟩, rfl⟩
    rw [insertAt, hhead]
    rfl
  have hhead : q.head = some cell.1 := hinv.linked.head
  replace hinv : InvWith q ([] ++ cell :: rest) := hinv
  have hne : flat (cell :: rest) ≠ [] := by
    have hcell := (hinv.packed cell (by simp)).1
    simp [hcell]
  obtain ⟨hfound, hmissing⟩ := hinv.insertFrom hd he hins (hvis _ hnodes)
    hinv.linked.length_le_size
  unfold listInsert
  rw [if_neg hne, insertAt, hhead]
  cases hfind : (flat (cell :: rest)).findIdx? fun x => x = pivot with
  | none => exact ⟨q, hmissing hfind, ⟨_, hinv, rfl⟩, rfl⟩
  | some i =>
    obtain ⟨q', hrun, hinv', hfill⟩ := hfound i hfind
    exact ⟨q', hrun, by simpa using hinv', hfill⟩

/-- **`insert_before`** puts the element before the first pivot. -/
theorem Inv.insertBefore : ∃ q', q.insertBefore pivot e = some (q', (listInsert 0 l pivot e).2) ∧
      Inv q' (listInsert 0 l pivot e).1 ∧ q'.fill = q.fill := by
  refine h.insertAt he hvis (Nat.zero_le _) fun n c i hn hi => ?_
  rw [hn.insertBefore, Nat.min_eq_left (Nat.le_of_lt hi), Nat.add_zero]

/-- **`insert_after`** puts the element after the first pivot. -/
theorem Inv.insertAfter : ∃ q', q.insertAfter pivot e = some (q', (listInsert 1 l pivot e).2) ∧
      Inv q' (listInsert 1 l pivot e).1 ∧ q'.fill = q.fill := by
  refine h.insertAt he hvis (Nat.le_refl _) fun n c i hn hi => ?_
  rw [hn.insertAfter, Nat.min_eq_left hi]

end Insert

/-! ## Removing by value -/

/-- The chunks after `remove`'s scan, in the order the scan visits them, `remaining` deletions
left. -/
def removeCells (forward : Bool) (element : Bytes) :
    Nat → List (Nat × List Bytes) → List (Nat × List Bytes)
  | _, [] => []
  | remaining, (p, c) :: cells =>
    let (kept, removed) := removeEntriesDir forward element remaining c
    (p, kept) :: removeCells forward element (remaining - removed) cells

@[simp] theorem removeEntries_zero (element : Bytes) (c : List Bytes) :
    removeEntries element 0 c = (c, 0) := by
  induction c with
  | nil => rfl
  | cons x c ih => simp [removeEntries, ih]

theorem removeEntries_append (element : Bytes) (r : Nat) (a b : List Bytes) :
    removeEntries element r (a ++ b) = ((removeEntries element r a).1 ++
          (removeEntries element (r - (removeEntries element r a).2) b).1,
        (removeEntries element r a).2 +
          (removeEntries element (r - (removeEntries element r a).2) b).2) := by
  induction a generalizing r with
  | nil => simp [removeEntries]
  | cons x a ih =>
    rw [cons_append, removeEntries, removeEntries]
    by_cases hx : 0 < r ∧ x = element
    · have hr : r - 1 - (removeEntries element (r - 1) a).2 =
          r - ((removeEntries element (r - 1) a).2 + 1) := by omega
      simp only [if_pos hx, ih, hr]
      congr 1
      omega
    · simp only [if_neg hx, ih, cons_append]

/-- What is kept is a sublist, and the lengths add up. -/
theorem removeEntries_spec (element : Bytes) (r : Nat) (c : List Bytes) :
    (removeEntries element r c).1.Sublist c ∧
      (removeEntries element r c).1.length + (removeEntries element r c).2 = c.length ∧
      (removeEntries element r c).2 ≤ r := by
  induction c generalizing r with
  | nil => simp [removeEntries]
  | cons x c ih =>
    rw [removeEntries]
    by_cases hx : 0 < r ∧ x = element
    · obtain ⟨hsub, hlen, hle⟩ := ih (r - 1)
      simp only [if_pos hx]
      refine ⟨hsub.cons _, ?_, ?_⟩
      · rw [length_cons]
        omega
      · omega
    · obtain ⟨hsub, hlen, hle⟩ := ih r
      simp only [if_neg hx]
      refine ⟨hsub.cons_cons x, ?_, hle⟩
      simp only [length_cons]
      omega

theorem removeEntriesDir_spec (forward : Bool) (element : Bytes) (r : Nat) (c : List Bytes) :
    (removeEntriesDir forward element r c).1.Sublist c ∧
      (removeEntriesDir forward element r c).1.length +
        (removeEntriesDir forward element r c).2 = c.length ∧
      (removeEntriesDir forward element r c).2 ≤ r := by
  unfold removeEntriesDir
  cases forward with
  | true => exact removeEntries_spec element r c
  | false =>
    obtain ⟨hsub, hlen, hle⟩ := removeEntries_spec element r c.reverse
    refine ⟨?_, ?_, hle⟩
    · simpa using hsub.reverse
    · simpa using hlen

/-- A scan that dropped nothing kept everything. -/
theorem removeEntriesDir_eq_self (h : (removeEntriesDir forward element r c).2 = 0) :
    (removeEntriesDir forward element r c).1 = c := by
  obtain ⟨hsub, hlen, -⟩ := removeEntriesDir_spec forward element r c
  exact hsub.eq_of_length (by omega)

section Orient

variable (forward : Bool) (element : Bytes) (cells : List (Nat × List Bytes))

/-- The cells in chain order, from the order in which a scan visits them. -/
def orient (forward : Bool) (cells : List (Nat × List Bytes)) : List (Nat × List Bytes) :=
  if forward then cells else cells.reverse

/-- The elements in the order in which a scan visits them. -/
def visited (forward : Bool) (cells : List (Nat × List Bytes)) : List Bytes :=
  cells.flatMap fun cell => if forward then cell.2 else cell.2.reverse

theorem removeCells_zero : removeCells forward element 0 cells = cells := by
  induction cells with
  | nil => rfl
  | cons cell cells ih =>
    cases forward <;> simp [removeCells, removeEntriesDir, ih]

/-- **The scan over the chunks is the scan over the elements.** -/
theorem visited_removeCells (r : Nat) : visited forward (removeCells forward element r cells) =
      (removeEntries element r (visited forward cells)).1 := by
  induction cells generalizing r with
  | nil => rfl
  | cons cell cells ih =>
    simp only [visited, removeCells, removeEntriesDir, flatMap_cons, removeEntries_append] at ih ⊢
    rw [ih]
    cases forward <;> simp

theorem visited_false_reverse : visited false cells.reverse = (flat cells).reverse := by
  induction cells with
  | nil => rfl
  | cons cell cells ih =>
    simp only [visited, Bool.false_eq_true, if_false, reverse_cons, flatMap_append, flatMap_cons,
      flatMap_nil, append_nil, flat_cons, reverse_append] at ih ⊢
    rw [ih]

theorem lastId_reverse : lastId none cells.reverse = firstId cells none := by
  cases cells with
  | nil => rfl
  | cons cell cells => simp

theorem orient_orient : orient forward (orient forward cells) = cells := by
  cases forward <;> simp [orient]

theorem firstId_orient : firstId (orient forward cells) none =
    if forward then firstId cells none else lastId none cells := by
  cases forward with
  | true => rfl
  | false =>
    rw [← lastId_reverse]
    simp [orient]

theorem visited_orient : visited forward (orient forward cells) =
    if forward then flat cells else (flat cells).reverse := by
  cases forward with
  | true => rfl
  | false => exact visited_false_reverse cells

theorem flat_orient : flat (orient forward cells) =
    if forward then visited forward cells else (visited forward cells).reverse := by
  cases forward with
  | true => rfl
  | false =>
    have h := visited_false_reverse cells.reverse
    rw [reverse_reverse] at h
    simp [orient, h]

theorem length_flat_orient :
    (flat (orient forward cells)).length = (visited forward cells).length := by
  rw [flat_orient]
  split <;> simp

end Orient

/-- The focus of a scan, with the link that the scan follows. -/
theorem Linked.visitNode (h : Linked q (orient forward (done ++ (p, c) :: rest))) :
    ∃ n, q.arena.get p = some n ∧ nodeView.holds n c ∧
      (if forward then n.next else n.prev) = firstId rest none := by
  cases forward with
  | true =>
    obtain ⟨n, hget, hn, -, hnext⟩ := Linked.node h
    exact ⟨n, hget, hn, hnext⟩
  | false =>
    simp only [orient, reverse_append, reverse_cons, append_assoc] at h
    obtain ⟨n, hget, hn, hprev, -⟩ := h.node
    refine ⟨n, hget, hn, ?_⟩
    rw [← lastId_reverse]
    exact hprev

theorem Linked.visitUpdate
    (h : Linked q (orient forward (done ++ (p, c) :: rest))) {d : List Bytes} (hd : ShortChunk d) :
    ∃ arena, q.updateNode p (encodeNodeEntries · d) = some { q with arena := arena } ∧
      Linked { q with arena := arena } (orient forward (done ++ (p, d) :: rest)) := by
  cases forward with
  | true => exact Linked.updateNode h fun n _ _ => ⟨nodeView_holds_encode n hd, rfl, rfl⟩
  | false =>
    simp only [orient, reverse_append, reverse_cons, append_assoc] at h ⊢
    exact h.updateNode fun n _ _ => ⟨nodeView_holds_encode n hd, rfl, rfl⟩

/-- **The outer loop of `remove`**, from any node on: it rewrites the chunks it visits and touches
no link. -/
theorem Linked.removeFrom
    (h : Linked q (orient forward (done ++ rest))) (hfuel : rest.length ≤ fuel)
    (remaining removed : Nat) :
    ∃ q', removeFrom forward element fuel q (firstId rest none) remaining removed =
        some (q', removed + (removeEntries element remaining (visited forward rest)).2) ∧
      Linked q' (orient forward (done ++ removeCells forward element remaining rest)) ∧
      q'.len = q.len - (removeEntries element remaining (visited forward rest)).2 ∧
      q'.fill = q.fill := by
  induction rest generalizing q done fuel remaining removed with
  | nil => exact ⟨q, by simp [removeFrom, visited, removeEntries], h, by
      simp [visited, removeEntries], rfl⟩
  | cons cell rest ih =>
    obtain ⟨p, c⟩ := cell
    obtain ⟨fuel, rfl, hfuel'⟩ := exists_fuel hfuel
    by_cases hzero : remaining = 0
    · subst hzero
      refine ⟨q, ?_, ?_, by simp, rfl⟩
      · simp [removeFrom]
      · rw [removeCells_zero]
        exact h
    obtain ⟨n, hget, hn, hlink⟩ := h.visitNode
    have hdecode : decodeAllEntries n = c := (actsAsList_of_holds hn).decode
    set kept := (removeEntriesDir forward element remaining c).1 with hkept
    set here := (removeEntriesDir forward element remaining c).2 with hhere
    -- after this node the state is the same up to the node's chunk and the length
    obtain ⟨q₁, hstep, hrepr₁, hlen₁, hfill₁⟩ : ∃ q₁,
        q.storeKept p kept here = some q₁ ∧
          Linked q₁ (orient forward ((done ++ [(p, kept)]) ++ rest)) ∧
          q₁.len = q.len - here ∧ q₁.fill = q.fill := by
      by_cases hpos : here > 0
      · have hshort : ShortChunk kept :=
          hn.2.2.sublist (removeEntriesDir_spec forward element remaining c).1
        obtain ⟨arena, hupd, hrepr⟩ := h.visitUpdate hshort
        refine ⟨{ q with arena := arena, len := q.len - here }, ?_, ?_, rfl, rfl⟩
        · rw [storeKept, if_pos hpos, hupd]
          rfl
        · simpa using hrepr.setLen (q.len - here)
      · have hsame : kept = c := removeEntriesDir_eq_self (Nat.eq_zero_of_not_pos hpos)
        refine ⟨q, by rw [storeKept, if_neg hpos], by simpa [hsame] using h, by omega, rfl⟩
    obtain ⟨q', hrun, hrepr', hlen', hfill'⟩ := ih hrepr₁
      hfuel' (remaining - here) (removed + here)
    have hcount : (removeEntries element remaining (visited forward ((p, c) :: rest))).2 =
        here + (removeEntries element (remaining - here) (visited forward rest)).2 := by
      cases forward <;>
        simp [visited, removeEntries_append, hhere, removeEntriesDir]
    refine ⟨q', ?_, ?_, ?_, hfill'.trans hfill₁⟩
    · simp only [firstId_cons, removeFrom, if_neg hzero, hget, some_bind, hdecode, ← hkept, ← hhere,
        hstep, hlink, hrun, hcount, Nat.add_assoc]
    · simpa [removeCells] using hrepr'
    · rw [hlen', hlen₁, hcount, Nat.sub_sub]

/-! ## The clean-up after a removal -/

/-- No non-empty node may merge with its successor. -/
def MergeFree (fill : Int) (cells : List (Nat × List Bytes)) : Prop :=
  cells.IsChain fun x y => x.2 ≠ [] → fill / 2 < (x.2.length : Int) + y.2.length
deriving Decidable

/-- Dropping an empty node keeps its neighbours apart: the one before was too long to merge with
nothing at all. -/
theorem MergeFree.erase_empty {fill : Int} (h : MergeFree fill (xs ++ (p, []) :: ys)) :
    MergeFree fill (xs ++ ys) := by
  unfold MergeFree at h ⊢
  rw [isChain_append] at h ⊢
  obtain ⟨hxs, hrest, hlink⟩ := h
  refine ⟨hxs, hrest.tail, fun x hx y _ hne => ?_⟩
  have hself := hlink x hx (p, []) (by simp) hne
  simp only [length_nil] at hself
  omega

/-- Where nothing may merge, cleaning up a non-empty node changes nothing. -/
theorem Linked.cleanup_noop (h : Linked q (xs ++ (p, c) :: ys)) (hfill : q.fill < 2 ^ 16)
    (hc : c ≠ []) (hxs : ∀ cell ∈ xs, cell.2 ≠ [])
    (hfree : MergeFree q.fill (xs ++ (p, c) :: ys)) : q.cleanupAfterMutation p = some q := by
  obtain ⟨n, hget, hn, hprev, -⟩ := h.node
  have hnz : n.count ≠ 0 := by
    rw [show n.count = c.length from hn.2.1]
    exact fun e => hc (length_eq_zero_iff.1 e)
  unfold MergeFree at hfree
  rw [isChain_append] at hfree
  obtain ⟨-, hafter, hbefore⟩ := hfree
  have hmerge : q.tryMergeWithNext p = some q := by
    obtain ⟨q₁, hrun, -, -, ⟨rfl, -⟩ | ⟨r, d, ys', rfl, hsmall, -⟩⟩ :=
      h.tryMergeWithNext hfill h.divisible
    · exact hrun
    · have hbig := (isChain_cons_cons.1 hafter).1 hc
      exact absurd hsmall (not_le.2 hbig)
  -- the predecessor is non-empty, so it does not merge with this node either
  have hmergePrev : ∀ o, lastId none xs = some o → q.tryMergeWithNext o = some q := by
    intro o ho
    induction xs using List.reverseRecOn with
    | nil => simp at ho
    | append_singleton front cell _ =>
      obtain ⟨o', b⟩ := cell
      obtain rfl : o' = o := by simpa using ho
      have hsplit : (front ++ [(o', b)]) ++ (p, c) :: ys = front ++ (o', b) :: (p, c) :: ys := by
        simp
      rw [hsplit] at h
      obtain ⟨q₁, hrun, -, -, ⟨rfl, -⟩ | ⟨r, d, ys', hcons, hsmall, -⟩⟩ :=
        h.tryMergeWithNext hfill h.divisible
      · exact hrun
      · obtain ⟨⟨rfl, rfl⟩, rfl⟩ := by simpa using hcons
        have hbig := hbefore (o', b) (by simp) (p, c) (by simp) (hxs (o', b) (by simp))
        exact absurd hsmall (not_le.2 hbig)
  simp only [QuickList.cleanupAfterMutation, hget, some_bind, if_neg hnz, hmerge]
  cases hlast : lastId none xs with
  | none => simp [hprev, hlast]
  | some o => simp [hprev, hlast, hmergePrev o hlast]

/-- **`compress_empty_and_merge` on a chain where nothing may merge** drops the empty nodes and
touches live nodes only. -/
theorem Linked.compressFrom (h : Linked q (done ++ rest))
    (hfill : q.fill < 2 ^ 16) (hdone : ∀ cell ∈ done, cell.2 ≠ [])
    (hfree : MergeFree q.fill (done ++ rest)) (hfuel : rest.length ≤ fuel) :
    ∃ q', compressFrom fuel q (firstId rest none) = some q' ∧
      Linked q' (done ++ rest.filter fun cell => cell.2 ≠ []) ∧ q'.len = q.len ∧
      q'.fill = q.fill := by
  induction rest generalizing q done fuel with
  | nil => exact ⟨q, by simp [compressFrom], h, rfl, rfl⟩
  | cons cell rest ih =>
    obtain ⟨p, c⟩ := cell
    obtain ⟨fuel, rfl, hfuel'⟩ := exists_fuel hfuel
    obtain ⟨n, hget, hn, -, hnext⟩ := h.node
    by_cases hc : c = []
    · -- an emptied node is unlinked; the saved successor stays live
      subst hc
      obtain ⟨q₁, hunlink, hrepr₁, hlen₁, hfill₁⟩ := h.unlinkNode
      have hclean : q.cleanupAfterMutation p = some q₁ := by
        simpa [QuickList.cleanupAfterMutation, hget, show n.count = 0 from hn.2.1] using hunlink
      obtain ⟨q', hrun, hrepr', hlen', hfill'⟩ := ih hrepr₁ (hfill₁ ▸ hfill) hdone
        (hfill₁ ▸ hfree.erase_empty) hfuel'
      refine ⟨q', ?_, by simpa using hrepr', hlen'.trans hlen₁, hfill'.trans hfill₁⟩
      simp [compressFrom, hget, hclean, hnext, hrun]
    have hclean := h.cleanup_noop hfill hc hdone hfree
    have hsplit : done ++ (p, c) :: rest = (done ++ [(p, c)]) ++ rest := by simp
    have hdone' : ∀ cell ∈ done ++ [(p, c)], cell.2 ≠ [] :=
      forall_mem_append.2 ⟨hdone, forall_mem_singleton.2 hc⟩
    rw [hsplit] at h hfree
    obtain ⟨q', hrun, hrepr', hlen', hfill'⟩ := ih h hfill hdone' hfree hfuel'
    refine ⟨q', ?_, by simpa [hc] using hrepr', hlen', hfill'⟩
    simp [compressFrom, hget, hclean, hnext, hrun]

theorem flat_filter_nonempty (cells : List (Nat × List Bytes)) :
    flat (cells.filter fun cell => cell.2 ≠ []) = flat cells := by
  induction cells with
  | nil => rfl
  | cons cell cells ih =>
    by_cases hcell : cell.2 = []
    · simpa [hcell] using ih
    · simpa [hcell] using ih

/-! ## `remove` -/

theorem iterate_erase_cons_of_ne {x : Bytes} (hne : x ≠ e) (n : Nat) (l : List Bytes) :
    (fun l : List Bytes => l.erase e)^[n] (x :: l) =
      x :: (fun l : List Bytes => l.erase e)^[n] l := by
  have hcons : Semiconj (x :: ·) (fun l : List Bytes => l.erase e) (·.erase e) :=
    fun l => (erase_cons_tail (by simpa using hne)).symm
  exact (hcons.iterate_right n l).symm

/-- The scan erases the first `n` occurrences. -/
theorem removeEntries_eq (e : Bytes) (n : Nat) (l : List Bytes) : removeEntries e n l =
      ((fun l : List Bytes => l.erase e)^[n] l, min n (l.count e)) := by
  induction l generalizing n with
  | nil =>
    have hnil : (fun l : List Bytes => l.erase e)^[n] [] = [] := iterate_fixed (erase_nil e) n
    simp [removeEntries, hnil]
  | cons x l ih =>
    rw [removeEntries]
    by_cases hx : x = e
    · subst hx
      rcases n with _ | n
      · simp [ih]
      simp only [Nat.zero_lt_succ, true_and, if_true, ih,
        iterate_succ_apply, erase_cons_head, count_cons_self]
      congr 1
      omega
    · simp only [hx, and_false, if_false, ih, iterate_erase_cons_of_ne hx, count_cons_of_ne hx]

/-- How many occurrences `remove` may drop: `count = 0` stands for all, that is `i64::MAX`. -/
def removeLimit (count : Int) : Nat := if count = 0 then 2 ^ 63 - 1 else count.natAbs

/-- What `remove` does to a list: the first occurrences go, or the last ones if the count is
negative. -/
def listRemove (l : List Bytes) (count : Int) (e : Bytes) : List Bytes × Nat :=
  let eraseFirst := (fun l : List Bytes => l.erase e)^[removeLimit count]
  (if 0 ≤ count then eraseFirst l else (eraseFirst l.reverse).reverse,
    min (removeLimit count) (l.count e))

/-- The chain `remove` has before its clean-up. -/
def cellsAfterRemove (cells : List (Nat × List Bytes)) (count : Int) (e : Bytes) :
    List (Nat × List Bytes) :=
  let forward : Bool := count ≥ 0
  orient forward (removeCells forward e (removeLimit count) (orient forward cells))

/-- The call is safe: the count has an absolute value in `i64`, and if anything is removed, no node
of the chain may then merge with its successor. -/
def RemoveSafe (q : QuickList) (count : Int) (e : Bytes) : Prop :=
  count ≠ -2 ^ 63 ∧ ∀ cells ∈ q.nodes,
    e ∉ flat cells ∨ MergeFree q.fill (cellsAfterRemove cells count e)
deriving Decidable

theorem mem_orient : cell ∈ orient forward cells ↔ cell ∈ cells := by
  cases forward <;> simp [orient]

/-- Every chunk after the scan is what is left of a chunk before it. -/
theorem mem_removeCells (h : cell ∈ removeCells forward e r cells) :
    ∃ c, (cell.1, c) ∈ cells ∧ cell.2.length ≤ c.length := by
  induction cells generalizing r with
  | nil => simp [removeCells] at h
  | cons first cells ih =>
    obtain ⟨p, c⟩ := first
    rcases mem_cons.1 h with rfl | h
    · exact ⟨c, by simp, (removeEntriesDir_spec forward e r c).1.length_le⟩
    · obtain ⟨d, hd, hle⟩ := ih h
      exact ⟨d, mem_cons_of_mem _ hd, hle⟩

/-- A scan over elements that are all different changes no chunk. -/
theorem removeCells_eq_self (h : e ∉ visited forward cells) :
    removeCells forward e r cells = cells := by
  induction cells generalizing r with
  | nil => rfl
  | cons cell cells ih =>
    obtain ⟨p, c⟩ := cell
    simp only [visited, flatMap_cons, mem_append, not_or] at h
    have hcount : (removeEntriesDir forward e r c).2 = 0 := by
      cases forward <;> simp_all [removeEntriesDir, removeEntries_eq, count_eq_zero]
    simp only [removeCells, removeEntriesDir_eq_self hcount]
    rw [ih h.2]

theorem flat_cellsAfterRemove (cells : List (Nat × List Bytes)) (count : Int) (e : Bytes) :
    flat (cellsAfterRemove cells count e) = (listRemove (flat cells) count e).1 := by
  rw [cellsAfterRemove, flat_orient, visited_removeCells, visited_orient, removeEntries_eq,
    listRemove]
  by_cases hcount : 0 ≤ count <;> simp [hcount]

/-- **`remove` erases the first, or last, occurrences**, where it is safe. -/
theorem Inv.remove (h : Inv q l) {count : Int} (hsafe : RemoveSafe q count e) :
    ∃ q', q.remove count e = some (q', (listRemove l count e).2) ∧
      Inv q' (listRemove l count e).1 ∧ q'.fill = q.fill := by
  obtain ⟨cells, hinv, rfl⟩ := h
  obtain ⟨hmin, hmerge⟩ := hsafe
  specialize hmerge cells hinv.linked.nodes
  rcases hhead : q.head with _ | first
  · have hnil : firstId cells none = none := hinv.linked.head.symm.trans hhead
    cases cells with
    | nil =>
      refine ⟨q, ?_, ⟨[], hinv, ?_⟩, rfl⟩
      · simp [remove, hhead, listRemove]
      · rw [← flat_cellsAfterRemove]
        simp [cellsAfterRemove, orient, removeCells]
    | cons cell cells => cases hnil
  set forward : Bool := decide (count ≥ 0) with hforward
  have hlimit : (if count = 0 then 2 ^ 63 - 1 else i64Abs count : Int).toNat =
      removeLimit count := by
    unfold removeLimit i64Abs
    by_cases hzero : count = 0
    · rw [if_pos hzero, if_pos hzero]
      rfl
    · rw [if_neg hzero, if_neg hzero, if_neg hmin]
      rw [Int.abs_eq_natAbs]
      exact Int.toNat_natCast _
  have hrepr : Linked q (orient forward ([] ++ orient forward cells)) := by
    rw [nil_append, orient_orient]
    exact hinv.linked
  have hstart : (if forward then q.head else q.tail) = firstId (orient forward cells) none := by
    rw [firstId_orient, hinv.linked.head, hinv.linked.tail]
  have hlen : (orient forward cells).length ≤ q.arena.size := by
    have := hinv.linked.length_le_size
    cases forward <;> simpa [orient] using this
  have hremoved : (removeEntries e (removeLimit count)
      (visited forward (orient forward cells))).2 = (listRemove (flat cells) count e).2 := by
    rw [visited_orient, removeEntries_eq, listRemove]
    cases forward <;> simp
  obtain ⟨q₁, hrun, hrepr₁, hlen₁, hfill₁⟩ := hrepr.removeFrom hlen (removeLimit count) 0
  rw [hremoved] at hrun hlen₁
  replace hrepr₁ : Linked q₁ (cellsAfterRemove cells count e) := hrepr₁
  have hflat := flat_cellsAfterRemove cells count e
  have hlist : q₁.len = (listRemove (flat cells) count e).1.length := by
    have hspec := (removeEntries_spec e (removeLimit count)
      (visited forward (orient forward cells))).2.1
    rw [hremoved, ← visited_removeCells, ← length_flat_orient, ← length_flat_orient,
      orient_orient] at hspec
    replace hspec : (flat (cellsAfterRemove cells count e)).length +
      (listRemove (flat cells) count e).2 = (flat cells).length := hspec
    rw [hlen₁, hinv.len, ← hflat]
    omega
  have hchunks : ∀ cell ∈ cellsAfterRemove cells count e, (cell.2.length : Int) ≤ q.fill := by
    intro cell hcell
    obtain ⟨c, hc, hle⟩ := mem_removeCells (mem_orient.1 hcell)
    have := (hinv.packed _ (mem_orient.1 hc)).2
    simp only at this
    omega
  by_cases hnone : e ∈ flat cells
  · -- something is removed, and the clean-up runs on a chain where nothing merges
    have hpos : (listRemove (flat cells) count e).2 > 0 := by
      have hcount : 0 < (flat cells).count e := count_pos_iff.2 hnone
      have hlim : 0 < removeLimit count := by
        unfold removeLimit
        split <;> omega
      show 0 < min _ _
      omega
    have hfree : MergeFree q₁.fill ([] ++ cellsAfterRemove cells count e) := by
      rw [hfill₁]
      exact hmerge.resolve_left (not_not.2 hnone)
    have hmax : q₁.fill < 2 ^ 16 := by
      rw [hfill₁]
      exact Int.lt_of_le_of_lt hinv.fillMax (by norm_num)
    obtain ⟨q', hcompress, hrepr', hlen', hfill'⟩ := Linked.compressFrom
      (show Linked q₁ ([] ++ cellsAfterRemove cells count e) from hrepr₁) hmax (by simp) hfree
      hrepr₁.length_le_size
    rw [← hrepr₁.head] at hcompress
    rw [nil_append] at hrepr'
    have hqfill : q'.fill = q.fill := hfill'.trans hfill₁
    refine ⟨q', ?_, ⟨_, ⟨hrepr', ?_, ?_, hqfill ▸ hinv.fillPos, hqfill ▸ hinv.fillMax⟩,
      (flat_filter_nonempty _).trans hflat⟩, hqfill⟩
    · simp only [remove, hhead]
      rw [hlimit, ← hhead, hstart, hrun]
      simp [hpos, compressEmptyAndMerge, hcompress]
    · intro cell hcell
      obtain ⟨hcell, hne⟩ := mem_filter.1 hcell
      exact ⟨by simpa using hne, hqfill ▸ hchunks cell hcell⟩
    · rw [hlen', flat_filter_nonempty, hflat, hlist]
  · -- nothing to remove: the chunks are unchanged
    have hzero : (listRemove (flat cells) count e).2 = 0 := by
      show min _ _ = 0
      rw [count_eq_zero.2 hnone]
      omega
    have hsame : cellsAfterRemove cells count e = cells := by
      have hvis : e ∉ visited forward (orient forward cells) := by
        rw [visited_orient]
        cases forward <;> simpa using hnone
      rw [cellsAfterRemove, removeCells_eq_self hvis, orient_orient]
    refine ⟨q₁, ?_, ⟨cells, ⟨hsame ▸ hrepr₁, hfill₁ ▸ hinv.packed, ?_, hfill₁ ▸ hinv.fillPos,
      hfill₁ ▸ hinv.fillMax⟩, ?_⟩, hfill₁⟩
    · simp only [remove, hhead]
      rw [hlimit, ← hhead, hstart, hrun]
      simp [hzero]
    · rw [hlist, ← hflat, hsame]
    · rw [← hflat, hsame]

/-! ## Positions -/

/-- The positions `pos` reports, from the front or, for a negative rank, from the back: of the
first `maxlen` elements (0 means all) the matching ones, from the `|rank|`-th match on, and at most
`count` of them (0 means all). -/
def listPositions (l : List Bytes) (element : Bytes) (rank : Int) (count maxlen : Nat) :
    List Nat :=
  if rank = 0 then []
  else
    let order := if rank > 0 then l.zipIdx else l.zipIdx.reverse
    let scanned := if maxlen = 0 then order else order.take maxlen
    let hits := (scanned.filter fun entry => entry.1 = element).map Prod.snd
    let hits := hits.drop (rank.natAbs - 1)
    if count = 0 then hits else hits.take count

theorem foldl_visit_done {s : PosScan} (hs : s.done = true) (entries : List (Bytes × Nat)) :
    entries.foldl (fun s entry => s.visit element target count entry.2 entry.1) s = s := by
  induction entries with
  | nil => rfl
  | cons entry entries ih =>
    rw [foldl_cons, PosScan.visit, if_pos (Or.inl hs), ih]

/-- **A scan reports the matches from the wanted rank on**, as many as are still wanted. The
invariant of the induction is that an unfinished scan still has room for a result. -/
theorem foldl_visit_out (entries : List (Bytes × Nat))
    (s : PosScan) (hs : s.done = false) (hroom : count ≠ 0 → s.out.length < count) :
    (entries.foldl (fun s entry => s.visit element target count entry.2 entry.1) s).out = s.out ++
        let hits := ((entries.filter fun entry => entry.1 = element).map Prod.snd).drop
          (target - 1 - s.matchesSeen)
        if count = 0 then hits else hits.take (count - s.out.length) := by
  induction entries generalizing s with
  | nil => simp
  | cons entry entries ih =>
    obtain ⟨value, index⟩ := entry
    rw [foldl_cons]
    by_cases hvalue : value = element
    · subst hvalue
      simp only [filter_cons, decide_true, if_true, map_cons]
      by_cases hrank : s.matchesSeen + 1 ≥ target
      · have hvisit : s.visit value target count index value =
            { matchesSeen := s.matchesSeen + 1, out := s.out ++ [index],
              done := count ≠ 0 ∧ (s.out ++ [index]).length ≥ count } := by
          simp [PosScan.visit, hs, hrank]
        rw [hvisit, show target - 1 - s.matchesSeen = 0 by omega]
        by_cases hfull : count ≠ 0 ∧ (s.out ++ [index]).length ≥ count
        · -- this result was the last one wanted
          rw [foldl_visit_done (by simpa using hfull)]
          have hone : count - s.out.length = 1 := by
            have := hfull.2
            simp only [length_append, length_singleton] at this
            omega
          simp [hfull.1, hone]
        have hnot : decide (count ≠ 0 ∧ (s.out ++ [index]).length ≥ count) = false := by
          simpa using hfull
        rw [hnot, ih _ rfl fun hc => by
          have : ¬ (s.out ++ [index]).length ≥ count := fun h => hfull ⟨hc, h⟩
          exact Nat.lt_of_not_le this]
        rw [show target - 1 - (s.matchesSeen + 1) = 0 by omega]
        by_cases hc : count = 0
        · simp [hc]
        · have hstep : count - s.out.length = (count - (s.out ++ [index]).length) + 1 := by
            simp only [length_append, length_singleton]
            omega
          simp [hc, hstep]
      · have hvisit : s.visit value target count index value =
            { s with matchesSeen := s.matchesSeen + 1 } := by
          simp [PosScan.visit, hs, hrank]
        rw [hvisit, ih { s with matchesSeen := s.matchesSeen + 1 } hs hroom]
        rw [show target - 1 - s.matchesSeen = (target - 1 - (s.matchesSeen + 1)) + 1 by omega,
          drop_succ_cons]
    · have hvisit : s.visit element target count index value = s := by
        simp [PosScan.visit, hvalue]
      rw [hvisit, ih s hs hroom]
      simp [hvalue]

/-- The backward loop visits the elements from the last one on. -/
theorem Inv.posBackward (h : Inv q l) {left scanned : Nat}
    {s : PosScan} (hs : s.done = false) (hle : scanned + left ≤ l.length) :
    q.posBackward element target count left scanned s =
      some (((l.zipIdx.reverse.drop scanned).take left).foldl
        (fun s entry => s.visit element target count entry.2 entry.1) s) := by
  induction left generalizing scanned s with
  | zero => simp [QuickList.posBackward]
  | succ left ih =>
    set k := l.length - 1 - scanned with hk
    have hlt : k < l.length := by omega
    have hscan : scanned < l.zipIdx.reverse.length := by
      simp only [length_reverse, length_zipIdx]
      omega
    have hat : l.zipIdx.reverse[scanned] = (l[k], k) := by
      rw [getElem_reverse, getElem_zipIdx]
      simp [hk]
    have hlen : q.len - 1 - scanned = k := by rw [h.len]
    rw [drop_eq_getElem_cons hscan, take_succ_cons, foldl_cons, hat, QuickList.posBackward]
    simp only [hlen, h.index_natCast hlt, getElem?_eq_getElem hlt, some_bind]
    by_cases hdone : (s.visit element target count k l[k]).done = true
    · rw [if_pos hdone, foldl_visit_done hdone]
    · rw [if_neg hdone, ih (by simpa using hdone) (by omega)]

theorem zipIdx_take (l : List Bytes) (n k : Nat) : (l.take n).zipIdx k = (l.zipIdx k).take n := by
  induction l generalizing n k with
  | nil => simp
  | cons x l ih => cases n <;> simp [zipIdx_cons, ih]

/-- **`pos` reports the positions of the list.** -/
theorem Inv.pos (h : Inv q l) (element : Bytes) (rank : Int) (count maxlen : Nat) :
    q.pos element rank count maxlen = some (listPositions l element rank count maxlen) := by
  unfold QuickList.pos listPositions
  by_cases hrank : rank = 0
  · simp [hrank]
  rw [if_neg hrank]
  by_cases hnil : l = []
  · have hzero : q.len = 0 := by rw [h.len, hnil, length_nil]
    simp [hzero, hnil]
  have hlen : q.len ≠ 0 := by
    rw [h.len]
    exact fun e => hnil (length_eq_zero_iff.1 e)
  rw [if_neg (by simp [hlen, hrank])]
  -- clamping the scan to the length changes nothing
  have hclamp : ∀ order : List (Bytes × Nat), order.length = l.length →
      order.take (if maxlen = 0 then q.len else min maxlen q.len) =
        if maxlen = 0 then order else order.take maxlen := by
    intro order horder
    rw [h.len, ← horder]
    split
    · exact take_length
    · rw [take_eq_take_iff]
      omega
  have hlimit : (if maxlen = 0 then q.len else min maxlen q.len) ≤ l.length := by
    rw [← h.len]
    split
    · exact Nat.le_refl _
    · exact Nat.min_le_right _ _
  have hroom : count ≠ 0 → ({} : PosScan).out.length < count := by
    intro hc
    simpa using Nat.pos_of_ne_zero hc
  by_cases hpos : rank > 0
  · simp only [if_pos hpos, h.iter, some_bind, zipIdx_take]
    rw [hclamp l.zipIdx (by simp), foldl_visit_out _ _ rfl hroom]
    simp
  · simp only [if_neg hpos]
    rw [h.posBackward rfl (by simpa using hlimit)]
    simp only [some_bind, drop_zero]
    rw [hclamp l.zipIdx.reverse (by simp), foldl_visit_out _ _ rfl hroom]
    simp

end Senko.QuickList
