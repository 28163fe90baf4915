import Senko.Core.ZSet.BPTreeShape

/-!
# Senko — insertion into the B+tree

One specification per function, from the leaf up. A call that inserts `x` below a node turns the
part `P` of that node into one part or, after a split, into two parts with a separator between
them: `Inserted` says so once for leaves and inner nodes. The leaf list is carried along with an
arbitrary left and right context, since a split also rewrites the leaf that follows.

`insertRecursive_spec` is the induction on the height, and `TreeInv.insertNewEntry` its use at the
root.
-/

namespace Senko

open ZSetEntry List Arena

variable {lm rm : Option NodeId} {split : Option (EntryKey × NodeId)} {inner : InnerNode}
  {leaf : LeafNode} {get get' : NodeId → Option Node} {sep : EntryKey} {t : BPTree}
  {id new : NodeId} {pre post : List (NodeId × List ZSetEntry)} {es left right : List ZSetEntry}
  {P C : BPTree.Part} {x : ZSetEntry} {h : Nat} {a a₁ a₂ : NodeArena}
  {keys keys₁ keys₂ : List EntryKey} {parts ps₁ ps₂ outs : List BPTree.Part}

namespace BPTree

/-- What a call that owns the nodes `owned` leaves alone: all other nodes, up to leaf links. -/
structure Extends (a a' : NodeArena) (owned : List NodeId) : Prop where
  size_le : a.slots.size ≤ a'.slots.size
  freeList_eq : a'.freeList = []
  same : ∀ q, q ∉ owned → q < a.slots.size → SameNode a.get a'.get q

theorem SubTree.lt_size {q : NodeId} (hsub : SubTree a.get h P) (hq : q ∈ P.ids) :
    q < a.slots.size := by
  obtain ⟨n, hn⟩ := hsub.live q hq
  exact lt_size_of_get hn

/-! ## Leaves -/

theorem Leaves.next_mid (hleaves : Leaves get lm rm (pre ++ (id, leaf.entries) :: post))
    (hget : get id = some (.leaf leaf)) : leaf.next = firstId post none := by
  obtain ⟨leaf', hget', -, -, hnext⟩ := hleaves.get_mid
  rw [hget] at hget'
  cases hget'
  exact hnext

/-- The new leaf `rightId` becomes the back link of the leaf after it, or the rightmost leaf. -/
theorem linkRight_eq (rightId : NodeId) (post : List (NodeId × List ZSetEntry))
    (hpost : ∀ q, firstId post none = some q → ∃ leaf, t.arena.get q = some (.leaf leaf))
    (hright : t.rightmost = lastId t.rightmost post) :
    ∃ (a : NodeArena) (r : Option NodeId),
      t.linkRight rightId (firstId post none) = some { t with arena := a, rightmost := r } ∧
      r = lastId (some rightId) post ∧ a.freeList = t.arena.freeList ∧
      a.slots.size = t.arena.slots.size ∧
      (∀ q, firstId post none ≠ some q → a.get q = t.arena.get q) ∧
      ∀ q leaf, firstId post none = some q → t.arena.get q = some (.leaf leaf) →
        a.get q = some (.leaf { leaf with prev := some rightId }) := by
  rcases post with _ | ⟨c, post⟩
  · exact ⟨t.arena, some rightId, rfl, rfl, rfl, rfl, by simp, by simp⟩
  obtain ⟨leaf, hleaf⟩ := hpost c.1 rfl
  obtain ⟨a, ha, hfree, hsize, hget⟩ :=
    setNode_eq hleaf (.leaf { leaf with prev := some rightId })
  refine ⟨a, t.rightmost, ?_, hright, hfree, hsize, ?_, ?_⟩
  · show t.leafMut c.1 _ = _
    rw [leafMut_eq hleaf, some_bind, ha]
  · intro q hq
    rw [hget, if_neg]
    rintro rfl
    exact hq rfl
  · intro q leaf' hq hleaf'
    obtain rfl : c.1 = q := by simpa using hq
    rw [hleaf] at hleaf'
    cases hleaf'
    rw [hget, if_pos rfl]

/-- The heap after the leaf `id` was split: its entries are now `left`, the new leaf `new` holds
`right`, and the leaf that followed `id` points back at `new`. -/
structure LeafSplit (get get' : NodeId → Option Node) (id new : NodeId) (leaf : LeafNode)
    (left right : List ZSetEntry) : Prop where
  left_eq : get' id = some (.leaf { leaf with entries := left, next := some new })
  right_eq : get' new =
    some (.leaf { entries := right, next := leaf.next, prev := some id })
  next_eq : ∀ q l, leaf.next = some q → get q = some (.leaf l) →
    get' q = some (.leaf { l with prev := some new })
  same : ∀ q, q ≠ id → q ≠ new → leaf.next ≠ some q → get' q = get q

section LeafSplits

variable (hs : LeafSplit get get' id new leaf left right) (hget : get id = some (.leaf leaf))
  (hleaves : Leaves get lm rm (pre ++ (id, leaf.entries) :: post))

include hs hget hleaves

/-- After the split the new leaf stands in the leaf list behind the old one. -/
theorem LeafSplit.leaves (hnew : get new = none) :
    Leaves get' lm (lastId (some new) post) (pre ++ (id, left) :: (new, right) :: post) := by
  have hnext := hleaves.next_mid hget
  have hchain : Chain leafView get' none (pre ++ (id, left) :: (new, right) :: post) none := by
    refine hleaves.chain.insert_after hnew ?_ ?_ (hnext ▸ hs.same)
    · intro n hn _
      rw [hget] at hn
      cases hn
      exact ⟨⟨_, hs.left_eq, ⟨_, rfl, rfl⟩, rfl, rfl⟩, _, hs.right_eq, ⟨_, rfl, rfl⟩, rfl, rfl⟩
    · rintro q w n hq hn ⟨l, rfl, hl⟩
      exact ⟨_, hs.next_eq q l (hnext.trans hq) hn, ⟨_, rfl, hl⟩, rfl, rfl⟩
  refine ⟨hchain, ?_, by simp, hchain.nodup⟩
  rw [hleaves.leftmost_eq]
  cases pre <;> rfl

/-- Up to links, only the split leaf has changed. -/
theorem LeafSplit.sameNode {q : NodeId} (hid : q ≠ id) (hnew : q ≠ new) : SameNode get get' q := by
  by_cases hnext : leaf.next = some q
  · have hfirst := hleaves.next_mid hget
    rcases post with _ | ⟨c, post⟩
    · rw [hfirst] at hnext; cases hnext
    obtain rfl : c.1 = q := Option.some.inj (hfirst.symm.trans hnext)
    obtain ⟨l, hl, -⟩ := hleaves.get_of_mem (c := c) (by simp)
    unfold SameNode
    rw [hs.next_eq c.1 l hnext hl, hl]
    rfl
  · exact .of_eq (hs.same q hid hnew hnext)

end LeafSplits

/-- **Splitting a leaf** cuts its entries after the first half and links the rest behind it. -/
theorem splitLeaf_eq {sep : ZSetEntry} (hfree : t.arena.freeList = [])
    (hget : t.arena.get id = some (.leaf leaf))
    (hleaves : Leaves t.arena.get t.leftmost t.rightmost (pre ++ (id, leaf.entries) :: post))
    (hentries : leaf.entries = left ++ sep :: right) (hleft : minLeafItems = left.length) :
    ∃ a : NodeArena,
      t.splitLeaf id = some
        ({ t with arena := a, rightmost := lastId (some t.arena.slots.size) post },
          some (sep, t.arena.slots.size)) ∧
      a.freeList = [] ∧ a.slots.size = t.arena.slots.size + 1 ∧
      LeafSplit t.arena.get a.get id t.arena.slots.size leaf left (sep :: right) := by
  have hnext := hleaves.next_mid hget
  have hid : id < t.arena.slots.size := lt_size_of_get hget
  have hidpost := hleaves.chain.apart.2.1
  have hfirst : ∀ q, firstId post none = some q →
      (∃ l, t.arena.get q = some (.leaf l)) ∧ q ≠ id ∧ q ≠ t.arena.slots.size := by
    intro q hq
    rcases post with _ | ⟨c, post⟩
    · cases hq
    obtain rfl : c.1 = q := Option.some.inj hq
    obtain ⟨l, hl, -⟩ := hleaves.get_of_mem (c := c) (by simp)
    exact ⟨⟨l, hl⟩, fun heq => hidpost (by simp [heq]), (lt_size_of_get hl).ne⟩
  -- the left half keeps its place, the right half gets a new one
  obtain ⟨a₁, ha₁, hfree₁, hsize₁, hget₁⟩ :=
    setNode_eq hget (.leaf { leaf with entries := left, next := none })
  obtain ⟨a₂, ha₂, hfree₂, hsize₂, hget₂⟩ := alloc_eq (t := { t with arena := a₁ })
    (hfree₁.trans hfree) (.leaf { entries := sep :: right, next := leaf.next, prev := some id })
  simp only [hsize₁] at ha₂ hsize₂ hget₂
  have hid₂ : a₂.get id = some (.leaf { leaf with entries := left, next := none }) := by
    rw [hget₂, if_neg hid.ne, hget₁, if_pos rfl]
  obtain ⟨a₃, ha₃, hfree₃, hsize₃, hget₃⟩ :=
    setNode_eq (t := { t with arena := a₂ }) hid₂
      (.leaf { leaf with entries := left, next := some t.arena.slots.size })
  have hsame₃ : ∀ q, q ≠ id → q ≠ t.arena.slots.size → a₃.get q = t.arena.get q := by
    intro q hq hq'
    rw [hget₃, if_neg hq, hget₂, if_neg hq', hget₁, if_neg hq]
  -- the leaf behind is still as it was when its back link is set
  obtain ⟨a₄, r, ha₄, rfl, hfree₄, hsize₄, hsame₄, hfirst₄⟩ :=
    linkRight_eq (t := { t with arena := a₃ }) t.arena.slots.size post
      (by
        intro q hq
        obtain ⟨⟨l, hl⟩, hne, hne'⟩ := hfirst q hq
        exact ⟨l, (hsame₃ q hne hne').trans hl⟩)
      (by
        rw [hleaves.rightmost_eq, lastId_append]
        cases post <;> rfl)
  have hnew₄ : a₄.get t.arena.slots.size =
      some (.leaf { entries := sep :: right, next := leaf.next, prev := some id }) := by
    rw [hsame₄ _ fun hq => (hfirst _ hq).2.2 rfl, hget₃, if_neg hid.ne', hget₂, if_pos rfl]
  refine ⟨a₄, ?_, ?_, ?_, ⟨?_, hnew₄, ?_, ?_⟩⟩
  · unfold splitLeaf
    rw [leaf_eq hget]
    simp only [some_bind, hentries, vecSplitOff_append hleft]
    rw [leafMut_eq hget, some_bind, ha₁, some_bind, ha₂]
    simp only
    rw [leafMut_eq (t := { t with arena := a₂ }) hid₂, some_bind, ha₃, some_bind,
      hnext, ha₄, some_bind, leaf_eq (t := { t with arena := a₄, rightmost := _ }) hnew₄]
    rfl
  · rw [hfree₄, hfree₃, hfree₂]
  · rw [hsize₄, hsize₃, hsize₂]
  · rw [hsame₄ id fun hq => (hfirst id hq).2.1 rfl, hget₃, if_pos rfl]
  · intro q l hq hl
    rw [hnext] at hq
    obtain ⟨-, hne, hne'⟩ := hfirst q hq
    exact hfirst₄ q l hq ((hsame₃ q hne hne').trans hl)
  · intro q hq hq' hne
    rw [hnext] at hne
    rw [hsame₄ q hne]
    exact hsame₃ q hq hq'

/-- Before `x` is inserted below the root of `P`, with the leaves `pre` before and `post` behind
those of `P`. -/
structure Insertable (t : BPTree) (h : Nat) (P : Part) (x : ZSetEntry)
    (pre post : List (NodeId × List ZSetEntry)) : Prop where
  notNan : x.NotNan
  fresh : ∀ e ∈ P.entries, e.ord ≠ x.ord
  sorted : SortedEntries P.entries
  subtree : SubTree t.arena.get h P
  nodup : P.ids.Nodup
  leaves : Leaves t.arena.get t.leftmost t.rightmost (pre ++ P.cells ++ post)
  freeList_eq : t.arena.freeList = []

/-- After `x` was inserted: `P` has become the parts `outs`, one or, with a separator, two. -/
structure Inserted (a a' : NodeArena) (lm rm : Option NodeId) (h : Nat) (P : Part) (x : ZSetEntry)
    (pre post : List (NodeId × List ZSetEntry)) (split : Option (EntryKey × NodeId))
    (outs : List Part) : Prop where
  ids_eq : outs.map Part.id = P.id :: split.toList.map Prod.snd
  notNan : ∀ k ∈ split.toList.map Prod.fst, k.NotNan
  separated : Separated ((split.toList.map Prod.fst).map ord) (outs.map Part.ords)
  subtree : ∀ C ∈ outs, SubTree a'.get h C
  entries : SortedInsert ord x P.entries (outs.flatMap Part.entries)
  leaves : Leaves a'.get lm rm (pre ++ outs.flatMap Part.cells ++ post)
  nodup : (outs.flatMap Part.ids).Nodup
  owned : ∀ q ∈ outs.flatMap Part.ids, q ∈ P.ids ∨ a.slots.size ≤ q
  frame : Extends a a' P.ids

/-- One part without a split, two with one. -/
theorem parts_of_split (h : outs.map Part.id = id :: split.toList.map Prod.snd) :
    (∃ D, split = none ∧ outs = [D] ∧ D.id = id) ∨
      ∃ sep L R, split = some (sep, Part.id R) ∧ outs = [L, R] ∧ L.id = id := by
  cases split with
  | none =>
    obtain ⟨D, rfl⟩ := length_eq_one_iff.1 (by simpa using congrArg List.length h)
    exact Or.inl ⟨D, rfl, rfl, by simpa using h⟩
  | some sr =>
    obtain ⟨L, R, rfl⟩ := length_eq_two.1 (by simpa using congrArg List.length h)
    obtain ⟨hL, hR⟩ : L.id = id ∧ R.id = sr.2 := by simpa using h
    exact Or.inr ⟨sr.1, L, R, by rw [hR], rfl, hL⟩

/-- A leaf of the leaf list with few enough entries is a subtree. -/
theorem Leaves.subTree {cells : List (NodeId × List ZSetEntry)} (hleaves : Leaves get lm rm cells)
    (hmem : (id, es) ∈ cells) (hne : es ≠ []) (hcap : es.length ≤ leafCapacity) :
    SubTree get 0 (Part.leaf id es) := by
  obtain ⟨leaf, hget, rfl⟩ := hleaves.get_of_mem hmem
  exact ⟨leaf, hget, rfl, hne, hcap⟩

/-- The entries of one leaf are rewritten, its links kept. -/
theorem Leaves.set_entries {es' : List ZSetEntry}
    (hleaves : Leaves get lm rm (pre ++ (id, es) :: post)) (hget : get id = some (.leaf leaf))
    (hget' : get' id = some (.leaf { leaf with entries := es' }))
    (hsame : ∀ q, q ≠ id → get' q = get q) : Leaves get' lm rm (pre ++ (id, es') :: post) := by
  have hchain : Chain leafView get' none (pre ++ (id, es') :: post) none := by
    refine hleaves.chain.set_holds (fun n hn _ => ?_) hsame
    rw [hget] at hn
    cases hn
    exact ⟨_, hget', ⟨_, rfl, rfl⟩, rfl, rfl⟩
  refine ⟨hchain, ?_, ?_, hchain.nodup⟩
  · rw [hleaves.leftmost_eq]
    cases pre <;> rfl
  · rw [hleaves.rightmost_eq]
    simp

/-- **Insertion into a leaf.** -/
theorem insertIntoLeaf_spec (hpre : Insertable t 0 P x pre post) : ∃ a rm split outs,
      t.insertIntoLeaf P.id x = some ({ t with arena := a, rightmost := rm }, split) ∧
      Inserted t.arena a t.leftmost rm 0 P x pre post split outs := by
  obtain ⟨leaf, hget, hP, hne, hcap⟩ := hpre.subtree
  have hentries : P.entries = leaf.entries := by rw [hP]; simp
  have hids : P.ids = [P.id] := by rw [hP]; rfl
  have hleaves : Leaves t.arena.get t.leftmost t.rightmost
      (pre ++ (P.id, leaf.entries) :: post) := by
    have h := hpre.leaves
    rw [hP] at h
    simpa [Part.leaf] using h
  have hsorted := hpre.sorted
  rw [hentries] at hsorted
  obtain ⟨l, r, hlr, hcut, hl, hr⟩ := hsorted.lowerBoundEntry hpre.notNan
  have hins : SortedInsert ord x P.entries (l ++ x :: r) := by
    refine ⟨l, r, hentries.trans hlr, rfl, hl, ?_⟩
    intro e he
    have hmem : e ∈ P.entries := by rw [hentries, hlr]; simp [he]
    exact lt_of_le_of_ne (hr e he) (Ne.symm (hpre.fresh e hmem))
  have hsorted' := hpre.sorted.of_sortedInsert hpre.notNan hins
  -- the entry goes into the leaf first
  obtain ⟨a₁, ha₁, hfree₁, hsize₁, hget₁⟩ :=
    setNode_eq hget (.leaf { leaf with entries := l ++ x :: r })
  have hleaves₁ : Leaves a₁.get t.leftmost t.rightmost (pre ++ (P.id, l ++ x :: r) :: post) :=
    hleaves.set_entries hget (by rw [hget₁, if_pos rfl]) fun q hq => by rw [hget₁, if_neg hq]
  have hstart : t.insertIntoLeaf P.id x =
      if (l ++ x :: r).length ≤ leafCapacity then some ({ t with arena := a₁ }, none)
      else splitLeaf { t with arena := a₁ } P.id := by
    unfold insertIntoLeaf
    rw [leaf_eq hget]
    simp only [some_bind]
    rw [show vecInsert leaf.entries (lowerBoundEntry leaf.entries x) x = some (l ++ x :: r) by
      rw [hlr]; rw [hlr] at hcut; exact vecInsert_append hcut]
    rw [some_bind, leafMut_eq hget, some_bind, ha₁, some_bind]
  by_cases hfit : (l ++ x :: r).length ≤ leafCapacity
  · refine ⟨a₁, t.rightmost, none, [Part.leaf P.id (l ++ x :: r)], ?_, ?_⟩
    · rw [hstart, if_pos hfit]
    · exact
      { ids_eq := rfl
        notNan := by simp
        separated := trivial
        subtree := by
          intro C hC
          obtain rfl := mem_singleton.1 hC
          exact hleaves₁.subTree (by simp) (by simp) hfit
        entries := by simpa using hins
        leaves := by simpa [Part.leaf] using hleaves₁
        nodup := by simp [Part.leaf]
        owned := by simp [Part.leaf, hids]
        frame := ⟨hsize₁.ge, hfree₁.trans hpre.freeList_eq, fun q hq _ => .of_eq (by
          rw [hget₁, if_neg (by simpa [hids] using hq)])⟩ }
  -- one entry too many: the leaf is cut after its first half
  have hlen : (l ++ x :: r).length = leafCapacity + 1 := by
    have hold : (l ++ r).length ≤ leafCapacity := hlr ▸ hcap
    simp only [length_append, length_cons] at hold hfit ⊢
    omega
  obtain ⟨left, rest, hcutL, hleft⟩ :=
    exists_append_of_le_length (i := minLeafItems) (l ++ x :: r) (by rw [hlen]; decide)
  have hlenr : rest.length = 8 := by
    have h := congrArg List.length hcutL
    rw [hlen, length_append, ← hleft] at h
    simp only [leafCapacity, minLeafItems] at h
    omega
  rcases rest with _ | ⟨sep, right⟩
  · simp at hlenr
  have hget₁' : a₁.get P.id = some (.leaf { leaf with entries := l ++ x :: r }) := by
    rw [hget₁, if_pos rfl]
  obtain ⟨a, ha, hfree, hsize, hsplit⟩ := splitLeaf_eq (t := { t with arena := a₁ })
    (hfree₁.trans hpre.freeList_eq) hget₁' hleaves₁ hcutL hleft
  simp only [hsize₁] at ha hsize hsplit
  have hnew : a₁.get t.arena.slots.size = none :=
    Option.eq_none_iff_forall_ne_some.2 fun n hn => (lt_size_of_get hn).ne hsize₁.symm
  have hleaves' := hsplit.leaves hget₁' hleaves₁ hnew
  have hidlt : P.id < t.arena.slots.size := lt_size_of_get hget
  rw [hcutL] at hsorted' hins
  refine ⟨a, lastId (some t.arena.slots.size) post, some (sep, t.arena.slots.size),
    [Part.leaf P.id left, Part.leaf t.arena.slots.size (sep :: right)], ?_, ?_⟩
  · rw [hstart, if_neg hfit, ha]
  · have hpair := pairwise_append.1 hsorted'.pairwise
    exact
    { ids_eq := rfl
      notNan := by simpa using hsorted'.notNan sep (by simp)
      separated := by
        refine ⟨?_, ?_, by simp, trivial⟩
        · rw [Part.ords, Part.entries_leaf]
          exact forall_mem_map.2 fun e he => hpair.2.2 e he sep (by simp)
        · simp only [map_cons, map_nil, flatten_cons, flatten_nil, append_nil, Part.ords,
            Part.entries_leaf]
          exact forall_mem_cons.2 ⟨le_rfl, forall_mem_map.2 fun e he =>
            (rel_of_pairwise_cons hpair.2.1 he).le⟩
      subtree := by
        intro C hC
        simp only [mem_cons, not_mem_nil, or_false] at hC
        rcases hC with rfl | rfl
        · apply hleaves'.subTree (by simp)
          · exact ne_nil_of_length_pos (hleft ▸ by decide)
          · exact hleft ▸ by decide
        · exact hleaves'.subTree (by simp) (by simp) (by rw [hlenr]; decide)
      entries := by simpa using hins
      leaves := by simpa [Part.leaf] using hleaves'
      nodup := by simpa [Part.leaf] using hidlt.ne
      owned := by simp [Part.leaf, hids]
      frame := ⟨by omega, hfree, fun q hq hlt => by
        have hq' : q ≠ P.id := by simpa [hids] using hq
        exact (SameNode.of_eq (by rw [hget₁, if_neg hq'])).trans
          (hsplit.sameNode hget₁' hleaves₁ hq' hlt.ne)⟩ }

/-! ## Inner nodes -/

/-- The inner node over the given parts. -/
def InnerNode.over (keys : List EntryKey) (parts : List Part) : InnerNode :=
  { keys, children := parts.map Part.id, childSizes := parts.map Part.size }

/-- **Splitting an inner node** promotes its middle key. -/
theorem splitInner_eq {kl kr : List EntryKey} {pl pr : List Part} (hfree : t.arena.freeList = [])
    (hget : t.arena.get id = some (.inner (InnerNode.over (kl ++ sep :: kr) (pl ++ pr))))
    (hhalf : (kl ++ sep :: kr).length / 2 = kl.length) (hparts : kl.length + 1 = pl.length) :
    ∃ a : NodeArena,
      t.splitInner id = some ({ t with arena := a }, some (sep, t.arena.slots.size)) ∧
      a.freeList = [] ∧ a.slots.size = t.arena.slots.size + 1 ∧
      ∀ q, a.get q = if q = t.arena.slots.size then some (.inner (InnerNode.over kr pr))
        else if q = id then some (.inner (InnerNode.over kl pl)) else t.arena.get q := by
  obtain ⟨a₁, ha₁, hfree₁, hsize₁, hget₁⟩ := setNode_eq hget (.inner (InnerNode.over kl pl))
  obtain ⟨a₂, ha₂, hfree₂, hsize₂, hget₂⟩ := alloc_eq (t := { t with arena := a₁ })
    (hfree₁.trans hfree) (.inner (InnerNode.over kr pr))
  simp only [hsize₁] at ha₂ hsize₂ hget₂
  refine ⟨a₂, ?_, hfree₂, hsize₂, ?_⟩
  · unfold splitInner
    rw [inner_eq hget]
    have hkeys : vecSplitOff (kl ++ sep :: kr) (kl.length + 1) = some (kl ++ [sep], kr) := by
      rw [append_cons]
      exact vecSplitOff_append (by simp)
    simp only [InnerNode.over, some_bind, hhalf, map_append, getElem?_append_cons, hkeys,
      vecSplitOff_append (show kl.length + 1 = (pl.map Part.id).length by simpa using hparts),
      vecSplitOff_append (show kl.length + 1 = (pl.map Part.size).length by simpa using hparts)]
    rw [innerMut_eq hget, some_bind, take_left]
    simp only [InnerNode.over] at ha₁ ha₂
    rw [ha₁, some_bind, ha₂]
  · intro q
    rw [hget₂]
    by_cases hq : q = t.arena.slots.size
    · rw [if_pos hq, if_pos hq]
    · rw [if_neg hq, if_neg hq, hget₁]

/-- After the insertion into a child, when the inner node itself is still to be rewritten: its
children are now `parts`, with the separators `keys` between them. -/
structure ChildDone (a a₁ : NodeArena) (lm rm : Option NodeId) (h : Nat) (P : Part) (x : ZSetEntry)
    (pre post : List (NodeId × List ZSetEntry)) (keys : List EntryKey) (parts : List Part) :
    Prop where
  live : ∃ inner, a₁.get P.id = some (.inner inner)
  owner : P.id ∈ P.ids
  describes : Describes (InnerNode.over keys parts) parts
  subtree : ∀ C ∈ parts, SubTree a₁.get h C
  notMem : P.id ∉ parts.flatMap Part.ids
  nodup : (parts.flatMap Part.ids).Nodup
  owned : ∀ q ∈ parts.flatMap Part.ids, q ∈ P.ids ∨ a.slots.size ≤ q
  entries : SortedInsert ord x P.entries (parts.flatMap Part.entries)
  leaves : Leaves a₁.get lm rm (pre ++ parts.flatMap Part.cells ++ post)
  frame : Extends a a₁ P.ids

/-- Whatever is done to the inner node, the rest is kept. -/
theorem ChildDone.kept (hdone : ChildDone a a₁ lm rm h P x pre post keys parts)
    (hfree : a₂.freeList = []) (hsize : a₁.slots.size ≤ a₂.slots.size)
    (hsame : ∀ q, q < a₁.slots.size → q ≠ P.id → a₂.get q = a₁.get q) :
    (∀ C ∈ parts, SubTree a₂.get h C) ∧
      Leaves a₂.get lm rm (pre ++ parts.flatMap Part.cells ++ post) ∧ Extends a a₂ P.ids := by
  have hle := hdone.frame.size_le
  refine ⟨fun C hC => (hdone.subtree C hC).congr fun q hq => ?_,
    hdone.leaves.congr fun q leaf hleaf => ?_, by omega, hfree, fun q hq hlt => ?_⟩
  · refine .of_eq (hsame q ((hdone.subtree C hC).lt_size hq) ?_)
    rintro rfl
    exact hdone.notMem (mem_flatMap.2 ⟨C, hC, hq⟩)
  · refine hsame q (lt_size_of_get hleaf) ?_
    rintro rfl
    obtain ⟨inner, hinner⟩ := hdone.live
    cases hinner.symm.trans hleaf
  · refine (hdone.frame.same q hq hlt).trans (SameNode.of_eq (hsame q (hlt.trans_le hle) ?_))
    rintro rfl
    exact hq hdone.owner

/-- The inner node has room for its children. -/
theorem ChildDone.fits (hdone : ChildDone a a₁ lm rm h P x pre post keys parts)
    (hcap : keys.length ≤ innerCapacity) (hfree : a₂.freeList = a₁.freeList)
    (hsize : a₂.slots.size = a₁.slots.size)
    (hget : ∀ q, a₂.get q =
      if q = P.id then some (.inner (InnerNode.over keys parts)) else a₁.get q) :
    Inserted a a₂ lm rm (h + 1) P x pre post none [Part.node P.id parts] := by
  obtain ⟨hchild, hleaves, hframe⟩ := hdone.kept (hfree.trans hdone.frame.freeList_eq) hsize.ge
    fun q _ hq => by rw [hget, if_neg hq]
  refine
    { ids_eq := rfl
      notNan := by simp
      separated := trivial
      subtree := ?_
      entries := by simpa using hdone.entries
      leaves := by simpa [Part.node] using hleaves
      nodup := by simpa [Part.node] using ⟨by simpa using hdone.notMem, hdone.nodup⟩
      owned := ?_
      frame := hframe }
  · intro C hC
    obtain rfl := mem_singleton.1 hC
    refine ⟨InnerNode.over keys parts, parts, ?_, rfl, hdone.describes, hcap, hchild⟩
    rw [hget]
    exact if_pos rfl
  · intro q hq
    simp only [flatMap_cons, flatMap_nil, append_nil, Part.node, mem_cons] at hq
    rcases hq with rfl | hq
    · exact .inl hdone.owner
    · exact hdone.owned q hq

/-- The inner node is split between the parts `pl` and `pr`. -/
theorem ChildDone.splits {kl kr : List EntryKey} {pl pr : List Part}
    (hdone : ChildDone a a₁ lm rm h P x pre post (kl ++ sep :: kr) (pl ++ pr))
    (hparts : kl.length + 1 = pl.length) (hkl : kl.length ≤ innerCapacity)
    (hkr : kr.length ≤ innerCapacity) (hfree : a₂.freeList = [])
    (hsize : a₂.slots.size = a₁.slots.size + 1)
    (hget : ∀ q, a₂.get q = if q = a₁.slots.size then some (.inner (InnerNode.over kr pr))
      else if q = P.id then some (.inner (InnerNode.over kl pl)) else a₁.get q) :
    Inserted a a₂ lm rm (h + 1) P x pre post (some (sep, a₁.slots.size))
      [Part.node P.id pl, Part.node a₁.slots.size pr] := by
  have hidlt : P.id < a₁.slots.size := lt_size_of_get hdone.live.choose_spec
  obtain ⟨hchild, hleaves, hframe⟩ := hdone.kept hfree (by omega) fun q hlt hq => by
    rw [hget, if_neg hlt.ne, if_neg hq]
  have hnew : ∀ q ∈ (pl ++ pr).flatMap Part.ids, q < a₁.slots.size := by
    intro q hq
    obtain ⟨C, hC, hq⟩ := mem_flatMap.1 hq
    exact (hdone.subtree C hC).lt_size hq
  -- the promoted key separates the two halves
  have hdesc := hdone.describes
  have hsep := hdesc.separated
  simp only [InnerNode.over, map_append, map_cons] at hsep
  rw [separated_append_cons (by simpa using hparts.symm)] at hsep
  obtain ⟨hsepl, hsepr, hlt, hle, -, -⟩ := hsep
  rw [Part.flatten_ords] at hlt hle
  have hnan : ∀ k ∈ kl ++ sep :: kr, k.NotNan := hdesc.notNan
  refine
    { ids_eq := rfl
      notNan := by simpa using hnan sep (by simp)
      separated := ?_
      subtree := ?_
      entries := by simpa using hdone.entries
      leaves := by simpa [Part.node] using hleaves
      nodup := ?_
      owned := ?_
      frame := hframe }
  · refine ⟨?_, ?_, by simp, trivial⟩
    · simpa [Part.ords] using hlt
    · simpa [Part.ords] using hle
  · intro C hC
    simp only [mem_cons, not_mem_nil, or_false] at hC
    rcases hC with rfl | rfl
    · refine ⟨InnerNode.over kl pl, pl, ?_, rfl, ⟨rfl, rfl, ?_, hsepl⟩, hkl,
        fun C hC => hchild C (by simp [hC])⟩
      · rw [hget]
        exact (if_neg hidlt.ne).trans (if_pos rfl)
      · exact fun k hk => hnan k (mem_append_left _ hk)
    · refine ⟨InnerNode.over kr pr, pr, ?_, rfl, ⟨rfl, rfl, ?_, hsepr⟩, hkr,
        fun C hC => hchild C (by simp [hC])⟩
      · rw [hget]
        exact if_pos rfl
      · exact fun k hk => hnan k (mem_append_right _ (mem_cons_of_mem _ hk))
  · have hnotMem := hdone.notMem
    have hnodup := hdone.nodup
    simp only [flatMap_append, mem_append, not_or, nodup_append] at hnotMem hnodup hnew
    simp only [flatMap_cons, flatMap_nil, append_nil, Part.node, nodup_append, nodup_cons, mem_cons]
    refine ⟨⟨hnotMem.1, hnodup.1⟩, ⟨fun hmem => (hnew _ (.inr hmem)).ne rfl, hnodup.2.1⟩, ?_⟩
    rintro q (rfl | hq) q' (rfl | hq')
    · exact hidlt.ne
    · exact fun heq => hnotMem.2 (heq ▸ hq')
    · exact (hnew q (.inl hq)).ne
    · exact hnodup.2.2 q hq q' hq'
  · intro q hq
    simp only [flatMap_cons, flatMap_nil, append_nil, Part.node, mem_append, mem_cons] at hq
    have howned := hdone.owned
    simp only [flatMap_append, mem_append] at howned
    rcases hq with (rfl | hq) | (rfl | hq)
    · exact .inl hdone.owner
    · exact howned q (.inl hq)
    · exact .inr hdone.frame.size_le
    · exact howned q (.inr hq)
/-- Whether the child was split or not, the inner node takes over the child's new parts and is
split in turn if it has too many. -/
theorem insertIntoInner_eq (hget : t.arena.get id =
      some (.inner (InnerNode.over (keys₁ ++ keys₂) (ps₁ ++ C :: ps₂))))
    (hlen : ps₁.length = keys₁.length) (hcap : (keys₁ ++ keys₂).length ≤ innerCapacity)
    (hids : outs.map Part.id = C.id :: split.toList.map Prod.snd)
    (hsub : ∀ D ∈ outs, SubTree t.arena.get h D)
    (hsize : (outs.flatMap Part.entries).length = C.entries.length + 1) :
    t.insertIntoInner id keys₁.length C.id split =
      (t.setNode id (.inner (InnerNode.over (keys₁ ++ split.toList.map Prod.fst ++ keys₂)
        (ps₁ ++ outs ++ ps₂)))).bind fun t =>
          if innerCapacity < (keys₁ ++ split.toList.map Prod.fst ++ keys₂).length
          then t.splitInner id else some (t, none) := by
  rcases parts_of_split hids with ⟨D, rfl, rfl, hid⟩ | ⟨sep, L, R, rfl, rfl, hL⟩
  · have hD : D.size = C.size + 1 := by simpa [Part.size] using hsize
    have hfit : ¬ innerCapacity < (keys₁ ++ keys₂).length := by omega
    unfold insertIntoInner
    simp only [Option.toList_none, map_nil, append_nil, if_neg hfit,
      inner_eq hget, innerMut_eq hget, some_bind]
    simp only [InnerNode.over, map_append, map_cons, append_assoc, cons_append, nil_append, hid, hD]
    rw [← hlen, ← length_map (f := Part.size), getElem?_append_cons, some_bind,
      vecSet_append rfl, some_bind]
    rfl
  have hLsize := (hsub L (by simp)).subtreeSize
  have hRsize := (hsub R (by simp)).subtreeSize
  rw [hL] at hLsize
  have hchildren : vecInsert (ps₁.map Part.id ++ C.id :: ps₂.map Part.id) (keys₁.length + 1) R.id
      = some (ps₁.map Part.id ++ C.id :: R.id :: ps₂.map Part.id) :=
    vecInsert_append_cons (by simp [hlen])
  have hleft : vecSet (ps₁.map Part.size ++ C.size :: ps₂.map Part.size) keys₁.length L.size
      = some (ps₁.map Part.size ++ L.size :: ps₂.map Part.size) :=
    vecSet_append (by simp [hlen])
  have hright : vecInsert (ps₁.map Part.size ++ L.size :: ps₂.map Part.size) (keys₁.length + 1)
      R.size = some (ps₁.map Part.size ++ L.size :: R.size :: ps₂.map Part.size) :=
    vecInsert_append_cons (by simp [hlen])
  unfold insertIntoInner
  simp only [hLsize, hRsize, inner_eq hget, innerMut_eq hget, some_bind, Option.toList_some]
  simp only [InnerNode.over, map_append, map_cons, map_nil, append_assoc, cons_append, nil_append,
    hL, vecInsert_append, some_bind, hchildren, hleft, hright]
  rfl

/-! ## The recursion -/

/-- The chosen child may be inserted into, with its siblings' leaves as context. -/
theorem Insertable.child (hpre : Insertable t (h + 1) P x pre post)
    (hP : P = Part.node P.id (ps₁ ++ C :: ps₂))
    (hparts : ∀ D ∈ ps₁ ++ C :: ps₂, SubTree t.arena.get h D) :
    Insertable t h C x (pre ++ ps₁.flatMap Part.cells) (ps₂.flatMap Part.cells ++ post) := by
  have hentries := Part.entries_mid hP
  have hids := Part.ids_mid hP
  have hsorted := hpre.sorted
  have hnodup := hpre.nodup
  have hleaves := hpre.leaves
  rw [hentries] at hsorted
  rw [hids, nodup_cons, nodup_append, nodup_append] at hnodup
  rw [hP] at hleaves
  exact
    { notNan := hpre.notNan
      fresh := fun e he => hpre.fresh e (by rw [hentries]; simp [he])
      sorted := hsorted.append_right.append_left
      subtree := hparts C (by simp)
      nodup := hnodup.2.2.1.1
      leaves := by simpa [Part.node] using hleaves
      freeList_eq := hpre.freeList_eq }

/-- The separators around the child's new parts. -/
theorem Inserted.describes {a₀ : NodeArena} (hins : Inserted a₀ a lm rm h C x pre post split outs)
    (hdesc : Describes inner (ps₁ ++ C :: ps₂)) (hkeys : inner.keys = keys₁ ++ keys₂)
    (hlen : ps₁.length = keys₁.length)
    (hx : (∀ k ∈ keys₁, k.ord ≤ x.ord) ∧ ∀ k ∈ keys₂, x.ord < k.ord)
    (hC : ∀ e ∈ C.entries, (∀ k ∈ keys₁, k.ord ≤ e.ord) ∧ ∀ k ∈ keys₂, e.ord < k.ord) :
    Describes (InnerNode.over (keys₁ ++ split.toList.map Prod.fst ++ keys₂) (ps₁ ++ outs ++ ps₂))
      (ps₁ ++ outs ++ ps₂) := by
  have hbounds : ∀ e ∈ outs.flatMap Part.entries,
      (∀ k ∈ keys₁, k.ord ≤ e.ord) ∧ ∀ k ∈ keys₂, e.ord < k.ord := by
    intro e he
    rcases hins.entries.mem_iff.1 he with rfl | he
    · exact hx
    · exact hC e he
  refine ⟨rfl, rfl, ?_, ?_⟩
  · intro k hk
    simp only [InnerNode.over, mem_append] at hk
    have hold : ∀ k ∈ keys₁ ++ keys₂, k.NotNan := hkeys ▸ hdesc.notNan
    rcases hk with (hk | hk) | hk
    · exact hold k (by simp [hk])
    · exact hins.notNan k hk
    · exact hold k (by simp [hk])
  · have hsep := hdesc.separated
    simp only [hkeys, map_append] at hsep
    simp only [InnerNode.over, map_append]
    apply hsep.replace (by simpa using hlen) (by simpa using hins.separated)
    · simpa only [Part.flatten_ords, forall_mem_map] using hbounds
    · -- a promoted separator lies between an entry of the left half and one of the right half
      rcases parts_of_split hins.ids_eq with ⟨D, rfl, rfl, -⟩ | ⟨sep, L, R, rfl, rfl, -⟩
      · simp
      obtain ⟨hlt, hle, -, -⟩ := hins.separated
      obtain ⟨eL, heL⟩ := exists_mem_of_ne_nil _ (hins.subtree L (by simp)).entries_ne_nil
      obtain ⟨eR, heR⟩ := exists_mem_of_ne_nil _ (hins.subtree R (by simp)).entries_ne_nil
      have hsepL : eL.ord < sep.ord := hlt _ (mem_map_of_mem heL)
      have hsepR : sep.ord ≤ eR.ord := hle _ (by
        simpa [Part.ords] using ⟨eR, heR, rfl⟩)
      intro k hk
      obtain rfl : k = sep.ord := by simpa using hk
      exact ⟨forall_mem_map.2 fun k hk => ((hbounds eL (by simp [heL])).1 k hk).trans_lt hsepL,
        forall_mem_map.2 fun k hk => hsepR.trans_lt ((hbounds eR (by simp [heR])).2 k hk)⟩

/-- What the inner node finds when its child comes back. -/
theorem Inserted.childDone (hpre : Insertable t (h + 1) P x pre post)
    (hget : t.arena.get P.id = some (.inner inner)) (hP : P = Part.node P.id (ps₁ ++ C :: ps₂))
    (hparts : ∀ D ∈ ps₁ ++ C :: ps₂, SubTree t.arena.get h D)
    (hins : Inserted t.arena a t.leftmost rm h C x (pre ++ ps₁.flatMap Part.cells)
      (ps₂.flatMap Part.cells ++ post) split outs)
    (hdesc : Describes (InnerNode.over (keys₁ ++ split.toList.map Prod.fst ++ keys₂)
      (ps₁ ++ outs ++ ps₂)) (ps₁ ++ outs ++ ps₂))
    (hbefore : ∀ e ∈ ps₁.flatMap Part.entries, e.ord < x.ord)
    (hafter : ∀ e ∈ ps₂.flatMap Part.entries, x.ord < e.ord) : a.get P.id = some (.inner inner) ∧
      ChildDone t.arena a t.leftmost rm h P x pre post
        (keys₁ ++ split.toList.map Prod.fst ++ keys₂) (ps₁ ++ outs ++ ps₂) := by
  have hids := Part.ids_mid hP
  have hnodup := hpre.nodup
  rw [hids] at hnodup
  simp only [nodup_cons, nodup_append, mem_append, not_or] at hnodup
  obtain ⟨⟨hid₁, hidC, hid₂⟩, hn₁, ⟨hnC, hn₂, hC₂⟩, h₁⟩ := hnodup
  have hlive : ∀ q ∈ P.ids, q < t.arena.slots.size := fun q hq => hpre.subtree.lt_size hq
  have hidlt : P.id < t.arena.slots.size := hlive P.id (by simp [hids])
  have hinner : a.get P.id = some (.inner inner) := (hins.frame.same P.id hidC hidlt).inner hget
  -- the siblings are not the child's and older than what it allocated
  have hsibling : ∀ D ∈ ps₁ ++ ps₂, ∀ q ∈ D.ids, q ∉ C.ids ∧ q < t.arena.slots.size := by
    intro D hD q hq
    rcases mem_append.1 hD with hD | hD
    · have hmem : q ∈ ps₁.flatMap Part.ids := mem_flatMap.2 ⟨D, hD, hq⟩
      exact ⟨fun hqC => h₁ q hmem q (Or.inl hqC) rfl, hlive q (by simp only [hids]; simp [hmem])⟩
    · have hmem : q ∈ ps₂.flatMap Part.ids := mem_flatMap.2 ⟨D, hD, hq⟩
      exact ⟨fun hqC => hC₂ q hqC q hmem rfl, hlive q (by simp only [hids]; simp [hmem])⟩
  have hsiblingTree : ∀ D ∈ ps₁ ++ ps₂, SubTree a.get h D := by
    intro D hD
    have hold : SubTree t.arena.get h D := hparts D (by
      rcases mem_append.1 hD with hD | hD <;> simp [hD])
    apply hold.congr
    intro q hq
    obtain ⟨hqC, hlt⟩ := hsibling D hD q hq
    exact hins.frame.same q hqC hlt
  have hnotOut : ∀ D ∈ ps₁ ++ ps₂, ∀ q ∈ D.ids, q ∉ outs.flatMap Part.ids := by
    intro D hD q hq hout
    obtain ⟨hqC, hlt⟩ := hsibling D hD q hq
    rcases hins.owned q hout with hq' | hq'
    · exact hqC hq'
    · exact absurd hlt (not_lt.2 hq')
  refine ⟨hinner, ?_⟩
  exact
    { live := ⟨inner, hinner⟩
      owner := by simp [hids]
      describes := hdesc
      subtree := by
        intro D hD
        simp only [mem_append] at hD hsiblingTree
        rcases hD with (hD | hD) | hD
        · exact hsiblingTree D (.inl hD)
        · exact hins.subtree D hD
        · exact hsiblingTree D (.inr hD)
      notMem := by
        simp only [flatMap_append, mem_append, not_or]
        refine ⟨⟨hid₁, fun hout => ?_⟩, hid₂⟩
        rcases hins.owned P.id hout with hq' | hq'
        · exact hidC hq'
        · exact absurd hidlt (not_lt.2 hq')
      nodup := by
        simp only [flatMap_append, nodup_append, mem_append]
        refine ⟨⟨hn₁, hins.nodup, ?_⟩, hn₂, ?_⟩
        · rintro q hq q' hq' rfl
          obtain ⟨D, hD, hq⟩ := mem_flatMap.1 hq
          exact hnotOut D (by simp [hD]) q hq hq'
        · rintro q (hq | hq) q' hq' rfl
          · exact h₁ q hq q (.inr hq') rfl
          · obtain ⟨D, hD, hq'⟩ := mem_flatMap.1 hq'
            exact hnotOut D (by simp [hD]) q hq' hq
      owned := by
        intro q hq
        rw [hids]
        simp only [flatMap_append, mem_append, mem_cons] at hq ⊢
        rcases hq with (hq | hq) | hq
        · exact .inl (.inr (.inl hq))
        · exact (hins.owned q hq).imp (fun hq => .inr (.inr (.inl hq))) id
        · exact .inl (.inr (.inr (.inr hq)))
      entries := by
        rw [hP]
        simpa using hins.entries.context hbefore hafter
      leaves := by simpa using hins.leaves
      frame := ⟨hins.frame.size_le, hins.frame.freeList_eq, fun q hq hlt =>
        hins.frame.same q (fun hqC => hq (by simp only [hids]; simp [hqC])) hlt⟩ }

/-- **The recursive insertion**, by induction on the height of the subtree. -/
theorem insertRecursive_spec (hpre : Insertable t h P x pre post) {fuel : Nat} (hfuel : h < fuel) :
    ∃ a rm split outs,
      insertRecursive fuel t P.id x = some ({ t with arena := a, rightmost := rm }, split) ∧
      Inserted t.arena a t.leftmost rm h P x pre post split outs := by
  induction h generalizing P pre post fuel with
  | zero =>
    obtain ⟨fuel, rfl, -⟩ := exists_fuel hfuel
    obtain ⟨leaf, hget, -⟩ := hpre.subtree
    unfold insertRecursive
    rw [hget]
    exact insertIntoLeaf_spec hpre
  | succ h ih =>
    obtain ⟨fuel, rfl, hfuel'⟩ := exists_fuel hfuel
    obtain ⟨inner, parts, hget, hP, hdesc, hcap, hparts⟩ := hpre.subtree
    -- go down to the child between whose neighbours `x` belongs
    obtain ⟨keys₁, keys₂, ps₁, C, ps₂, hkeys, rfl, hlen, hindex, hbetween, hbefore, hafter, hC⟩ :=
      hdesc.routeKey hpre.notNan
    obtain ⟨a, rm, split, outs, hrun, hins⟩ :=
      ih (hpre.child hP hparts) hfuel'
    have hdesc' := hins.describes hdesc hkeys hlen hbetween hC
    obtain ⟨hinner, hdone⟩ :=
      hins.childDone hpre hget hP hparts hdesc' hbefore hafter
    have hover : inner = InnerNode.over (keys₁ ++ keys₂) (ps₁ ++ C :: ps₂) := by
      cases inner
      cases hkeys
      cases hdesc.children
      cases hdesc.childSizes
      rfl
    have hstep : insertRecursive (fuel + 1) t P.id x =
        insertIntoInner { t with arena := a, rightmost := rm } P.id keys₁.length C.id split := by
      rw [insertRecursive, hget, ← hlen]
      simp only [hindex, hdesc.children_mid, hrun, some_bind]
    rw [hover] at hinner
    rw [hkeys] at hcap
    rw [hstep, insertIntoInner_eq (t := { t with arena := a, rightmost := rm }) hinner hlen hcap
      hins.ids_eq hins.subtree hins.entries.length_eq]
    obtain ⟨a₁, ha₁, hfree₁, hsize₁, hget₁⟩ :=
      setNode_eq (t := { t with arena := a, rightmost := rm }) hinner
        (.inner (InnerNode.over (keys₁ ++ split.toList.map Prod.fst ++ keys₂) (ps₁ ++ outs ++ ps₂)))
    rw [ha₁, Option.bind_some]
    have hcap' : (keys₁ ++ split.toList.map Prod.fst ++ keys₂).length ≤ innerCapacity + 1 := by
      simp only [length_append, length_map] at hcap ⊢
      have : split.toList.length ≤ 1 := by cases split <;> simp
      omega
    have hplen := hdesc'.separated.length_eq
    simp only [InnerNode.over, length_map] at hplen
    generalize keys₁ ++ split.toList.map Prod.fst ++ keys₂ = keys at *
    generalize ps₁ ++ outs ++ ps₂ = parts' at *
    by_cases hfit : innerCapacity < keys.length
    · -- 22 keys: eleven stay, the twelfth is promoted, ten move
      have hklen : keys.length = innerCapacity + 1 := by omega
      obtain ⟨kl, rest, rfl, hkl⟩ :=
        exists_append_of_le_length (i := keys.length / 2) keys (Nat.div_le_self _ 2)
      rcases rest with _ | ⟨sep, kr⟩
      · simp only [append_nil] at hklen hkl
        omega
      obtain ⟨pl, pr, rfl, hpl⟩ :=
        exists_append_of_le_length (i := kl.length + 1) parts' (by
          omega)
      obtain ⟨a₂, ha₂, hfree₂, hsize₂, hget₂⟩ := splitInner_eq
        (t := { t with arena := a₁, rightmost := rm }) (hfree₁.trans hdone.frame.freeList_eq)
        (show a₁.get P.id = some (.inner (InnerNode.over (kl ++ sep :: kr) (pl ++ pr))) by
          rw [hget₁, if_pos rfl]) hkl hpl
      refine ⟨a₂, rm, some (sep, a₁.slots.size),
        [Part.node P.id pl, Part.node a₁.slots.size pr], ?_, ?_⟩
      · rw [if_pos hfit, ha₂]
      · have hl : kl.length ≤ innerCapacity := by rw [← hkl, hklen]; decide
        have hr : kr.length ≤ innerCapacity := by
          rw [length_append, length_cons] at hklen
          omega
        rw [hsize₁] at hsize₂ hget₂ ⊢
        apply hdone.splits hpl hl hr hfree₂ hsize₂
        intro q
        rw [hget₂, hget₁]
        by_cases hq : q = P.id
        · simp [hq]
        · simp [hq]
    · exact ⟨a₁, rm, none, [Part.node P.id parts'], if_neg hfit,
        hdone.fits (by omega) hfree₁ hsize₁ hget₁⟩

/-! ## The root -/

/-- A walk down the tree has enough fuel. -/
theorem SubTree.height_lt_fuel (hsub : SubTree t.arena.get h P)
    (hids : P.ids.Nodup) : h < t.fuel := by
  have hheight := hsub.height_lt
  have hle := length_le_size hids hsub.live
  unfold fuel
  omega

/-- A single leaf is a tree. -/
theorem insertNewEntry_empty (hroot : t.root = none) (hfree : t.arena.freeList = [])
    (hx : x.NotNan) :
    ∃ t', t.insertNewEntry x = some t' ∧ TreeInv t' [x] ∧ t'.memberScores = t.memberScores := by
  obtain ⟨a, ha, hfree', -, hget⟩ :=
    alloc_eq hfree (.leaf { entries := [x], next := none, prev := none })
  have hnew : a.get t.arena.slots.size =
      some (.leaf { entries := [x], next := none, prev := none }) := by rw [hget, if_pos rfl]
  refine ⟨{ t with arena := a, root := some t.arena.slots.size,
                   leftmost := some t.arena.slots.size, rightmost := some t.arena.slots.size,
                   len := 1 }, by simp [insertNewEntry, hroot, ha], ⟨?_, ?_, rfl, hfree'⟩, rfl⟩
  · refine .tree 0 (Part.leaf t.arena.slots.size [x]) rfl
      ⟨_, hnew, rfl, by simp, by simp [leafCapacity]⟩ (by simp [Part.leaf]) ⟨?_, rfl, rfl, ?_⟩
    · exact ⟨⟨_, hnew, ⟨_, rfl, rfl⟩, rfl, rfl⟩, trivial⟩
    · simp [Part.leaf]
  · exact ⟨pairwise_singleton _ _, by simpa using hx⟩

/-- The tree after an insertion below its root: the old root, or a new one over its halves. -/
theorem Inserted.growRoot (hroot : t.root = some P.id)
    (hins : Inserted t.arena a t.leftmost rm h P x [] [] split outs) :
    ∃ a' root', BPTree.growRoot { t with arena := a, rightmost := rm } P.id split =
        some { t with arena := a', rightmost := rm, root := root' } ∧ a'.freeList = [] ∧
      ∀ len, Holds { t with arena := a', rightmost := rm, root := root', len := len }
        (outs.flatMap Part.entries) := by
  have hleaves := hins.leaves
  simp only [append_nil] at hleaves
  rcases parts_of_split hins.ids_eq with ⟨D, rfl, rfl, hid⟩ | ⟨sep, L, R, rfl, rfl, hL⟩
  · refine ⟨a, t.root, rfl, hins.frame.freeList_eq, ?_⟩
    intro len
    simp only [flatMap_cons, flatMap_nil, append_nil] at hleaves ⊢
    exact Holds.tree h D (by rw [hid]; exact hroot) (hins.subtree D (by simp))
      (by simpa using hins.nodup) hleaves
  have hLsize := (hins.subtree L (by simp)).subtreeSize
    (t := { t with arena := a, rightmost := rm })
  have hRsize := (hins.subtree R (by simp)).subtreeSize
    (t := { t with arena := a, rightmost := rm })
  rw [hL] at hLsize
  obtain ⟨a', ha', hfree', -, hget'⟩ := alloc_eq
    (t := { t with arena := a, rightmost := rm }) hins.frame.freeList_eq
    (.inner (InnerNode.over [sep] [L, R]))
  -- what was live is untouched by the allocation of the root
  have hold : ∀ q n, a.get q = some n → a'.get q = some n := by
    intro q n hn
    rw [hget', if_neg (lt_size_of_get hn).ne, hn]
  have hchild : ∀ D ∈ [L, R], SubTree a'.get h D := by
    intro D hD
    apply (hins.subtree D hD).congr
    intro q hq
    obtain ⟨n, hn⟩ := (hins.subtree D hD).live q hq
    exact .of_eq ((hold q n hn).trans hn.symm)
  have hleaves' : Leaves a'.get t.leftmost rm ([L, R].flatMap Part.cells) := by
    exact hleaves.congr fun q leaf hleaf => (hold q _ hleaf).trans hleaf.symm
  refine ⟨a', some a.slots.size, ?_, hfree', ?_⟩
  · simp only [InnerNode.over, map_cons, map_nil, hL] at ha'
    simp only [BPTree.growRoot, hLsize, hRsize, some_bind, ha']
  · intro len
    have hnode : [L, R].flatMap Part.entries = (Part.node a.slots.size [L, R]).entries := by simp
    rw [hnode]
    refine Holds.tree (h + 1) (Part.node a.slots.size [L, R]) rfl ?_ ?_ hleaves'
    · refine ⟨InnerNode.over [sep] [L, R], [L, R], ?_, rfl, ⟨rfl, rfl, ?_, ?_⟩, by
        simp [InnerNode.over, innerCapacity], hchild⟩
      · show a'.get a.slots.size = _
        rw [hget', if_pos rfl]
      · simpa [InnerNode.over] using hins.notNan
      · simpa [InnerNode.over] using hins.separated
    · refine nodup_cons.2 ⟨?_, hins.nodup⟩
      intro hmem
      obtain ⟨D, hD, hq⟩ := mem_flatMap.1 hmem
      exact ((hins.subtree D hD).lt_size hq).ne rfl

/-- **Insertion of a new entry** keeps the tree and puts the entry in its place. -/
theorem TreeInv.insertNewEntry (hinv : TreeInv t es) (hx : x.NotNan)
    (hfresh : ∀ e ∈ es, e.ord ≠ x.ord) :
    ∃ t' es', t.insertNewEntry x = some t' ∧ TreeInv t' es' ∧ SortedInsert ord x es es' ∧
      t'.memberScores = t.memberScores := by
  obtain ⟨hholds, hsorted, hlen, hfree⟩ := hinv
  cases hholds with
  | empty hroot =>
    obtain ⟨t', ht', hinv', hscores⟩ := insertNewEntry_empty hroot hfree hx
    exact ⟨t', [x], ht', hinv', ⟨[], [], rfl, rfl, by simp, by simp⟩, hscores⟩
  | tree h P hroot hsub hids hleaves =>
    obtain ⟨a, rm, split, outs, hrun, hins⟩ :=
      insertRecursive_spec
        (show Insertable t h P x [] [] from
          ⟨hx, hfresh, hsorted, hsub, hids, by simpa using hleaves, hfree⟩)
        (hsub.height_lt_fuel hids)
    obtain ⟨a', root', hgrow, hfree', hholds⟩ := hins.growRoot hroot
    refine ⟨{ t with arena := a', rightmost := rm, root := root', len := t.len + 1 }, _, ?_,
      ⟨hholds _, hsorted.of_sortedInsert hx hins.entries, ?_, hfree'⟩, hins.entries, rfl⟩
    · rw [BPTree.insertNewEntry, hroot]
      simp only [hrun, hgrow, some_bind]
    · rw [hins.entries.length_eq, ← hlen]

end BPTree

end Senko
