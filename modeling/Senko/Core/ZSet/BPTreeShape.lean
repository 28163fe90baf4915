import Senko.Core.ZSet.Order
import Senko.Lib.Chain

/-!
# Senko — the shape of a B+tree

`SubTree get h P` says that the arena `get` holds a well-formed subtree of height `h` under the id
`P.id`: every leaf is at depth `h`, holds between one and `leafCapacity` entries, and every inner
node's separators bound its children and its `child_sizes` are the sizes of its subtrees. The
*part* `P` names what the subtree owns: its node ids and its leaves, in order, with their entries.

A subtree does not constrain the links between leaves, which cross subtree boundaries. Those are
the business of `Leaves`, the doubly linked chain through all leaves of the tree. So a change of
links keeps every subtree (`SubTree.congr` up to links), and a change inside one subtree keeps its
siblings.
-/

namespace Senko

open ZSetEntry List

variable {q id : NodeId} {t : BPTree} {old : Node}
  {get get' : NodeId → Option Node} {lm rm : Option NodeId}
  {cells pre post : List (NodeId × List ZSetEntry)} {h : Nat}

namespace BPTree

/-! ## Arena updates -/

section Updates

variable {node : Node}

/-- Writing a live node changes that node only. -/
theorem setNode_eq (h : t.arena.get id = some old) (node : Node) :
    ∃ a : NodeArena, t.setNode id node = some { t with arena := a } ∧
      a.freeList = t.arena.freeList ∧ a.slots.size = t.arena.slots.size ∧
      ∀ q, a.get q = if q = id then some node else t.arena.get q := by
  obtain ⟨slots, hslots, hsize, hget⟩ := Arena.update_eq_some (fun _ => node) h
  exact ⟨{ t.arena with slots }, by simp [setNode, NodeArena.set, hslots], rfl, hsize, hget⟩

/-- Allocation hands out the next slot. -/
theorem alloc_eq (hfree : t.arena.freeList = []) (node : Node) :
    ∃ a : NodeArena, t.alloc node = ({ t with arena := a }, t.arena.slots.size) ∧
      a.freeList = [] ∧ a.slots.size = t.arena.slots.size + 1 ∧
      ∀ q, a.get q = if q = t.arena.slots.size then some node else t.arena.get q := by
  refine ⟨{ t.arena with slots := (t.arena.slots.alloc node).1,
                         liveNodes := t.arena.liveNodes + 1 }, ?_, hfree, ?_, ?_⟩
  · simp only [alloc, NodeArena.alloc, hfree]
    rfl
  · simp [Arena.alloc, Arena.size]
  · intro q
    by_cases hq : q = t.arena.slots.size
    · subst hq
      rw [if_pos rfl]
      exact Arena.get_alloc_new node
    · rw [if_neg hq]
      exact Arena.get_alloc_of_ne node hq

theorem leaf_eq {leaf : LeafNode} (h : t.arena.get id = some (.leaf leaf)) :
    t.leaf id = some leaf := by
  simp [BPTree.leaf, h]

theorem inner_eq {inner : InnerNode} (h : t.arena.get id = some (.inner inner)) :
    t.inner id = some inner := by
  simp [BPTree.inner, h]

theorem leafMut_eq {leaf : LeafNode} (h : t.arena.get id = some (.leaf leaf))
    (f : LeafNode → Option LeafNode) :
    t.leafMut id f = f leaf >>= fun leaf' => t.setNode id (.leaf leaf') := by
  simp [leafMut, leaf_eq h]

theorem innerMut_eq {inner : InnerNode} (h : t.arena.get id = some (.inner inner))
    (f : InnerNode → Option InnerNode) :
    t.innerMut id f = f inner >>= fun inner' => t.setNode id (.inner inner') := by
  simp [innerMut, inner_eq h]

end Updates

/-! ## The leaf list -/

def leafView : LinkView Node (List ZSetEntry) where
  prev
    | .leaf leaf => leaf.prev
    | .inner _ => none
  next
    | .leaf leaf => leaf.next
    | .inner _ => none
  holds n es := ∃ leaf, n = .leaf leaf ∧ leaf.entries = es

/-- The leaves of the tree, each with its entries, linked from `leftmost` to `rightmost`. -/
structure Leaves (get : NodeId → Option Node) (leftmost rightmost : Option NodeId)
    (cells : List (NodeId × List ZSetEntry)) : Prop where
  chain : Chain leafView get none cells none
  leftmost_eq : leftmost = firstId cells none
  rightmost_eq : rightmost = lastId none cells
  nodup : (cells.map Prod.fst).Nodup

/-- A node of the leaf list is a leaf with the entries the list gives it. -/
theorem Leaves.get_of_mem (h : Leaves get lm rm cells) {c : NodeId × List ZSetEntry}
    (hc : c ∈ cells) : ∃ leaf, get c.1 = some (.leaf leaf) ∧ leaf.entries = c.2 := by
  obtain ⟨n, hn, leaf, rfl, hleaf⟩ := h.chain.get_of_mem hc
  exact ⟨leaf, hn, hleaf⟩

/-- A node of the leaf list, with its two links. -/
theorem Leaves.get_mid {es : List ZSetEntry} (h : Leaves get lm rm (pre ++ (id, es) :: post)) :
    ∃ leaf, get id = some (.leaf leaf) ∧ leaf.entries = es ∧ leaf.prev = lastId none pre ∧
      leaf.next = firstId post none := by
  obtain ⟨-, hmid⟩ := Chain.append_iff.1 h.chain
  obtain ⟨⟨n, hn, ⟨leaf, rfl, hes⟩, hprev, hnext⟩, -⟩ := hmid
  exact ⟨leaf, hn, hes, hprev, hnext⟩

/-- A heap that agrees on the leaves holds the same leaf list. -/
theorem Leaves.congr (h : Leaves get lm rm cells)
    (hsame : ∀ q leaf, get q = some (.leaf leaf) → get' q = get q) : Leaves get' lm rm cells := by
  refine ⟨h.chain.congr ?_, h.leftmost_eq, h.rightmost_eq, h.nodup⟩
  intro q hq
  obtain ⟨c, hc, rfl⟩ := mem_map.1 hq
  obtain ⟨leaf, hleaf, -⟩ := h.get_of_mem hc
  exact hsame c.1 leaf hleaf

/-! ## Subtrees -/

/-- What a subtree owns: its root, all its node ids, and its leaves from left to right. -/
structure Part where
  id : NodeId
  ids : List NodeId
  cells : List (NodeId × List ZSetEntry)

variable {P C : Part} {parts ps₁ ps₂ : List Part}

namespace Part

def entries (P : Part) : List ZSetEntry := P.cells.flatMap Prod.snd

def size (P : Part) : Nat := P.entries.length

def ords (P : Part) : List (ℤ ×ₗ List ℕ) := P.entries.map ord

/-- The part of a single leaf. -/
def leaf (id : NodeId) (es : List ZSetEntry) : Part := ⟨id, [id], [(id, es)]⟩

/-- The part of an inner node over its children's parts. -/
def node (id : NodeId) (parts : List Part) : Part :=
  ⟨id, id :: parts.flatMap Part.ids, parts.flatMap Part.cells⟩

@[simp] theorem entries_leaf (id : NodeId) (es : List ZSetEntry) :
    (Part.leaf id es).entries = es := by
  simp [Part.leaf, entries]

theorem entries_flatMap_cells (parts : List Part) :
    (parts.flatMap Part.cells).flatMap Prod.snd = parts.flatMap Part.entries := by
  rw [flatMap_assoc]
  rfl

@[simp] theorem entries_node (id : NodeId) (parts : List Part) :
    (Part.node id parts).entries = parts.flatMap Part.entries :=
  entries_flatMap_cells parts

theorem entries_mid (hP : P = Part.node P.id (ps₁ ++ C :: ps₂)) :
    P.entries = ps₁.flatMap Part.entries ++ (C.entries ++ ps₂.flatMap Part.entries) := by
  rw [hP]
  simp

theorem ids_mid (hP : P = Part.node P.id (ps₁ ++ C :: ps₂)) :
    P.ids = P.id :: (ps₁.flatMap Part.ids ++ (C.ids ++ ps₂.flatMap Part.ids)) := by
  rw [hP]
  simp [Part.node]

theorem flatten_ords (parts : List Part) :
    (parts.map Part.ords).flatten = (parts.flatMap Part.entries).map ord := by
  rw [map_flatMap]
  rfl

end Part

/-- The inner node describes exactly the given parts. -/
structure Describes (inner : InnerNode) (parts : List Part) : Prop where
  children : inner.children = parts.map Part.id
  childSizes : inner.childSizes = parts.map Part.size
  notNan : ∀ k ∈ inner.keys, k.NotNan
  separated : Separated (inner.keys.map ord) (parts.map Part.ords)

/-- The child at a position, by id. -/
theorem Describes.children_mid {inner : InnerNode}
    (h : Describes inner (ps₁ ++ C :: ps₂)) : inner.children[ps₁.length]? = some C.id := by
  rw [h.children, map_append, map_cons, ← length_map (f := Part.id), getElem?_append_cons]

/-- The child sizes before a position count the entries before it. -/
theorem Describes.sum_before {inner : InnerNode} (h : Describes inner (ps₁ ++ C :: ps₂)) :
    (inner.childSizes.take ps₁.length).sum = (ps₁.flatMap Part.entries).length := by
  rw [h.childSizes, map_append, ← length_map (f := Part.size), take_left, length_flatMap]
  rfl

/-- **Descending.** Going down by the partition point of a predicate that is closed downwards: the
keys before the chosen child satisfy it and those after do not, every entry before lies below a
key that does, and every entry after lies above a key that does not. -/
theorem Describes.route {inner : InnerNode} (h : Describes inner parts) {q : ℤ ×ₗ List ℕ → Bool}
    (hq : ∀ a b, a < b → q b = true → q a = true) :
    ∃ keys₁ keys₂ ps₁ C ps₂, inner.keys = keys₁ ++ keys₂ ∧ parts = ps₁ ++ C :: ps₂ ∧
      ps₁.length = keys₁.length ∧ partitionPoint (fun k => q (ord k)) inner.keys = keys₁.length ∧
      (∀ k ∈ keys₁, q k.ord = true) ∧ (∀ k ∈ keys₂, q k.ord = false) ∧
      (∀ e ∈ ps₁.flatMap Part.entries, ∃ k ∈ keys₁, e.ord < k.ord) ∧
      (∀ e ∈ ps₂.flatMap Part.entries, ∃ k ∈ keys₂, k.ord ≤ e.ord) ∧
      ∀ e ∈ C.entries, (∀ k ∈ keys₁, k.ord ≤ e.ord) ∧ ∀ k ∈ keys₂, e.ord < k.ord := by
  obtain ⟨ks₁, ks₂, os₁, o, os₂, hks, hos, hlen, hcut, htrue, hfalse⟩ := h.separated.route hq
  have hsep := h.separated
  rw [hks, hos] at hsep
  obtain ⟨hbefore, hafter, hmid⟩ := hsep.focus hlen
  obtain ⟨keys₁, keys₂, hkeys, rfl, rfl⟩ := map_eq_append_iff.1 hks
  obtain ⟨ps₁, ps', hparts, rfl, hps'⟩ := map_eq_append_iff.1 hos
  obtain ⟨C, ps₂, rfl, rfl, rfl⟩ := map_eq_cons_iff.1 hps'
  rw [partitionPoint_map] at hcut
  rw [Part.flatten_ords] at hbefore hafter
  simp only [mem_map, forall_exists_index, and_imp, forall_apply_eq_imp_iff₂,
    exists_exists_and_eq_and, Part.ords] at hbefore hafter hmid htrue hfalse
  exact ⟨keys₁, keys₂, ps₁, C, ps₂, hkeys, hparts, by simpa using hlen, by simpa using hcut, htrue,
    hfalse, hbefore, hafter, hmid⟩

/-- Going down by a key: it belongs between the entries before the chosen child and those after. -/
theorem Describes.routeKey {inner : InnerNode} (h : Describes inner parts) {x : EntryKey}
    (hx : x.NotNan) :
    ∃ keys₁ keys₂ ps₁ C ps₂, inner.keys = keys₁ ++ keys₂ ∧ parts = ps₁ ++ C :: ps₂ ∧
      ps₁.length = keys₁.length ∧ childIndexForKey inner.keys x = ps₁.length ∧
      ((∀ k ∈ keys₁, k.ord ≤ x.ord) ∧ ∀ k ∈ keys₂, x.ord < k.ord) ∧
      (∀ e ∈ ps₁.flatMap Part.entries, e.ord < x.ord) ∧
      (∀ e ∈ ps₂.flatMap Part.entries, x.ord < e.ord) ∧
      ∀ e ∈ C.entries, (∀ k ∈ keys₁, k.ord ≤ e.ord) ∧ ∀ k ∈ keys₂, e.ord < k.ord := by
  obtain ⟨keys₁, keys₂, ps₁, C, ps₂, hkeys, hparts, hlen, hcut, hle, hgt, hbefore, hafter, hC⟩ :=
    h.route (q := fun k => decide (k ≤ x.ord)) (by
      intro a b hab hb
      simp only [decide_eq_true_eq] at hb ⊢
      exact hab.le.trans hb)
  simp only [decide_eq_true_eq, decide_eq_false_iff_not, not_le] at hle hgt
  refine ⟨keys₁, keys₂, ps₁, C, ps₂, hkeys, hparts, hlen,
    ((childIndexForKey_eq h.notNan hx).trans hcut).trans hlen.symm, ⟨hle, hgt⟩, ?_, ?_, hC⟩
  · intro e he
    obtain ⟨k, hk, hlt⟩ := hbefore e he
    exact hlt.trans_le (hle k hk)
  · intro e he
    obtain ⟨k, hk, hlt⟩ := hafter e he
    exact (hgt k hk).trans_le hlt

def SubTree (get : NodeId → Option Node) : Nat → Part → Prop
  | 0, P => ∃ leaf, get P.id = some (.leaf leaf) ∧ P = Part.leaf P.id leaf.entries ∧
      leaf.entries ≠ [] ∧ leaf.entries.length ≤ leafCapacity
  | h + 1, P => ∃ inner parts, get P.id = some (.inner inner) ∧ P = Part.node P.id parts ∧
      Describes inner parts ∧ inner.keys.length ≤ innerCapacity ∧ ∀ C ∈ parts, SubTree get h C

/-- Forget the links of a leaf. -/
def stripLinks : Node → Node
  | .leaf leaf => .leaf { leaf with next := none, prev := none }
  | .inner inner => .inner inner

/-- The id holds the same node in both heaps, up to leaf links. -/
def SameNode (get get' : NodeId → Option Node) (q : NodeId) : Prop :=
  (get' q).map stripLinks = (get q).map stripLinks

theorem SameNode.inner {inner : InnerNode} (hq : SameNode get get' q)
    (hinner : get q = some (.inner inner)) : get' q = some (.inner inner) := by
  unfold SameNode at hq
  rw [hinner] at hq
  cases hget : get' q with
  | none => simp [hget] at hq
  | some n => cases n <;> simp_all [stripLinks]

theorem SameNode.leaf {leaf : LeafNode} (hq : SameNode get get' q)
    (hleaf : get q = some (.leaf leaf)) :
    ∃ leaf', get' q = some (.leaf leaf') ∧ leaf'.entries = leaf.entries := by
  unfold SameNode at hq
  rw [hleaf] at hq
  cases hget : get' q with
  | none => simp [hget] at hq
  | some n => cases n <;> simp_all [stripLinks]

theorem SameNode.of_eq (h : get' q = get q) : SameNode get get' q := by
  unfold SameNode
  rw [h]

theorem SameNode.trans {get'' : NodeId → Option Node} (h : SameNode get get' q)
    (h' : SameNode get' get'' q) : SameNode get get'' q :=
  Eq.trans h' h

/-- **Frame rule.** A heap that agrees, up to links, on the ids of a subtree holds the subtree. -/
theorem SubTree.congr (hsub : SubTree get h P) (hsame : ∀ q ∈ P.ids, SameNode get get' q) :
    SubTree get' h P := by
  induction h generalizing P with
  | zero =>
    obtain ⟨leaf, hget, hP, hne, hcap⟩ := hsub
    obtain ⟨leaf', hget', hentries⟩ := (hsame P.id (by rw [hP]; simp [Part.leaf])).leaf hget
    exact ⟨leaf', hget', by rw [hentries]; exact hP, by rw [hentries]; exact hne,
      by rw [hentries]; exact hcap⟩
  | succ h ih =>
    obtain ⟨inner, parts, hget, hP, hdesc, hcap, hparts⟩ := hsub
    have hids : P.ids = P.id :: parts.flatMap Part.ids := by rw [hP]; rfl
    refine ⟨inner, parts, (hsame P.id (by simp [hids])).inner hget, hP, hdesc, hcap, ?_⟩
    intro C hC
    apply ih (hparts C hC)
    intro q hq
    apply hsame
    rw [hids]
    exact mem_cons_of_mem _ (mem_flatMap.2 ⟨C, hC, hq⟩)

/-- Every node a subtree owns is live. -/
theorem SubTree.live (hsub : SubTree get h P) : ∀ q ∈ P.ids, ∃ n, get q = some n := by
  induction h generalizing P with
  | zero =>
    obtain ⟨leaf, hget, hP, -⟩ := hsub
    intro q hq
    rw [hP] at hq
    obtain rfl : q = P.id := by simpa [Part.leaf] using hq
    exact ⟨_, hget⟩
  | succ h ih =>
    obtain ⟨inner, parts, hget, hP, -, -, hparts⟩ := hsub
    rw [hP]
    exact forall_mem_cons.2 ⟨⟨_, hget⟩, forall_mem_flatMap.2 fun C hC => ih (hparts C hC)⟩

/-- A subtree is not empty. -/
theorem SubTree.entries_ne_nil (hsub : SubTree get h P) : P.entries ≠ [] := by
  induction h generalizing P with
  | zero =>
    obtain ⟨leaf, -, hP, hne, -⟩ := hsub
    rw [hP]
    simpa using hne
  | succ h ih =>
    obtain ⟨inner, parts, -, hP, hdesc, -, hparts⟩ := hsub
    rw [hP, Part.entries_node]
    -- an inner node has at least one child
    cases parts with
    | nil =>
      have hlen := hdesc.separated.length_eq
      simp at hlen
    | cons C parts =>
      have hC := ih (hparts C (by simp))
      simp [hC]

/-- No leaf of a subtree is empty. -/
theorem SubTree.cells_nonempty (hsub : SubTree get h P) : ∀ c ∈ P.cells, c.2 ≠ [] := by
  induction h generalizing P with
  | zero =>
    obtain ⟨leaf, -, hP, hne, -⟩ := hsub
    rw [hP]
    simpa [Part.leaf] using hne
  | succ h ih =>
    obtain ⟨inner, parts, -, hP, -, -, hparts⟩ := hsub
    rw [hP]
    intro c hc
    obtain ⟨C, hC, hc⟩ := mem_flatMap.1 (show c ∈ parts.flatMap Part.cells from hc)
    exact ih (hparts C hC) c hc

/-- A subtree of height `h` has more than `h` nodes: descending it takes that much fuel. -/
theorem SubTree.height_lt (hsub : SubTree get h P) : h < P.ids.length := by
  induction h generalizing P with
  | zero =>
    obtain ⟨leaf, -, hP, -⟩ := hsub
    rw [hP]
    simp [Part.leaf]
  | succ h ih =>
    obtain ⟨inner, parts, -, hP, hdesc, -, hparts⟩ := hsub
    rw [hP]
    cases parts with
    | nil =>
      have hlen := hdesc.separated.length_eq
      simp at hlen
    | cons C parts =>
      have hC := ih (hparts C (by simp))
      simp only [Part.node, flatMap_cons, length_cons, length_append]
      omega

/-- `subtree_size` is the number of entries. -/
theorem SubTree.subtreeSize (hsub : SubTree t.arena.get h P) :
    t.subtreeSize P.id = some P.size := by
  cases h with
  | zero =>
    obtain ⟨leaf, hget, hP, -⟩ := hsub
    have hsize : P.size = leaf.entries.length := by
      rw [hP, Part.size, Part.entries_leaf]
    simp [BPTree.subtreeSize, hget, hsize]
  | succ h =>
    obtain ⟨inner, parts, hget, hP, hdesc, -⟩ := hsub
    have hsize : P.size = (parts.map Part.size).sum := by
      rw [hP, Part.size, Part.entries_node, length_flatMap]
      rfl
    simp [BPTree.subtreeSize, hget, hdesc.childSizes, hsize]

/-! ## The tree invariant -/

/-- The arena, with its leaf links, holds a tree over the entries `es`. -/
inductive Holds (t : BPTree) : List ZSetEntry → Prop where
  | empty (hroot : t.root = none) (hleft : t.leftmost = none) (hright : t.rightmost = none) :
    Holds t []
  | tree (h : Nat) (P : Part) (hroot : t.root = some P.id) (hsub : SubTree t.arena.get h P)
      (hids : P.ids.Nodup) (hleaves : Leaves t.arena.get t.leftmost t.rightmost P.cells) :
    Holds t P.entries

/-- **The invariant of the tree part**, without the member index: the tree holds `es`, which is
strictly sorted, and counts it. -/
structure TreeInv (t : BPTree) (es : List ZSetEntry) : Prop where
  holds : Holds t es
  sorted : SortedEntries es
  len_eq : t.len = es.length
  freeList_eq : t.arena.freeList = []

/-- **The invariant**: the member index lists exactly the entries of the tree. -/
structure Inv (t : BPTree) (es : List ZSetEntry) : Prop extends TreeInv t es where
  index : ∀ m s, t.memberScores m = some s ↔ (⟨s, m⟩ : ZSetEntry) ∈ es

end BPTree

end Senko
