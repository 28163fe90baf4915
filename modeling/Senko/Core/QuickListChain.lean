import Senko.Core.QuickList
import Senko.Core.ListpackRoundTrip
import Senko.Lib.Chain

/-!
# Senko — the node chain of a quicklist

`Linked q cells` ties a quicklist to the list of its nodes, each with the entries it holds: the
arena carries them as one doubly linked chain from `head` to `tail`, and `node_count` is its length.
Each piece of chain surgery has one specification against `Linked`: which node it changes, adds or
drops, and that it touches live nodes only.

What a node may hold is a parameter `P`: chunks of short elements, whose encodings fit the one-byte
back-length at any place of a node, unless it is said otherwise.
-/

namespace Senko

open List Arena Chain QuickList

variable {q : QuickList} {xs ys cells : List (Nat × List Bytes)} {p r : Nat} {c : List Bytes}
  {a b : Option Nat} {P : List Bytes → Prop}

/-! ## Nodes as cells of a chain -/

/-- A listpack node read as a chain cell that holds a chunk of the list. -/
def nodeView (P : List Bytes → Prop := ShortChunk) : LinkView ListpackNode (List Bytes) where
  prev := ListpackNode.prev
  next := ListpackNode.next
  holds node chunk := node.data = encodeEntries 0 chunk ∧ node.count = chunk.length ∧ P chunk

theorem nodeView_holds_encode [Holdable P] (node : ListpackNode) {chunk : List Bytes}
    (h : P chunk) : (nodeView P).holds (encodeNodeEntries node chunk) chunk :=
  ⟨rfl, Nat.mod_eq_of_lt (Holdable.fit h).2.2, h⟩

/-- A node that holds a chunk behaves as that chunk. -/
theorem actsAsList_of_holds [Holdable P] {node : ListpackNode} {chunk : List Bytes}
    (h : (nodeView P).holds node chunk) : ActsAsList node chunk := by
  obtain ⟨hdata, hcount, hchunk⟩ := h
  have hfit := Holdable.fit hchunk
  have hnode : node = encodeNodeEntries node chunk := by
    rw [encodeNodeEntries, Nat.mod_eq_of_lt hfit.2.2, ← hdata, ← hcount]
  rw [hnode]
  exact hfit.actsAsList node

/-! ## The representation -/

namespace QuickList

/-- `cells` are the nodes of `q` from head to tail, with the entries each one holds. -/
structure Linked (q : QuickList) (cells : List (Nat × List Bytes))
    (P : List Bytes → Prop := ShortChunk) : Prop where
  chain : Chain (nodeView P) q.arena.get none cells none
  nodup : (cells.map Prod.fst).Nodup
  head : q.head = firstId cells none
  tail : q.tail = lastId none cells
  nodeCount : q.nodeCount = cells.length

theorem linked_new (fill : Int) : Linked (new fill) [] P := by
  constructor <;> simp [new]

theorem Linked.setLen (h : Linked q cells P) (len : Nat) :
    Linked { q with len := len } cells P := ⟨h.chain, h.nodup, h.head, h.tail, h.nodeCount⟩

/-- Fuel for a walk over the chain. -/
theorem Linked.length_le_size (h : Linked q cells P) : cells.length ≤ q.arena.size := by
  simpa using Arena.length_le_size h.nodup h.chain.live

/-- What the node in focus is and how it is linked. -/
theorem Linked.node (h : Linked q (xs ++ (p, c) :: ys) P) :
    ∃ n, q.arena.get p = some n ∧ (nodeView P).holds n c ∧ n.prev = lastId none xs ∧
      n.next = firstId ys none := by
  obtain ⟨-, hnode, -⟩ := append_iff.1 h.chain
  exact hnode

/-- **Rewriting a node's entries** keeps the chain. -/
theorem Linked.updateNode (h : Linked q (xs ++ (p, c) :: ys) P) {d : List Bytes}
    {f : ListpackNode → ListpackNode}
    (hf : ∀ n, q.arena.get p = some n → (nodeView P).holds n c →
      (nodeView P).holds (f n) d ∧ (f n).prev = n.prev ∧ (f n).next = n.next) :
    ∃ arena, q.updateNode p f = some { q with arena := arena } ∧
      Linked { q with arena := arena } (xs ++ (p, d) :: ys) P := by
  obtain ⟨n, hn, hholds, -, -⟩ := h.node
  obtain ⟨arena, hupd, -, hget⟩ := update_eq_some f hn
  have hchain : Chain (nodeView P) arena.get none (xs ++ (p, d) :: ys) none := by
    refine h.chain.set_holds (fun m hm hmc => ?_) fun r hr => by rw [hget, if_neg hr]
    obtain rfl : n = m := by simpa [hn] using hm
    obtain ⟨hv, hprev, hnext⟩ := hf n hn hmc
    exact ⟨f n, by simp [hget], hv, hprev, hnext⟩
  exact ⟨arena, by simp [QuickList.updateNode, hupd], hchain, hchain.nodup, by simpa using h.head,
    by simpa using h.tail, by simpa using h.nodeCount⟩

/-! ## Links -/

/-- **Writing the back link of the node after the focus**, or the list's tail. -/
theorem setPrevOrTail_eq (hchain : Chain (nodeView P) q.arena.get a ys none) (link : Option Nat) :
    ∃ arena tail, q.setPrevOrTail (firstId ys none) link =
        some { q with arena := arena, tail := tail } ∧
      (tail = if ys = [] then link else q.tail) ∧ Chain (nodeView P) arena.get link ys none ∧
      ∀ r ∉ ys.map Prod.fst, arena.get r = q.arena.get r := by
  rcases ys with _ | ⟨y, ys⟩
  · exact ⟨q.arena, link, rfl, rfl, trivial, fun _ _ => rfl⟩
  have hnodup := hchain.nodup
  obtain ⟨⟨n, hn, hv, -, hnext⟩, hrest⟩ := hchain
  obtain ⟨arena, hupd, -, hget⟩ :=
    update_eq_some (fun n : ListpackNode => { n with prev := link }) hn
  refine ⟨arena, q.tail, by simp [setPrevOrTail, updateNode, hupd], by simp,
    ⟨⟨{ n with prev := link }, by rw [hget, if_pos rfl], hv, rfl, hnext⟩,
      hrest.congr fun r hr => ?_⟩, fun r hr => ?_⟩
  · rw [hget, if_neg (ne_of_mem_of_not_mem hr (nodup_cons.1 hnodup).1)]
  · rw [hget, if_neg fun e => hr (by simp [e])]

/-- **Writing the forward link of the node before the focus**, or the list's head. -/
theorem setNextOrHead_eq (hchain : Chain (nodeView P) q.arena.get none xs b)
    (hnodup : (xs.map Prod.fst).Nodup) (link : Option Nat) :
    ∃ arena head, q.setNextOrHead (lastId none xs) link =
        some { q with arena := arena, head := head } ∧
      (head = if xs = [] then link else q.head) ∧ Chain (nodeView P) arena.get none xs link ∧
      ∀ r ∉ xs.map Prod.fst, arena.get r = q.arena.get r := by
  induction xs using List.reverseRecOn with
  | nil => exact ⟨q.arena, link, rfl, rfl, trivial, fun _ _ => rfl⟩
  | append_singleton xs x _ =>
    obtain ⟨hfront, ⟨n, hn, hv, hprev, -⟩, -⟩ := append_iff.1 hchain
    obtain ⟨arena, hupd, -, hget⟩ :=
      update_eq_some (fun n : ListpackNode => { n with next := link }) hn
    rw [map_append, nodup_append] at hnodup
    refine ⟨arena, q.head, by simp [setNextOrHead, updateNode, hupd], by simp,
      append_iff.2 ⟨hfront.congr fun r hr => ?_,
        ⟨{ n with next := link }, by rw [hget, if_pos rfl], hv, hprev, rfl⟩, trivial⟩, fun r hr =>
          ?_⟩
    · rw [hget, if_neg (hnodup.2.2 r hr x.1 (by simp))]
    · rw [hget, if_neg fun e => hr (by simp [e])]

/-! ## Unlinking -/

/-- **`unlink_node` drops exactly the node it is given.** -/
theorem Linked.unlinkNode (h : Linked q (xs ++ (p, c) :: ys) P) :
    ∃ q', q.unlinkNode p = some q' ∧ Linked q' (xs ++ ys) P ∧ q'.len = q.len ∧
      q'.fill = q.fill := by
  obtain ⟨n, hn, -, hprev, hnext⟩ := h.node
  obtain ⟨hpx, hpy, hdisj⟩ := h.chain.apart
  have hxnodup := h.nodup.sublist ((sublist_append_left xs _).map _)
  obtain ⟨hxs, -, hys⟩ := append_iff.1 h.chain
  -- the two neighbours are rewritten one after the other, then the node is released
  obtain ⟨arena₁, head, hset₁, hhead, hxs₁, hsame₁⟩ :=
    setNextOrHead_eq (q := q) hxs hxnodup (firstId ys none)
  have hys₁ : Chain (nodeView P) arena₁.get (some p) ys none :=
    hys.congr fun r hr => hsame₁ r fun hx => hdisj r hx hr
  obtain ⟨arena₂, tail, hset₂, htail, hys₂, hsame₂⟩ :=
    setPrevOrTail_eq (q := { q with arena := arena₁, head := head }) hys₁ (lastId none xs)
  have hp₂ : arena₂.get p = some n := ((hsame₂ p hpy).trans (hsame₁ p hpx)).trans hn
  obtain ⟨arena₃, hfree, -, hget₃⟩ := free_eq_some hp₂
  set q' : QuickList := { q with
    arena := arena₃, head := head, tail := tail, nodeCount := q.nodeCount - 1 } with hq'
  have hrun : q.unlinkNode p =
      if q'.nodeCount = 0 then some { q' with head := none, tail := none } else some q' := by
    rw [← hprev, ← hnext] at hset₁
    rw [← hprev, ← hnext] at hset₂
    simp only [QuickList.unlinkNode, hn, some_bind, hset₁, hset₂, hfree, hq']
  have hcount : q'.nodeCount = (xs ++ ys).length := by
    simp [hq', h.nodeCount]
  have hrest : Chain (nodeView P) arena₃.get none (xs ++ ys) none := by
    rw [append_iff]
    refine ⟨hxs₁.congr fun r hr => ?_, hys₂.congr fun r hr => ?_⟩
    · rw [hget₃, if_neg (ne_of_mem_of_not_mem hr hpx), hsame₂ r (hdisj r hr)]
    · rw [hget₃, if_neg (ne_of_mem_of_not_mem hr hpy)]
  rw [hrun]
  by_cases hzero : q'.nodeCount = 0
  · obtain ⟨hx0, hy0⟩ : xs = [] ∧ ys = [] := by simpa [hzero] using hcount.symm
    rw [if_pos hzero]
    refine ⟨_, rfl, ⟨hrest, hrest.nodup, ?_, ?_, hcount⟩, rfl, rfl⟩ <;> simp [hx0, hy0]
  rw [if_neg hzero]
  refine ⟨_, rfl, ⟨hrest, hrest.nodup, ?_, ?_, hcount⟩, rfl, rfl⟩
  · change head = _
    rw [hhead, h.head]
    cases xs <;> simp
  · change tail = _
    rw [htail, h.tail]
    cases ys <;> simp

/-! ## Splitting -/

/-- A fresh node that already points at its neighbours is linked in after the node in focus. -/
theorem Linked.linkAfter (h : Linked q (xs ++ (p, c) :: ys) P) {d : List Bytes}
    {newNode : ListpackNode}
    (hholds : (nodeView P).holds newNode d) (hprev : newNode.prev = some p)
    (hnext : newNode.next = firstId ys none) :
    ∃ q' r, q.linkAfter p newNode = some q' ∧ Linked q' (xs ++ (p, c) :: (r, d) :: ys) P ∧
      q'.len = q.len ∧ q'.fill = q.fill := by
  obtain ⟨n, hn, hc, hnprev, -⟩ := h.node
  obtain ⟨hpx, hpy, hdisj⟩ := h.chain.apart
  obtain ⟨hxs, -, hys⟩ := append_iff.1 h.chain
  set new := (q.allocNode newNode).2 with hnew
  set arena₁ := (q.allocNode newNode).1.arena with harena₁
  -- the fresh id is none of the chain's
  have hfresh : ∀ r ∈ (xs ++ (p, c) :: ys).map Prod.fst, r ≠ new := by
    intro r hr
    obtain ⟨m, hm⟩ := h.chain.live r hr
    exact Nat.ne_of_lt (lt_size_of_get hm)
  have hnewget : arena₁.get new = some newNode := get_alloc_new newNode
  have hold : ∀ r, r ≠ new → arena₁.get r = q.arena.get r := fun r hr =>
    get_alloc_of_ne newNode hr
  have hxnew : ∀ r ∈ xs.map Prod.fst, r ≠ new := fun r hr => hfresh r (by simp_all)
  have hynew : ∀ r ∈ ys.map Prod.fst, r ≠ new := fun r hr => hfresh r (by simp_all)
  have hpnew : p ≠ new := hfresh p (by simp)
  have hys₁ : Chain (nodeView P) arena₁.get (some p) ys none :=
    hys.congr fun r hr => hold r (hynew r hr)
  obtain ⟨arena₂, tail, hset, htail, hys₂, hsame₂⟩ :=
    setPrevOrTail_eq (q := (q.allocNode newNode).1) hys₁ (some new)
  have hp₂ : arena₂.get p = some n := ((hsame₂ p hpy).trans (hold p hpnew)).trans hn
  obtain ⟨arena₃, hupd, -, hget₃⟩ :=
    update_eq_some (fun n : ListpackNode => { n with next := some new }) hp₂
  have hoff : ∀ r, r ≠ p → r ∉ ys.map Prod.fst → arena₃.get r = arena₁.get r := by
    intro r hrp hry
    rw [hget₃, if_neg hrp]
    exact hsame₂ r hry
  have hchain : Chain (nodeView P) arena₃.get none (xs ++ (p, c) :: (new, d) :: ys) none := by
    rw [append_iff, chain_cons, chain_cons]
    refine ⟨hxs.congr ?_, ⟨{ n with next := some new }, by simp [hget₃], hc, hnprev, rfl⟩,
      ⟨newNode, ?_, hholds, hprev, hnext⟩, ?_⟩
    · intro r hr
      rw [hoff r (ne_of_mem_of_not_mem hr hpx) (hdisj r hr), hold r (hxnew r hr)]
    · rw [hoff new (Ne.symm hpnew) (fun hmem => hynew new hmem rfl), hnewget]
    · exact hys₂.congr fun r hr => by rw [hget₃, if_neg (ne_of_mem_of_not_mem hr hpy)]
  refine ⟨{ q with arena := arena₃, tail := tail, nodeCount := q.nodeCount + 1 }, new, ?_,
    ⟨hchain, hchain.nodup, ?_, ?_, ?_⟩, rfl, rfl⟩
  · simp only [QuickList.linkAfter, hnext, ← hnew, hset, some_bind, QuickList.updateNode, hupd]
    rfl
  · rw [h.head]
    simp
  · rw [htail]
    have := h.tail
    cases ys with
    | nil => simp
    | cons y ys => simpa [allocNode] using this
  · simp [h.nodeCount]
    omega

/-- What becomes of a node that decodes to `d`: with at most `fill` entries it is left alone, and
any other one is cut in two, at the middle. -/
theorem Linked.splitDecoded (h : Linked q (xs ++ (p, c) :: ys) P) {d : List Bytes}
    (hd : ∀ n, (nodeView P).holds n c → decodeAllEntries n = d)
    (hleft : P (d.take (d.length / 2))) (hright : P (d.drop (d.length / 2)))
    (hsize : d.length < 2 ^ 16) :
    ∃ q', q.splitIfNeeded p = some q' ∧ q'.len = q.len ∧ q'.fill = q.fill ∧
      (((c.length : Int) ≤ q.fill ∧ q' = q) ∨
        (q.fill < c.length ∧ ∃ r, Linked q' (xs ++ (p, d.take (d.length / 2)) ::
          (r, d.drop (d.length / 2)) :: ys) P)) := by
  obtain ⟨n, hn, hc, -, hnext⟩ := h.node
  have hcount : n.count = c.length := hc.2.1
  by_cases hfull : (c.length : Int) ≤ q.fill
  · refine ⟨q, ?_, rfl, rfl, .inl ⟨hfull, rfl⟩⟩
    simp [QuickList.splitIfNeeded, hn, hcount, hfull]
  -- the node keeps the first half, and a new node after it takes the second
  set left := d.take (d.length / 2) with hl
  set right := d.drop (d.length / 2) with hr
  have hencode : ∀ (m : ListpackNode) (chunk : List Bytes), chunk.length ≤ d.length → P chunk →
      (nodeView P).holds (encodeNodeEntries m chunk) chunk := fun m chunk hle hchunk =>
    ⟨rfl, Nat.mod_eq_of_lt (by omega), hchunk⟩
  obtain ⟨arena₁, hupd, hrepr₁⟩ := h.updateNode (d := left) (f := (encodeNodeEntries · left))
    fun m _ _ => ⟨hencode m left (by simp [hl]) hleft, rfl, rfl⟩
  have hnew : (nodeView P).holds
      { encodeNodeEntries {} right with prev := some p, next := n.next } right :=
    hencode {} right (by simp [hr]) hright
  obtain ⟨q', r, hrun, hrepr, hlen, hfill⟩ := hrepr₁.linkAfter hnew rfl hnext
  refine ⟨q', ?_, hlen, hfill, .inr ⟨by omega, r, hrepr⟩⟩
  simp only [QuickList.splitIfNeeded, hn, some_bind, hcount, if_neg hfull, hd n hc]
  rw [hupd]
  exact hrun

/-- **`split_if_needed`** on a node that reads back. -/
theorem Linked.splitIfNeeded [Holdable P] (h : Linked q (xs ++ (p, c) :: ys) P) :
    ∃ q', q.splitIfNeeded p = some q' ∧ q'.len = q.len ∧ q'.fill = q.fill ∧
      (((c.length : Int) ≤ q.fill ∧ q' = q) ∨
        (q.fill < c.length ∧ ∃ r, Linked q' (xs ++ (p, c.take (c.length / 2)) ::
          (r, c.drop (c.length / 2)) :: ys) P)) := by
  obtain ⟨n, -, hc, -⟩ := h.node
  obtain ⟨hleft, hright⟩ : P (c.take (c.length / 2)) ∧ P (c.drop (c.length / 2)) :=
    Holdable.of_append (by rw [take_append_drop]; exact hc.2.2)
  exact h.splitDecoded (fun n hn => (actsAsList_of_holds hn).decode) hleft hright
    (Holdable.fit hc.2.2).2.2

/-! ## Merging -/

/-- The elements of a chain of chunks, in order. -/
def flat (cells : List (Nat × List Bytes)) : List Bytes := cells.flatMap Prod.snd

@[simp] theorem flat_nil : flat [] = [] := rfl

@[simp] theorem flat_cons (cell : Nat × List Bytes) (cells : List (Nat × List Bytes)) :
    flat (cell :: cells) = cell.2 ++ flat cells := rfl

@[simp] theorem flat_append (xs ys : List (Nat × List Bytes)) :
    flat (xs ++ ys) = flat xs ++ flat ys := flatMap_append

/-- Every element of a chain of short chunks is short. -/
theorem Linked.shortElement (h : Linked q cells) : ∀ e ∈ flat cells, ShortElement e := by
  intro e he
  obtain ⟨cell, hcell, he⟩ := mem_flatMap.1 he
  obtain ⟨n, -, hn⟩ := h.chain.get_of_mem hcell
  exact hn.2.2.1 e he

theorem Linked.divisible (h : Linked q cells) : Divisible ShortChunk (flat cells) :=
  divisible_of_short h.shortElement

/-- **`try_merge_with_next`** merges a node with its successor exactly when both together hold at
most `fill / 2` entries, and then releases the successor. -/
theorem Linked.tryMergeWithNext [Holdable P] (h : Linked q (xs ++ (p, c) :: ys) P)
    (hfill : q.fill < 2 ^ 16) (hP : Divisible P (flat (xs ++ (p, c) :: ys))) :
    ∃ q', q.tryMergeWithNext p = some q' ∧ q'.len = q.len ∧ q'.fill = q.fill ∧
      ((q' = q ∧ ∀ r d ys', ys = (r, d) :: ys' → q.fill / 2 < c.length + d.length) ∨
        ∃ r d ys', ys = (r, d) :: ys' ∧ (c.length : Int) + d.length ≤ q.fill / 2 ∧
          Linked q' (xs ++ (p, c ++ d) :: ys') P) := by
  obtain ⟨n, hn, hc, -, hnext⟩ := h.node
  have hcount : n.count = c.length := hc.2.1
  rcases ys with _ | ⟨y, ys⟩
  · refine ⟨q, ?_, rfl, rfl, Or.inl ⟨rfl, by simp⟩⟩
    simp [tryMergeWithNext, hn, hnext]
  obtain ⟨r, d⟩ := y
  have hsplit : xs ++ (p, c) :: (r, d) :: ys = (xs ++ [(p, c)]) ++ (r, d) :: ys := by simp
  obtain ⟨m, hm, hd, -, -⟩ := (hsplit ▸ h).node
  have hmcount : m.count = d.length := hd.2.1
  rw [firstId_cons] at hnext
  by_cases hbig : (c.length : Int) + d.length > q.fill / 2
  · refine ⟨q, ?_, rfl, rfl, .inl ⟨rfl, ?_⟩⟩
    · simp [tryMergeWithNext, hn, hnext, hm, hcount, hmcount, hbig]
    · rintro r' d' ys' ⟨⟩
      exact hbig
  have hmerged : P (c ++ d) := by
    refine hP _ ⟨flat xs, flat ys, by simp⟩ ?_
    rw [length_append]
    omega
  obtain ⟨arena, hupd, hrepr⟩ := h.updateNode (d := c ++ d)
    fun k _ _ => ⟨nodeView_holds_encode k hmerged, rfl, rfl⟩
  have hsplit' : xs ++ (p, c ++ d) :: (r, d) :: ys =
      (xs ++ [(p, c ++ d)]) ++ (r, d) :: ys := by simp
  obtain ⟨q', hunlink, hrepr', hlen, hfill'⟩ := (hsplit' ▸ hrepr).unlinkNode
  refine ⟨q', ?_, hlen, hfill', Or.inr ⟨r, d, ys, rfl, by omega, by simpa using hrepr'⟩⟩
  simp only [tryMergeWithNext, hn, some_bind, hnext, hm,
    hcount, hmcount, if_neg hbig, (actsAsList_of_holds hc).decode,
    (actsAsList_of_holds hd).decode, hupd]
  exact hunlink

/-- No node is empty and none holds more than `fill` entries. -/
def Packed (fill : Int) (cells : List (Nat × List Bytes)) : Prop :=
  ∀ cell ∈ cells, cell.2 ≠ [] ∧ (cell.2.length : Int) ≤ fill

theorem packed_append {fill : Int} : Packed fill (xs ++ ys) ↔ Packed fill xs ∧ Packed fill ys := by
  simp only [Packed, mem_append]
  exact ⟨fun h => ⟨fun x hx => h x (.inl hx), fun x hx => h x (.inr hx)⟩,
    fun h x hx => hx.elim (h.1 x) (h.2 x)⟩

theorem packed_cons {fill : Int} {cell : Nat × List Bytes} : Packed fill (cell :: cells) ↔
      (cell.2 ≠ [] ∧ (cell.2.length : Int) ≤ fill) ∧ Packed fill cells := by
  simp [Packed]

/-- A node that is at most one entry too full is split into two packed ones. -/
theorem Linked.splitIfNeeded_packed [Holdable P] (h : Linked q (xs ++ (p, c) :: ys) P)
    (hpos : 1 ≤ q.fill) (hxs : Packed q.fill xs) (hys : Packed q.fill ys) (hc : c ≠ [])
    (hlen : (c.length : Int) ≤ q.fill + 1) :
    ∃ q' cells, q.splitIfNeeded p = some q' ∧ q'.len = q.len ∧ q'.fill = q.fill ∧
      Linked q' cells P ∧ Packed q.fill cells ∧ flat cells = flat (xs ++ (p, c) :: ys) := by
  obtain ⟨q', hrun, hqlen, hqfill, hcase⟩ := h.splitIfNeeded
  rcases hcase with ⟨hfits, rfl⟩ | ⟨hover, r, hrepr⟩
  · exact ⟨q', _, hrun, rfl, rfl, h, packed_append.2 ⟨hxs, packed_cons.2 ⟨⟨hc, hfits⟩, hys⟩⟩, rfl⟩
  refine ⟨q', _, hrun, hqlen, hqfill, hrepr, ?_, by simp [← append_assoc]⟩
  have hleft : (c.take (c.length / 2)).length = c.length / 2 := by
    rw [length_take]
    omega
  have hright : (c.drop (c.length / 2)).length = c.length - c.length / 2 := length_drop
  have hne : ∀ s : List Bytes, 0 < s.length → s ≠ [] := fun s => length_pos_iff.1
  simp only [packed_append, packed_cons]
  exact ⟨hxs, ⟨hne _ (by omega), by omega⟩, ⟨hne _ (by omega), by omega⟩, hys⟩

section Merge

variable [Holdable P] (h : Linked q (xs ++ (p, c) :: ys) P) (hpos : 1 ≤ q.fill)
  (hP : Divisible P (flat (xs ++ (p, c) :: ys)))

include h hpos hP

/-- A merge keeps the elements and the packing. -/
theorem Linked.tryMergeWithNext_packed (hfill : q.fill < 2 ^ 16)
    (hpacked : Packed q.fill (xs ++ (p, c) :: ys)) :
    ∃ q' c' ys', q.tryMergeWithNext p = some q' ∧ q'.len = q.len ∧ q'.fill = q.fill ∧
      Linked q' (xs ++ (p, c') :: ys') P ∧ Packed q.fill (xs ++ (p, c') :: ys') ∧
      flat (xs ++ (p, c') :: ys') = flat (xs ++ (p, c) :: ys) := by
  obtain ⟨q', hrun, hlen, hfill', hcase⟩ := h.tryMergeWithNext hfill hP
  rcases hcase with ⟨rfl, -⟩ | ⟨r, d, ys', rfl, hsmall, hrepr⟩
  · exact ⟨q', c, ys, hrun, rfl, rfl, h, hpacked, rfl⟩
  refine ⟨q', c ++ d, ys', hrun, hlen, hfill', hrepr, ?_, by simp⟩
  simp only [packed_append, packed_cons] at hpacked ⊢
  obtain ⟨hxs, hp, -, hys⟩ := hpacked
  refine ⟨hxs, ⟨by simp [hp.1], ?_⟩, hys⟩
  simp only [length_append]
  omega

/-- **`cleanup_after_mutation`** keeps the elements and restores the packing: an emptied node goes,
any other one may merge with its neighbours. -/
theorem Linked.cleanupAfterMutation (hfill : q.fill < 2 ^ 16) (hxs : Packed q.fill xs)
    (hys : Packed q.fill ys) (hc : (c.length : Int) ≤ q.fill) :
    ∃ q' cells, q.cleanupAfterMutation p = some q' ∧ q'.len = q.len ∧ q'.fill = q.fill ∧
      Linked q' cells P ∧ Packed q.fill cells ∧ flat cells = flat (xs ++ (p, c) :: ys) := by
  obtain ⟨n, hn, hholds, -, -⟩ := h.node
  have hcount : n.count = c.length := hholds.2.1
  by_cases hempty : c = []
  · subst hempty
    obtain ⟨q', hunlink, hrepr, hlen, hfill'⟩ := h.unlinkNode
    refine ⟨q', xs ++ ys, ?_, hlen, hfill', hrepr, packed_append.2 ⟨hxs, hys⟩, by simp⟩
    simpa [cleanupAfterMutation, hn, hcount] using hunlink
  have hpacked : Packed q.fill (xs ++ (p, c) :: ys) :=
    packed_append.2 ⟨hxs, packed_cons.2 ⟨⟨hempty, hc⟩, hys⟩⟩
  have hnz : n.count ≠ 0 := by
    rw [hcount]
    exact fun e => hempty (length_eq_zero_iff.1 e)
  obtain ⟨q₁, c₁, ys₁, hrun₁, hlen₁, hfill₁, hrepr₁, hpacked₁, hflat₁⟩ :=
    h.tryMergeWithNext_packed hpos hP hfill hpacked
  obtain ⟨n₁, hn₁, -, hprev₁, -⟩ := hrepr₁.node
  -- the second merge is the predecessor's, if there is one
  induction xs using List.reverseRecOn with
  | nil =>
    refine ⟨q₁, _, ?_, hlen₁, hfill₁, hrepr₁, hpacked₁, hflat₁⟩
    simp [QuickList.cleanupAfterMutation, hn, hnz, hrun₁, hn₁, hprev₁]
  | append_singleton xs x _ =>
    obtain ⟨o, b⟩ := x
    have hsplit : (xs ++ [(o, b)]) ++ (p, c₁) :: ys₁ = xs ++ (o, b) :: (p, c₁) :: ys₁ := by simp
    obtain ⟨q₂, c₂, ys₂, hrun₂, hlen₂, hfill₂, hrepr₂, hpacked₂, hflat₂⟩ :=
      (hsplit ▸ hrepr₁).tryMergeWithNext_packed (hfill₁ ▸ hpos) (hsplit ▸ hflat₁.symm ▸ hP)
        (hfill₁ ▸ hfill) (hfill₁ ▸ hsplit ▸ hpacked₁)
    refine ⟨q₂, _, ?_, hlen₂.trans hlen₁, hfill₂.trans hfill₁, hrepr₂, hfill₁ ▸ hpacked₂,
      hflat₂.trans (hsplit ▸ hflat₁)⟩
    simp [QuickList.cleanupAfterMutation, hn, hnz, hrun₁, hn₁, hprev₁, hrun₂]

end Merge

end QuickList

end Senko
