import Senko.Core.QuickListChain

/-!
# Senko — a quicklist refines a plain list

`Inv q l` says that `q` is a well-formed quicklist whose elements are `l`: its nodes form one
consistent chain, none is empty or overfull, and its counters are exact. Every operation of
`list.rs` is shown to map `Inv q l` to `Inv q' l'`, where `l'` is what the same operation makes of
the list, and to return what the list operation returns.
-/

namespace Senko.QuickList

open List QuickList

/-- The nodes `cells` are all of `q`, packed, and the counters agree. -/
structure InvWith (q : QuickList) (cells : List (Nat × List Bytes))
    (P : List Bytes → Prop := ShortChunk) : Prop where
  linked : Linked q cells P
  packed : Packed q.fill cells
  len : q.len = (flat cells).length
  fillPos : 1 ≤ q.fill
  fillMax : q.fill ≤ 65534

/-- `q` is a well-formed quicklist with the elements `l`. -/
def Inv (q : QuickList) (l : List Bytes) (P : List Bytes → Prop := ShortChunk) : Prop :=
  ∃ cells, InvWith q cells P ∧ flat cells = l

variable {q : QuickList} {l c d : List Bytes} {xs ys cells rest : List (Nat × List Bytes)}
  {p fuel k normalized current : Nat} {e : Bytes} {a : Option Nat} {f : ListpackNode → ListpackNode}
  {P : List Bytes → Prop}

theorem inv_new {fill : Int} (hfill : fill ≤ 65534) : Inv (new fill) [] P := by
  refine ⟨[], ⟨linked_new fill, by simp [Packed], rfl, ?_, ?_⟩, rfl⟩
  · exact le_max_right _ _
  · exact max_le hfill (by norm_num)

/-- The parts of a packed chain around a focus. -/
theorem InvWith.parts (h : InvWith q (xs ++ (p, c) :: ys) P) :
    Packed q.fill xs ∧ Packed q.fill ys ∧ c ≠ [] ∧ (c.length : Int) ≤ q.fill := by
  have hpacked := h.packed
  rw [packed_append, packed_cons] at hpacked
  exact ⟨hpacked.1, hpacked.2.2, hpacked.2.1.1, hpacked.2.1.2⟩

/-! ## Pushing -/

/-- A one-node chain for the empty list. -/
theorem linked_allocFirst [Holdable P] (q : QuickList) : Linked { (q.allocNode {}).1 with
      head := some (q.allocNode {}).2, tail := some (q.allocNode {}).2, nodeCount := 1 }
      [((q.allocNode {}).2, [])] P := by
  refine ⟨⟨⟨{}, Arena.get_alloc_new _, ⟨rfl, rfl, Holdable.nil⟩, rfl, rfl⟩, trivial⟩, ?_, rfl,
    rfl, rfl⟩
  simp

section Grow

variable [Holdable P] (hd : d.length = c.length + 1) (hchunk : P c → d.length < 2 ^ 16 → P d)
  (hf : ∀ n, ActsAsList n c → f n = encodeNodeEntries n d)

include hd hchunk hf

/-- A chunk grows by one element and is split if it got too long. -/
theorem Linked.growNode (h : Linked q (xs ++ (p, c) :: ys) P) (hpos : 1 ≤ q.fill)
    (hmax : q.fill ≤ 65534) (hxs : Packed q.fill xs) (hys : Packed q.fill ys)
    (hc : (c.length : Int) ≤ q.fill) (hlen : q.len = (flat (xs ++ (p, c) :: ys)).length) :
    ∃ q', ((q.updateNode p f).bind fun q =>
        QuickList.splitIfNeeded { q with len := q.len + 1 } p) = some q' ∧
      Inv q' (flat (xs ++ (p, d) :: ys)) P ∧ q'.fill = q.fill := by
  obtain ⟨n, -, hn, -⟩ := h.node
  have hgrown : P d := hchunk hn.2.2 (by omega)
  have hne : d ≠ [] := length_pos_iff.1 (by omega)
  obtain ⟨arena, hupd, hrepr⟩ := h.updateNode (d := d) (f := f) (by
    intro n _ hn
    rw [hf n (actsAsList_of_holds hn)]
    exact ⟨nodeView_holds_encode n hgrown, rfl, rfl⟩)
  obtain ⟨q', cells, hsplit, hqlen, hqfill, hrepr', hpacked, hflat⟩ :=
    (hrepr.setLen (q.len + 1)).splitIfNeeded_packed hpos hxs hys hne (by
      rw [hd]
      exact Int.add_le_add_right hc 1)
  refine ⟨q', by rw [hupd]; exact hsplit, ⟨cells, ⟨hrepr', hqfill ▸ hpacked, ?_, hqfill ▸ hpos,
    hqfill ▸ hmax⟩, hflat⟩, hqfill⟩
  rw [hqlen, hflat]
  simp only [flat_append, flat_cons, length_append] at hlen ⊢
  omega

theorem InvWith.growNode (h : InvWith q (xs ++ (p, c) :: ys) P) :
    ∃ q', ((q.updateNode p f).bind fun q => splitIfNeeded { q with len := q.len + 1 } p) =
        some q' ∧ Inv q' (flat (xs ++ (p, d) :: ys)) P ∧ q'.fill = q.fill := by
  obtain ⟨hxs, hys, -, hc⟩ := h.parts
  exact h.linked.growNode hd hchunk hf h.fillPos h.fillMax hxs hys hc h.len

end Grow

/-- The first element gets a node of its own. -/
theorem InvWith.growFirst [Holdable P] (h : InvWith q [] P) (he : P [e])
    (hf : ∀ n, ActsAsList n [] → f n = encodeNodeEntries n [e]) :
    ∃ q', (((q.ensureNode none).1.updateNode (q.ensureNode none).2 f).bind fun q' =>
        splitIfNeeded { q' with len := q'.len + 1 } (q.ensureNode none).2) = some q' ∧
      Inv q' [e] P ∧ q'.fill = q.fill := by
  have hlinked : Linked _ ([] ++ (_, []) :: []) P := linked_allocFirst q
  exact hlinked.growNode rfl (fun _ _ => he) hf h.fillPos h.fillMax (by simp [Packed])
    (by simp [Packed]) (Int.le_trans (by norm_num) h.fillPos) h.len

/-- **`push_front` puts the element before the list**, if every part of it may be in a node. -/
theorem Inv.pushFront_divisible [Holdable P] (h : Inv q l P) (hP : Divisible P (e :: l)) :
    ∃ q', q.pushFront e = some q' ∧ Inv q' (e :: l) P ∧ q'.fill = q.fill := by
  obtain ⟨cells, hinv, rfl⟩ := h
  cases cells with
  | nil =>
    have hhead : q.head = none := hinv.linked.head
    rw [pushFront, hhead]
    exact hinv.growFirst (hP _ ⟨[], flat [], by simp⟩ (by simp)) fun n hn => hn.pushFront e
  | cons cell ys =>
    obtain ⟨p, c⟩ := cell
    have hhead : q.head = some p := hinv.linked.head
    replace hinv : InvWith q ([] ++ (p, c) :: ys) P := hinv
    rw [pushFront, hhead]
    exact hinv.growNode (d := e :: c) rfl (fun _ => hP _ ⟨[], flat ys, by simp⟩)
      fun n hn => hn.pushFront e

/-- Every element of a well-formed quicklist is short. -/
theorem Inv.shortElement (h : Inv q l) : ∀ e ∈ l, ShortElement e := by
  obtain ⟨cells, hinv, rfl⟩ := h
  exact hinv.linked.shortElement

theorem Inv.pushFront (h : Inv q l) (he : ShortElement e) :
    ∃ q', q.pushFront e = some q' ∧ Inv q' (e :: l) ∧ q'.fill = q.fill :=
  h.pushFront_divisible (divisible_of_short (forall_mem_cons.2 ⟨he, h.shortElement⟩))

/-- The entries of the last node. -/
def tailChunk (q : QuickList) : List Bytes := ((q.tail.bind q.arena.get).map lpIter).getD []

/-- **`push_back` puts the element after the list**, if the last node may hold it. -/
theorem Inv.pushBack_holdable [Holdable P] (h : Inv q l P)
    (he : q.tailChunk <:+ l → P q.tailChunk → (q.tailChunk ++ [e]).length < 2 ^ 16 →
      P (q.tailChunk ++ [e])) :
    ∃ q', q.pushBack e = some q' ∧ Inv q' (l ++ [e]) P ∧ q'.fill = q.fill := by
  obtain ⟨cells, hinv, rfl⟩ := h
  -- the last cell is the tail, where the entry goes
  induction cells using List.reverseRecOn with
  | nil =>
    have htail : q.tail = none := hinv.linked.tail
    have hchunk : q.tailChunk = [] := by rw [tailChunk, htail]; rfl
    rw [hchunk] at he
    rw [pushBack, htail]
    exact hinv.growFirst (he nil_suffix Holdable.nil (by simp)) fun n hn => hn.pushBack e
  | append_singleton xs cell _ =>
    obtain ⟨p, c⟩ := cell
    have htail : q.tail = some p := by
      rw [hinv.linked.tail]
      simp
    obtain ⟨n, hget, hn, -⟩ := hinv.linked.node
    have hchunk : q.tailChunk = c := by
      rw [tailChunk, htail, Option.bind_some, hget, Option.map_some, Option.getD_some,
        (actsAsList_of_holds hn).iter]
    rw [hchunk] at he
    obtain ⟨q', hrun, hres⟩ := hinv.growNode (d := c ++ [e]) (by simp)
      (he ⟨flat xs, by simp⟩) fun n hn => hn.pushBack e
    refine ⟨q', ?_, by simpa using hres⟩
    rw [pushBack, htail]
    exact hrun

theorem Inv.pushBack_divisible [Holdable P] (h : Inv q l P) (hP : Divisible P (l ++ [e])) :
    ∃ q', q.pushBack e = some q' ∧ Inv q' (l ++ [e]) P ∧ q'.fill = q.fill :=
  h.pushBack_holdable fun hc _ =>
    hP _ ((suffix_append_inj_of_length_eq rfl).2 ⟨hc, rfl⟩).isInfix

theorem Inv.pushBack (h : Inv q l) (he : ShortElement e) :
    ∃ q', q.pushBack e = some q' ∧ Inv q' (l ++ [e]) ∧ q'.fill = q.fill :=
  h.pushBack_holdable fun _ => .grow he (by simp [or_comm])

/-! ## Popping -/

/-- A node whose entries were replaced by no more entries is cleaned up. -/
theorem InvWith.cleanNode [Holdable P] (h : InvWith q (xs ++ (p, c) :: ys) P)
    (hP : Divisible P (flat (xs ++ (p, d) :: ys))) (hle : d.length ≤ c.length)
    (hf : ∀ n, q.arena.get p = some n → ActsAsList n c → f n = encodeNodeEntries n d)
    (len : Nat) (hlen : len = (flat (xs ++ (p, d) :: ys)).length) :
    ∃ arena q', q.updateNode p f = some { q with arena := arena } ∧
      Linked { q with arena := arena } (xs ++ (p, d) :: ys) P ∧
      cleanupAfterMutation { q with arena := arena, len := len } p = some q' ∧
      Inv q' (flat (xs ++ (p, d) :: ys)) P ∧ q'.fill = q.fill := by
  obtain ⟨hxs, hys, -, hc⟩ := h.parts
  have hmax := h.fillMax
  have hd : P d := hP d ⟨flat xs, flat ys, by simp⟩ (by omega)
  obtain ⟨arena, hupd, hrepr⟩ := h.linked.updateNode (d := d) (f := f) (by
    intro n hget hn
    rw [hf n hget (actsAsList_of_holds hn)]
    exact ⟨nodeView_holds_encode n hd, rfl, rfl⟩)
  obtain ⟨q', cells, hclean, hqlen, hqfill, hrepr', hpacked, hflat⟩ :=
    (hrepr.setLen len).cleanupAfterMutation h.fillPos hP
      (Int.lt_of_le_of_lt h.fillMax (by norm_num)) hxs hys (Int.le_trans (by exact_mod_cast hle) hc)
  exact ⟨arena, q', hupd, hrepr, hclean, ⟨cells, ⟨hrepr', hqfill ▸ hpacked,
    hqlen.trans (hlen.trans (congrArg List.length hflat.symm)), hqfill ▸ h.fillPos,
    hqfill ▸ h.fillMax⟩, hflat⟩, hqfill⟩

/-- Both pops: the chunk at one end loses an element. -/
theorem InvWith.popAt [Holdable P] (h : InvWith q (xs ++ (p, c) :: ys) P)
    (hP : Divisible P (flat (xs ++ (p, d) :: ys))) (hlen : c.length = d.length + 1)
    {pop : ListpackNode → Option Bytes × ListpackNode}
    (hpop : ∀ n, ActsAsList n c → pop n = (some e, encodeNodeEntries n d)) :
    ∃ q', q.popAt (some p) pop = some (q', some e) ∧ Inv q' (flat (xs ++ (p, d) :: ys)) P ∧
      q'.fill = q.fill := by
  obtain ⟨n, hget, hn, -⟩ := h.linked.node
  obtain ⟨arena, q', hupd, -, hclean, hres⟩ := h.cleanNode (f := fun _ => encodeNodeEntries n d)
    hP (by omega)
    (by
      intro m hm _
      obtain rfl : n = m := by simpa [hget] using hm
      rfl)
    (q.len - 1) (by
      rw [h.len]
      simp only [flat_append, flat_cons, length_append]
      omega)
  refine ⟨q', ?_, hres⟩
  simp [QuickList.popAt, hget, hpop n (actsAsList_of_holds hn), hupd, hclean]

/-- **`pop_front` takes the first element**, if every part of the list may be in a node. -/
theorem Inv.popFront_divisible [Holdable P] (h : Inv q l P) (hP : Divisible P l) :
    ∃ q', q.popFront = some (q', l.head?) ∧ Inv q' l.tail P ∧ q'.fill = q.fill := by
  obtain ⟨cells, hinv, rfl⟩ := h
  rcases cells with _ | ⟨cell, ys⟩
  · have hhead : q.head = none := hinv.linked.head
    exact ⟨q, by simp [popFront, QuickList.popAt, hhead], ⟨[], hinv, rfl⟩, rfl⟩
  obtain ⟨p, c⟩ := cell
  have hhead : q.head = some p := hinv.linked.head
  replace hinv : InvWith q ([] ++ (p, c) :: ys) P := hinv
  obtain ⟨e, d, rfl⟩ := exists_cons_of_ne_nil hinv.parts.2.2.1
  rw [popFront, hhead]
  exact hinv.popAt (hP.of_infix ⟨[e], [], by simp⟩) rfl fun n hn => hn.popFront

theorem Inv.popFront (h : Inv q l) :
    ∃ q', q.popFront = some (q', l.head?) ∧ Inv q' l.tail ∧ q'.fill = q.fill :=
  h.popFront_divisible (divisible_of_short h.shortElement)

/-- **`pop_back` takes the last element**, if every part of the list may be in a node. -/
theorem Inv.popBack_divisible [Holdable P] (h : Inv q l P) (hP : Divisible P l) :
    ∃ q', q.popBack = some (q', l.getLast?) ∧ Inv q' l.dropLast P ∧ q'.fill = q.fill := by
  obtain ⟨cells, hinv, rfl⟩ := h
  induction cells using List.reverseRecOn with
  | nil =>
    have htail : q.tail = none := hinv.linked.tail
    exact ⟨q, by simp [popBack, QuickList.popAt, htail], ⟨[], hinv, rfl⟩, rfl⟩
  | append_singleton xs cell _ =>
    obtain ⟨p, c⟩ := cell
    have htail : q.tail = some p := by
      rw [hinv.linked.tail]
      simp
    obtain ⟨d, e, rfl⟩ := (eq_nil_or_concat' c).resolve_left hinv.parts.2.2.1
    rw [popBack, htail]
    obtain ⟨q', hrun, hres⟩ := hinv.popAt (d := d) (hP.of_infix ⟨[], [e], by simp⟩) (by simp)
      fun n hn => by simpa using hn.popBack
    refine ⟨q', ?_, by simpa [← append_assoc] using hres⟩
    simpa [← append_assoc] using hrun

theorem Inv.popBack (h : Inv q l) :
    ∃ q', q.popBack = some (q', l.getLast?) ∧ Inv q' l.dropLast ∧ q'.fill = q.fill :=
  h.popBack_divisible (divisible_of_short h.shortElement)

/-! ## Indexing -/

/-- The walk from the head finds the element of the rest of the list at the remaining distance. -/
theorem indexForward_eq [Holdable P] (hchain : Chain (nodeView P) q.arena.get a rest none)
    (hfuel : rest.length ≤ fuel) {traversed : Nat} (hle : traversed ≤ normalized) :
    q.indexForward normalized fuel (firstId rest none) traversed =
      some (flat rest)[normalized - traversed]? := by
  induction rest generalizing a fuel traversed with
  | nil => simp [indexForward]
  | cons cell rest ih =>
    obtain ⟨p, c⟩ := cell
    obtain ⟨⟨n, hget, hn, -, hnext⟩, hrest⟩ := hchain
    obtain ⟨fuel, rfl, hfuel'⟩ := exists_fuel hfuel
    have hnext : n.next = firstId rest none := hnext
    have hcount : n.count = c.length := hn.2.1
    simp only [firstId_cons, indexForward, hget, some_bind, hcount, flat_cons]
    by_cases hhere : normalized < traversed + c.length
    · rw [if_pos hhere, (actsAsList_of_holds hn).get, getElem?_append_left (by omega)]
    · rw [if_neg hhere, hnext, ih hrest hfuel' (by omega),
        getElem?_append_right (by omega), Nat.sub_sub]

/-- The walk from the tail finds the element of the front of the list. -/
theorem indexBackward_eq [Holdable P] {b : Option Nat} {front : List (Nat × List Bytes)}
    (hchain : Chain (nodeView P) q.arena.get none front b) (hfuel : front.length ≤ fuel)
    (hlt : normalized < (flat front).length) :
    q.indexBackward normalized fuel (lastId none front) (flat front).length =
      some (flat front)[normalized]? := by
  induction front using List.reverseRecOn generalizing b fuel with
  | nil => simp at hlt
  | append_singleton front cell ih =>
    obtain ⟨p, c⟩ := cell
    obtain ⟨hfront, ⟨n, hget, hn, hprev, -⟩, -⟩ := Chain.append_iff.1 hchain
    rw [length_append] at hfuel
    obtain ⟨fuel, rfl, hfuel'⟩ := exists_fuel hfuel
    have hprev : n.prev = lastId none front := hprev
    have hcount : n.count = c.length := hn.2.1
    have hback : (flat (front ++ [(p, c)])).length - c.length = (flat front).length := by simp
    have hflat : flat (front ++ [(p, c)]) = flat front ++ c := by simp
    simp only [lastId_append, lastId_cons, lastId_nil, indexBackward, hget, some_bind, hcount,
      hback]
    by_cases hhere : normalized ≥ (flat front).length
    · rw [if_pos hhere, (actsAsList_of_holds hn).get, hflat, getElem?_append_right hhere]
    · rw [if_neg hhere, hprev, ih hfront hfuel' (by omega), hflat, getElem?_append_left (by omega)]

/-- The position a signed index names in a list of `len` elements: counted from the front, or from
the back if it is negative. -/
def signedPos (len : Nat) (i : Int) : Option Nat :=
  if 0 ≤ i then (if i < len then some i.toNat else none)
  else if -(len : Int) ≤ i then some (len + i).toNat else none

theorem normalizeIndex_eq_signedPos (len : Nat) (i : Int) :
    normalizeIndex len i = signedPos len i := by
  simp only [normalizeIndex, signedPos]
  split_ifs <;> first | rfl | omega

def listIndex (l : List Bytes) (i : Int) : Option Bytes :=
  (signedPos l.length i).bind fun k => l[k]?

theorem signedPos_lt {len : Nat} {i : Int} (h : signedPos len i = some k) : k < len := by
  unfold signedPos at h
  split_ifs at h <;> simp only [Option.some.injEq] at h <;> omega

/-- **`index` agrees with the list**, for every signed index. -/
theorem Inv.index [Holdable P] (h : Inv q l P) (i : Int) : q.index i = some (listIndex l i) := by
  obtain ⟨cells, hinv, rfl⟩ := h
  have hfuel := hinv.linked.length_le_size
  rw [index, listIndex, normalizeIndex_eq_signedPos, hinv.len]
  rcases hpos : signedPos (flat cells).length i with _ | k
  · rfl
  have hk := signedPos_lt hpos
  simp only [Option.bind_some]
  split
  · rw [hinv.linked.head, indexForward_eq hinv.linked.chain hfuel (Nat.zero_le _)]
    rfl
  · rw [hinv.linked.tail, indexBackward_eq hinv.linked.chain hfuel hk]

/-- The walk of `set_index`, from any node whose position the index has not passed. -/
theorem InvWith.setIndexFrom (h : InvWith q (xs ++ rest)) (he : ShortElement e)
    (hfuel : rest.length ≤ fuel) (hle : (flat xs).length ≤ k)
    (hlt : k < (flat (xs ++ rest)).length) :
    ∃ q', setIndexFrom k e fuel q (firstId rest none) (flat xs).length = some (q', true) ∧
      Inv q' ((flat (xs ++ rest)).set k e) ∧ q'.fill = q.fill := by
  induction rest generalizing xs fuel with
  | nil =>
    simp only [append_nil] at hlt
    omega
  | cons cell rest ih =>
    obtain ⟨p, c⟩ := cell
    obtain ⟨n, hget, hn, -, hnext⟩ := h.linked.node
    obtain ⟨fuel, rfl, hfuel'⟩ := exists_fuel hfuel
    have hcount : n.count = c.length := hn.2.1
    by_cases hhere : k < (flat xs).length + c.length
    · set j := k - (flat xs).length with hj
      have hflat : (flat (xs ++ (p, c) :: rest)).set k e = flat (xs ++ (p, c.set j e) :: rest) := by
        simp only [flat_append, flat_cons]
        rw [set_append_right _ _ hle, set_append_left _ _ (by omega)]
      have hshort : ∀ x ∈ flat (xs ++ (p, c.set j e) :: rest), ShortElement x := by
        rw [← hflat]
        exact fun x hx => (mem_or_eq_of_mem_set hx).elim (h.linked.shortElement x) (· ▸ he)
      obtain ⟨arena, q', hupd, hrepr, hclean, hinv, hfill⟩ := h.cleanNode
        (f := (lpSet · j e)) (divisible_of_short hshort) (by simp) (fun m _ hm => hm.set j e)
        q.len (by rw [h.len]; simp)
      -- the entry count did not change, so there is nothing to split
      obtain ⟨q₂, hsplit, -, -, hcase⟩ := hrepr.splitIfNeeded
      have hsame : q₂ = { q with arena := arena } := by
        rcases hcase with ⟨-, hq⟩ | ⟨hover, -⟩
        · exact hq
        · have hc := h.parts.2.2.2
          simp only [length_set] at hover
          exact absurd hc (not_le.2 hover)
      rw [hsame] at hsplit
      refine ⟨q', ?_, hflat ▸ hinv, hfill⟩
      simp only [firstId_cons, setIndexFrom, hget, some_bind, hcount, if_pos hhere, ← hj, hupd,
        hsplit]
      have hclean' : cleanupAfterMutation { q with arena := arena } p = some q' := hclean
      rw [hclean']
      rfl
    · have hsplit : xs ++ (p, c) :: rest = (xs ++ [(p, c)]) ++ rest := by simp
      have hlen : (flat (xs ++ [(p, c)])).length = (flat xs).length + c.length := by simp
      rw [hsplit] at h hlt ⊢
      obtain ⟨q', hrun, hres⟩ := ih h hfuel'
        (by omega) hlt
      refine ⟨q', ?_, hres⟩
      rw [hlen] at hrun
      simp only [firstId_cons, setIndexFrom, hget, some_bind, hcount, if_neg hhere, hnext]
      exact hrun

/-- What `set_index` does to a list. -/
def listSetIndex (l : List Bytes) (i : Int) (e : Bytes) : List Bytes × Bool :=
  match signedPos l.length i with
  | none => (l, false)
  | some k => (l.set k e, true)

/-- **`set_index` replaces the element the index names.** -/
theorem Inv.setIndex (h : Inv q l) (i : Int) (he : ShortElement e) :
    ∃ q', q.setIndex i e = some (q', (listSetIndex l i e).2) ∧
      Inv q' (listSetIndex l i e).1 ∧ q'.fill = q.fill := by
  obtain ⟨cells, hinv, rfl⟩ := h
  rw [setIndex, normalizeIndex_eq_signedPos, hinv.len]
  unfold listSetIndex
  rcases hpos : signedPos (flat cells).length i with _ | k
  · exact ⟨q, rfl, ⟨cells, hinv, rfl⟩, rfl⟩
  replace hinv : InvWith q ([] ++ cells) := hinv
  obtain ⟨q', hrun, hres⟩ := hinv.setIndexFrom he
    hinv.linked.length_le_size (Nat.zero_le _) (signedPos_lt hpos)
  refine ⟨q', ?_, hres⟩
  rw [hinv.linked.head]
  exact hrun

/-! ## Iterating, ranges and trimming -/

theorem iterFrom_eq [Holdable P] (hchain : Chain (nodeView P) q.arena.get a cells none)
    (hfuel : cells.length ≤ fuel) :
    q.iterFrom fuel (firstId cells none) = some (flat cells) := by
  induction cells generalizing a fuel with
  | nil => simp [iterFrom]
  | cons cell cells ih =>
    obtain ⟨⟨n, hget, hn, -, hnext⟩, hrest⟩ := hchain
    obtain ⟨fuel, rfl, hfuel'⟩ := exists_fuel hfuel
    have hnext : n.next = firstId cells none := hnext
    simp only [firstId_cons, iterFrom, hget, some_bind, hnext,
      ih hrest hfuel', (actsAsList_of_holds hn).iter, flat_cons]

/-- **`iter` yields the list.** -/
theorem Inv.iter [Holdable P] (h : Inv q l P) : q.iter = some l := by
  obtain ⟨cells, hinv, rfl⟩ := h
  rw [iter, hinv.linked.head, iterFrom_eq hinv.linked.chain hinv.linked.length_le_size]

theorem Inv.len (h : Inv q l P) : q.len = l.length := by
  obtain ⟨cells, hinv, rfl⟩ := h
  exact hinv.len

theorem Inv.index_natCast [Holdable P] (h : Inv q l P) (hk : k < l.length) :
    q.index k = some l[k]? := by
  have hpos : signedPos l.length k = some k := by
    simp [signedPos, hk]
  rw [h.index, listIndex, hpos]
  rfl

/-! ### The first element

The element at the front is read even if it is too long for its back-length and hides what comes
after it, so here the nodes may hold anything. -/

/-- The part of a list between two signed indexes, both ends included and clamped to the list. -/
def listRange (l : List Bytes) (start stop : Int) : List Bytes :=
  let first := max 0 (if start < 0 then start + l.length else start)
  let last := min (l.length - 1 : Int) (if stop < 0 then stop + l.length else stop)
  if first ≤ last then (l.drop first.toNat).take (last - first + 1).toNat else []

/-- `normalize_range` is the clamping of `listRange`. -/
theorem listRange_eq (l : List Bytes) (start stop : Int) :
    (normalizeRange l.length start stop = none ∧ listRange l start stop = []) ∨
      ∃ first last, normalizeRange l.length start stop = some (first, last) ∧ first ≤ last ∧
        last < l.length ∧ listRange l start stop = (l.drop first).take (last + 1 - first) := by
  set first := max 0 (if start < 0 then start + l.length else start) with hfirst
  set last := min (l.length - 1 : Int) (if stop < 0 then stop + l.length else stop) with hlast
  have hnorm : normalizeRange l.length start stop =
      if first ≤ last then some (first.toNat, last.toNat) else none := by
    simp only [normalizeRange, hfirst, hlast, max_def, min_def]
    split_ifs <;> first | rfl | omega | (congr 2 <;> omega)
  rw [hnorm, listRange, ← hfirst, ← hlast]
  by_cases hle : first ≤ last
  · right
    refine ⟨first.toNat, last.toNat, by rw [if_pos hle], by omega, by omega, ?_⟩
    rw [if_pos hle]
    congr 1
    omega
  · left
    rw [if_neg hle]
    simp [hle]

/-- The loops of `range` and `trim`. -/
theorem Inv.rangeFrom [Holdable P] (h : Inv q l P) {left : Nat} (hle : current + left ≤ l.length) :
    q.rangeFrom left current = some ((l.drop current).take left) ∧
      q.keptFrom left current = some ((l.drop current).take left) := by
  induction left generalizing current with
  | zero => simp [rangeFrom, keptFrom]
  | succ left ih =>
    have hlt : current < l.length := by omega
    rw [rangeFrom, keptFrom, h.index_natCast hlt, getElem?_eq_getElem hlt,
      drop_eq_getElem_cons hlt, take_succ_cons]
    have hrest := ih (show current + 1 + left ≤ l.length by omega)
    simp [hrest]

/-- **`range` is the slice between the two indexes.** -/
theorem Inv.range [Holdable P] (h : Inv q l P) (start stop : Int) :
    q.range start stop = some (listRange l start stop) := by
  rw [QuickList.range, h.len]
  rcases listRange_eq l start stop with ⟨hnone, hempty⟩ | ⟨first, last, hsome, hle, hlt, hslice⟩
  · rw [hnone, hempty]
  · rw [hsome, hslice]
    exact (h.rangeFrom (by omega)).1

theorem clearFrom_eq {arena : Arena ListpackNode} (hchain : Chain nodeView arena.get a cells none)
    (hfuel : cells.length ≤ fuel) :
    ∃ arena', clearFrom fuel arena (firstId cells none) = some arena' := by
  induction cells generalizing a fuel arena with
  | nil => exact ⟨arena, by simp [clearFrom]⟩
  | cons cell cells ih =>
    obtain ⟨p, c⟩ := cell
    have hp := (nodup_cons.1 hchain.nodup).1
    obtain ⟨⟨n, hget, -, -, hnext⟩, hrest⟩ := hchain
    obtain ⟨fuel, rfl, hfuel'⟩ := exists_fuel hfuel
    have hnext : n.next = firstId cells none := hnext
    obtain ⟨arena₁, hfree, -, hget₁⟩ := Arena.free_eq_some hget
    -- releasing a node leaves the rest of the chain readable
    have hrest₁ : Chain nodeView arena₁.get (some p) cells none := by
      refine hrest.congr fun r hr => ?_
      have hne : r ≠ p := fun e => hp (e ▸ hr)
      simp [hget₁, hne]
    obtain ⟨arena', hrun⟩ := ih hrest₁ hfuel'
    refine ⟨arena', ?_⟩
    simpa [clearFrom, hget, hfree, hnext] using hrun

/-- **`clear` empties the list** and releases every node once. -/
theorem Inv.clear (h : Inv q l) : ∃ q', q.clear = some q' ∧ Inv q' [] ∧ q'.fill = q.fill := by
  obtain ⟨cells, hinv, rfl⟩ := h
  obtain ⟨arena, hrun⟩ := clearFrom_eq hinv.linked.chain hinv.linked.length_le_size
  rw [← hinv.linked.head] at hrun
  refine ⟨{ q with arena := arena, head := none, tail := none, nodeCount := 0, len := 0 },
    by simp [clear, hrun], ⟨[], ⟨⟨trivial, by simp, rfl, rfl, rfl⟩, by simp [Packed], rfl,
      hinv.fillPos, hinv.fillMax⟩, rfl⟩, rfl⟩

theorem Inv.pushBackAll_divisible [Holdable P] {values : List Bytes} (h : Inv q l P)
    (hP : Divisible P (l ++ values)) :
    ∃ q', q.pushBackAll values = some q' ∧ Inv q' (l ++ values) P ∧ q'.fill = q.fill := by
  induction values generalizing q l with
  | nil => exact ⟨q, rfl, by simpa using h, rfl⟩
  | cons e values ih =>
    rw [show l ++ e :: values = (l ++ [e]) ++ values by simp] at hP ⊢
    obtain ⟨q₁, hpush, hinv₁, hfill₁⟩ := h.pushBack_divisible
      (hP.of_infix (prefix_append _ _).isInfix)
    obtain ⟨q', hrest, hinv, hfill⟩ := ih hinv₁ hP
    refine ⟨q', ?_, hinv, hfill.trans hfill₁⟩
    rw [pushBackAll, foldlM_cons, hpush]
    exact hrest

theorem Inv.pushBackAll (h : Inv q l) {values : List Bytes}
    (hvalues : ∀ e ∈ values, ShortElement e) :
    ∃ q', q.pushBackAll values = some q' ∧ Inv q' (l ++ values) ∧ q'.fill = q.fill :=
  h.pushBackAll_divisible
    (divisible_of_short fun e he => (mem_append.1 he).elim (h.shortElement e) (hvalues e))

/-- **What is pushed into a new list** is there. -/
theorem pushBackAll_new {fill : Int} (hfill : fill ≤ 65534) (hl : FitList l) :
    ∃ q', (new fill).pushBackAll l = some q' ∧ Inv q' l FitChunk ∧ q'.fill = max fill 1 :=
  (inv_new hfill).pushBackAll_divisible hl.divisible

/-- **`trim` keeps the slice between the two indexes.** -/
theorem Inv.trim (h : Inv q l) (start stop : Int) :
    ∃ q', q.trim start stop = some q' ∧ Inv q' (listRange l start stop) ∧ q'.fill = q.fill := by
  obtain ⟨q₁, hclear, hinv₁, hfill₁⟩ := h.clear
  rw [QuickList.trim, h.len]
  rcases listRange_eq l start stop with ⟨hnone, hempty⟩ | ⟨first, last, hsome, hle, hlt, hslice⟩
  · rw [hnone, hempty]
    exact ⟨q₁, hclear, hinv₁, hfill₁⟩
  rw [hsome, hslice]
  have hshort : ∀ e ∈ (l.drop first).take (last + 1 - first), ShortElement e := fun e he =>
    h.shortElement e (mem_of_mem_drop (mem_of_mem_take he))
  obtain ⟨q', hpush, hinv, hfill⟩ := hinv₁.pushBackAll hshort
  have hkept := (h.rangeFrom (show first + (last + 1 - first) ≤ l.length by omega)).2
  refine ⟨q', ?_, by simpa using hinv, hfill.trans hfill₁⟩
  simp [hkept, hclear, hpush]

end Senko.QuickList
