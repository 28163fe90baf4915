import Senko.Core.StreamTree

/-!
# Senko — a stream rebuilt from its entries

A restored stream is filled by one insertion after the other, whatever ids come. An entry goes to
the end of the last macro node, and only where that node is full a new one is opened, which then
takes the place that its id has among the nodes. So the entries keep their order as long as every
node begins above the one before it, and an id that is there already is passed over.
-/

namespace Senko

open List Option

open Std (TreeMap)

/-- An id of two `u64`. -/
def StreamId.InRange (id : StreamId) : Prop := id.ms ≤ u64Max ∧ id.seq ≤ u64Max

instance (id : StreamId) : Decidable id.InRange := inferInstanceAs (Decidable (_ ∧ _))

theorem StreamId.InRange.le_max {id : StreamId} (h : id.InRange) : id ≤ .max := by
  rw [← not_lt, lt_iff]
  obtain ⟨hms, hseq⟩ := h
  show ¬(u64Max < id.ms ∨ u64Max = id.ms ∧ u64Max < id.seq)
  omega

namespace StreamRadixTree

variable {t t' : StreamRadixTree}

/-! ## Live entries -/

def pair (entry : MacroEntry) : StreamId × StreamFields := (entry.id, entry.fields)

/-- The entries that are not deleted, oldest first. -/
def liveEntries (t : StreamRadixTree) : List (StreamId × StreamFields) :=
  (t.entries.filter fun entry => !entry.deleted).map pair

/-- All ids are pairs of `u64`. -/
def InRange (t : StreamRadixTree) : Prop :=
  ∀ node ∈ t.nodes.toList, node.2.firstId.InRange ∧ ∀ entry ∈ node.2.entries, entry.id.InRange

/-- **The whole range** is all that is live. Induction on the nodes, each of which is in the range
with all its entries. -/
theorem range_zero_max (h : t.InRange) : t.range .zero .max none = t.liveEntries := by
  have hloop : ∀ nodes : List ListpackMacroNode,
      (∀ node ∈ nodes, node.firstId.InRange ∧ ∀ entry ∈ node.entries, entry.id.InRange) →
      ∀ items, rangeLoop .zero .max none nodes items = items ++ nodes.flatMap (·.live) := by
    intro nodes hnodes
    induction nodes with
    | nil => exact fun items => (append_nil items).symm
    | cons node nodes ih =>
      intro items
      obtain ⟨hfirst, hentries⟩ := hnodes node mem_cons_self
      have hmeets : (node.lastId < .zero || StreamId.max < node.firstId) = false := by
        simp [(StreamId.zero_le node.lastId).not_gt, hfirst.le_max.not_gt]
      have hlive : (node.live.filter fun entry => !(entry.id < .zero || .max < entry.id)) =
          node.live := by
        apply filter_eq_self.2
        intro entry hentry
        have hhigh := (hentries entry (mem_of_mem_filter hentry)).le_max
        simp [(StreamId.zero_le entry.id).not_gt, hhigh.not_gt]
      rw [rangeLoop, if_neg (by simp [hmeets]), hlive, flatMap_cons, ← append_assoc]
      exact ih (fun node hnode => hnodes node (mem_cons_of_mem _ hnode)) _
  have hall := hloop (t.nodes.toList.map Prod.snd) (forall_mem_map.2 h) []
  rw [range, hall, nil_append, flatMap_map, liveEntries, entries, filter_flatMap]
  rfl

/-! ## One entry more -/

/-- What a restore does with an entry: an id that is refused is passed over. -/
def replay (t : StreamRadixTree) (entry : StreamId × StreamFields) : StreamRadixTree :=
  (t.insertWithMode entry.1 entry.2 .keepRef).getD t

/-- **A tree that was only inserted into**: a node is opened by its first entry and knows its
bounds, no entry is deleted and no id is there twice. -/
structure Built (t : StreamRadixTree) : Prop where
  opened : ∀ node ∈ t.nodes.toList, node.2.ids.head? = some node.1
  bounds : ∀ node ∈ t.nodes.toList, ∀ id ∈ node.2.ids, node.2.firstId ≤ id ∧ id ≤ node.2.lastId
  live : ∀ entry ∈ t.entries, entry.deleted = false
  nodup : t.ids.Nodup
  inRange : t.InRange

theorem built_empty : ({} : StreamRadixTree).Built := by
  have hnil : ({} : StreamRadixTree).nodes.toList = [] := rfl
  constructor <;> simp [ids, entries, InRange, hnil]

theorem liveEntries_eq_map (h : t.Built) : t.liveEntries = t.entries.map pair := by
  rw [liveEntries, filter_eq_self.2]
  intro entry hentry
  rw [h.live entry hentry]
  rfl

theorem mem_entries {entry : MacroEntry} :
    entry ∈ t.entries ↔ ∃ node ∈ t.nodes.toList, entry ∈ node.2.entries := mem_flatMap

theorem mem_ids {id : StreamId} : id ∈ t.ids ↔ ∃ node ∈ t.nodes.toList, id ∈ node.2.ids := by
  rw [ids_eq_flatMap, mem_flatMap]

/-- A node begins with its key. -/
theorem Built.key_mem (h : t.Built) {node : StreamId × ListpackMacroNode}
    (hnode : node ∈ t.nodes.toList) : node.1 ∈ node.2.ids :=
  mem_of_mem_head? (h.opened node hnode)

/-- An id is refused if it is there. -/
theorem Built.isSome_get (h : t.Built) (id : StreamId) : (t.get id).isSome ↔ id ∈ t.ids := by
  rw [get, findSome?_isSome_iff, mem_ids]
  constructor
  · rintro ⟨node, hcandidate, hget⟩
    refine ⟨node, mem_of_mem_filter hcandidate, ?_⟩
    rw [ListpackMacroNode.get, isSome_map, find?_isSome] at hget
    obtain ⟨entry, hentry, hid⟩ := hget
    simp only [Bool.and_eq_true, decide_eq_true_eq] at hid
    exact hid.1 ▸ List.mem_map_of_mem hentry
  · rintro ⟨node, hnode, hid⟩
    refine ⟨node, mem_filter.2 ⟨hnode, by simpa using h.bounds node hnode id hid⟩, ?_⟩
    obtain ⟨entry, hentry, rfl⟩ := List.mem_map.1 hid
    have hlive := h.live entry (mem_entries.2 ⟨node, hnode, hentry⟩)
    rw [ListpackMacroNode.get, isSome_map, find?_isSome]
    exact ⟨entry, hentry, by simp [hlive]⟩

/-! ## Where an entry goes -/

/-- The node that takes an entry, given the last one. -/
def takingNode (last : Option (StreamId × ListpackMacroNode)) (entry : StreamId × StreamFields) :
    StreamId × ListpackMacroNode :=
  match last with
  | some (key, tail) =>
    if tail.isFull 100 4096 then (entry.1, .newWithMode entry.1 entry.2 .keepRef)
    else (key, tail.appendWithMode entry.1 entry.2 .keepRef)
  | none => (entry.1, .newWithMode entry.1 entry.2 .keepRef)

/-- A node that is opened by an id stands behind the last one. -/
def OpensAbove (last : Option (StreamId × ListpackMacroNode)) (id : StreamId) : Prop :=
  ∀ node ∈ last, node.2.isFull 100 4096 → node.1 < id

/-- **Every node begins above the one before it** when the entries fill one node after the other. -/
def NodesInOrder (last : Option (StreamId × ListpackMacroNode)) :
    List (StreamId × StreamFields) → Prop
  | [] => True
  | entry :: rest =>
    OpensAbove last entry.1 ∧ NodesInOrder (some (takingNode last entry)) rest

variable {entry : StreamId × StreamFields} {entries : List (StreamId × StreamFields)}

theorem insertWithMode_eq (h : t.get entry.1 = none) :
    ∃ t', t.insertWithMode entry.1 entry.2 .keepRef = some t' ∧
      t'.lastId = Max.max t.lastId entry.1 ∧
      t'.nodes = t.nodes.insert (takingNode t.nodes.toList.getLast? entry).1
        (takingNode t.nodes.toList.getLast? entry).2 := by
  refine ⟨_, if_neg (by rw [h]; decide), rfl, ?_⟩
  show (match t.nodes.toList.getLast? with
    | some (key, tail) => _
    | none => _) = _
  cases t.nodes.toList.getLast? with
  | none => rfl
  | some node =>
    obtain ⟨key, tail⟩ := node
    unfold takingNode
    by_cases hfull : tail.isFull 100 4096 = true <;> simp only [hfull] <;> rfl

/-- A node of its own, and a node with one entry more. -/
theorem takingNode_cases (last : Option (StreamId × ListpackMacroNode))
    (entry : StreamId × StreamFields) :
    takingNode last entry = (entry.1, .newWithMode entry.1 entry.2 .keepRef) ∧
        (∀ node ∈ last, node.2.isFull 100 4096) ∨
      ∃ key tail, last = some (key, tail) ∧ ¬tail.isFull 100 4096 ∧
        takingNode last entry = (key, tail.appendWithMode entry.1 entry.2 .keepRef) := by
  rcases last with _ | node
  · exact .inl ⟨rfl, by simp⟩
  obtain ⟨key, tail⟩ := node
  by_cases hfull : tail.isFull 100 4096 = true
  · exact .inl ⟨if_pos hfull, by simpa using hfull⟩
  · exact .inr ⟨key, tail, rfl, hfull, if_neg hfull⟩

/-- **The nodes around the one that takes an entry.** Its other entries were there before. If it
opens above the last node it is the last; if not, some node that was there follows it. -/
theorem Built.insert_split (h : t.Built) (hnew : entry.1 ∉ t.ids)
    (hnodes : t'.nodes = t.nodes.insert (takingNode t.nodes.toList.getLast? entry).1
      (takingNode t.nodes.toList.getLast? entry).2) :
    ∃ l r old new, t'.nodes.toList = l ++ takingNode t.nodes.toList.getLast? entry :: r ∧
      t.entries = l.flatMap (·.2.entries) ++ old ++ r.flatMap (·.2.entries) ∧
      (takingNode t.nodes.toList.getLast? entry).2.entries = old ++ [new] ∧
      pair new = entry ∧ new.deleted = false ∧ l ++ r ⊆ t.nodes.toList ∧
      (OpensAbove t.nodes.toList.getLast? entry.1 → r = []) ∧
      (¬OpensAbove t.nodes.toList.getLast? entry.1 → r ≠ []) := by
  rcases takingNode_cases t.nodes.toList.getLast? entry with ⟨htaking, hfull⟩ |
    ⟨key, tail, hlast, hroom, htaking⟩
  · -- a new node, among the others by its id
    have hkeys : ∀ e ∈ t.nodes.toList, e.1 ≠ entry.1 := by
      rintro e he heq
      exact hnew (mem_ids.2 ⟨e, he, heq ▸ h.key_mem he⟩)
    rw [htaking] at hnodes ⊢
    obtain ⟨l, r, hsplit, hinsert, hbelow, habove⟩ := exists_toList_insert_of_new hkeys
      (ListpackMacroNode.newWithMode entry.1 entry.2 .keepRef)
    refine ⟨l, r, [], ⟨entry.1, entry.2, true, false, .keepRef⟩, by rw [hnodes, hinsert], ?_, rfl,
      rfl, rfl, by rw [hsplit]; exact List.Subset.refl _, fun hopens => ?_, fun hopens hnil => ?_⟩
    · rw [entries, hsplit, flatMap_append, append_nil]
    · cases r using List.reverseRecOn with
      | nil => rfl
      | append_singleton r last =>
        have hlast : last ∈ t.nodes.toList.getLast? := by
          rw [hsplit, ← append_assoc, getLast?_concat]
          rfl
        have hlt := habove last (by simp)
        exact absurd (hopens last hlast (hfull last hlast)) hlt.asymm
    · apply hopens
      intro node hnode _
      apply hbelow
      rw [hsplit, hnil, append_nil] at hnode
      exact mem_of_mem_getLast? hnode
  · -- the last node takes it
    obtain ⟨kept, hkept⟩ := getLast?_eq_some_iff.1 hlast
    have hlist := toList_insert_of_split hkept (tail.appendWithMode entry.1 entry.2 .keepRef)
    rw [htaking] at hnodes ⊢
    refine ⟨kept, [], tail.entries,
      ⟨entry.1, entry.2, entry.2.map Prod.fst == tail.masterFields, false, .keepRef⟩,
      by rw [hnodes, hlist], ?_, rfl, rfl, rfl, ?_, fun _ => rfl, fun hopens => ?_⟩
    · rw [entries, hkept]
      simp
    · rw [hkept, append_nil]
      exact subset_append_left _ _
    · apply absurd _ hopens
      intro node hnode hfull
      rw [hlast, mem_some_iff] at hnode
      subst hnode
      exact absurd hfull hroom

/-- Bounds and key of the node that takes an entry. -/
theorem Built.takingNode_bounds (h : t.Built) (hid : entry.1.InRange) :
    let node := takingNode t.nodes.toList.getLast? entry
    node.2.ids.head? = some node.1 ∧ node.2.firstId.InRange ∧
      ∀ id ∈ node.2.ids, node.2.firstId ≤ id ∧ id ≤ node.2.lastId := by
  intro node
  rcases takingNode_cases t.nodes.toList.getLast? entry with ⟨htaking, -⟩ |
    ⟨key, tail, hlast, -, htaking⟩
  · have hnode : node = _ := htaking
    rw [hnode]
    exact ⟨rfl, hid, by simp [ListpackMacroNode.ids, ListpackMacroNode.newWithMode]⟩
  have hnode : node = _ := htaking
  have htail := mem_of_mem_getLast? hlast
  rw [hnode]
  refine ⟨?_, ?_, fun id hmem => ?_⟩
  · have hopened := h.opened _ htail
    simp only [ListpackMacroNode.ids, ListpackMacroNode.appendWithMode, map_append,
      head?_append] at hopened ⊢
    rw [hopened]
    rfl
  · show (min entry.1 tail.firstId).InRange
    rcases min_choice entry.1 tail.firstId with hmin | hmin <;> rw [hmin]
    · exact hid
    · exact (h.inRange _ htail).1
  · simp only [ListpackMacroNode.ids, ListpackMacroNode.appendWithMode, map_append, mem_append,
      map_cons, map_nil, mem_singleton] at hmem
    show min entry.1 tail.firstId ≤ id ∧ id ≤ Max.max tail.lastId entry.1
    rcases hmem with hmem | rfl
    · obtain ⟨hlow, hhigh⟩ := h.bounds _ htail id hmem
      exact ⟨(min_le_right _ _).trans hlow, hhigh.trans (le_max_left _ _)⟩
    · exact ⟨min_le_left _ _, le_max_right _ _⟩

/-- **What an entry adds.** It joins the entries, at the end if it opens above the last node; if
not, it stands before one that was there. -/
structure Takes (t t' : StreamRadixTree) (entry : StreamId × StreamFields) : Prop where
  built : t'.Built
  lastId : t'.lastId = Max.max t.lastId entry.1
  ids : t'.ids.Perm (entry.1 :: t.ids)
  grows : t.ids.Sublist t'.ids
  atEnd : OpensAbove t.nodes.toList.getLast? entry.1 →
    t'.entries.map pair = t.entries.map pair ++ [entry] ∧
      t'.nodes.toList.getLast? = some (takingNode t.nodes.toList.getLast? entry)
  inside : ¬OpensAbove t.nodes.toList.getLast? entry.1 → ∃ id ∈ t.ids, [entry.1, id].Sublist t'.ids

theorem Built.takes (h : t.Built) (hid : entry.1.InRange)
    (hnew : entry.1 ∉ t.ids) : Takes t (t.replay entry) entry := by
  have hget : t.get entry.1 = none := by
    rw [← not_isSome_iff_eq_none, h.isSome_get]
    exact hnew
  obtain ⟨t', hinsert, hlastId, hnodes⟩ := insertWithMode_eq hget
  have hreplay : t.replay entry = t' := by rw [replay, hinsert]; rfl
  obtain ⟨l, r, old, new, hlist, hentries, hnode, rfl, hlive, hsub, hend, hinside⟩ :=
    h.insert_split hnew hnodes
  obtain ⟨hopened, hfirst, hbounds⟩ := h.takingNode_bounds hid
  obtain ⟨node, htaking⟩ : ∃ node, takingNode t.nodes.toList.getLast? (pair new) = node := ⟨_, rfl⟩
  rw [htaking] at hlist hnode hopened hfirst hbounds
  have hentries' : t'.entries =
      l.flatMap (·.2.entries) ++ (old ++ [new]) ++ r.flatMap (·.2.entries) := by
    rw [entries, hlist, flatMap_append, flatMap_cons, hnode, ← append_assoc]
  have hperm : t'.entries.Perm (new :: t.entries) := by
    rw [hentries', hentries]
    simp only [append_assoc]
    exact (perm_middle.append_left _).trans perm_middle
  have hcases : ∀ n ∈ t'.nodes.toList, n = node ∨ n ∈ t.nodes.toList := by
    intro n hn
    rw [hlist, mem_append, mem_cons] at hn
    rcases hn with hn | hn | hn
    · exact .inr (hsub (mem_append_left _ hn))
    · exact .inl hn
    · exact .inr (hsub (mem_append_right _ hn))
  rw [hreplay]
  refine ⟨⟨fun n hn => ?_, fun n hn => ?_, fun e he => ?_, ?_, fun n hn => ⟨?_, fun e he => ?_⟩⟩,
    hlastId, hperm.map _, ?_, fun hopens => ?_, fun hopens => ?_⟩
  · rcases hcases n hn with rfl | hn
    · exact hopened
    · exact h.opened n hn
  · rcases hcases n hn with rfl | hn
    · exact hbounds
    · exact h.bounds n hn
  · rcases mem_cons.1 (hperm.mem_iff.1 he) with rfl | he
    · exact hlive
    · exact h.live e he
  · exact (hperm.map _).nodup_iff.2 (nodup_cons.2 ⟨hnew, h.nodup⟩)
  · rcases hcases n hn with rfl | hn
    · exact hfirst
    · exact (h.inRange n hn).1
  · have hmem : e ∈ t'.entries := mem_entries.2 ⟨n, hn, he⟩
    rcases mem_cons.1 (hperm.mem_iff.1 hmem) with rfl | hmem
    · exact hid
    · obtain ⟨n', hn', he'⟩ := mem_entries.1 hmem
      exact (h.inRange n' hn').2 e he'
  · apply List.Sublist.map
    rw [hentries, hentries']
    exact ((List.Sublist.refl _).append (sublist_append_left old [new])).append
      (List.Sublist.refl _)
  · rw [hentries', hentries, hlist, hend hopens, getLast?_concat]
    exact ⟨by simp, by rw [htaking]⟩
  · -- some node follows, and it begins with its key
    obtain ⟨n, r, rfl⟩ := exists_cons_of_ne_nil (hinside hopens)
    have hn : n ∈ t.nodes.toList := hsub (by simp)
    refine ⟨n.1, mem_ids.2 ⟨n, hn, h.key_mem hn⟩, ?_⟩
    have hkey : [n.1].Sublist (n.2.ids ++ (r.flatMap (·.2.entries)).map MacroEntry.id) :=
      singleton_sublist.2 (mem_append_left _ (h.key_mem hn))
    have hids : t'.ids = (l.flatMap (·.2.entries) ++ old).map MacroEntry.id ++ (pair new).1 ::
        (n.2.ids ++ (r.flatMap (·.2.entries)).map MacroEntry.id) := by
      rw [ids, hentries']
      simp [ListpackMacroNode.ids, pair]
    rw [hids]
    exact (hkey.cons_cons _).trans (sublist_append_right _ _)

theorem Built.replay_of_mem (h : t.Built) (hold : entry.1 ∈ t.ids) : t.replay entry = t := by
  rw [replay, insertWithMode, if_pos ((h.isSome_get _).2 hold)]
  rfl

/-! ## All entries -/

/-- A tree stays one that was only inserted into. Replaying adds ids and keeps the order of those
that are there. -/
theorem Built.foldl_replay (h : t.Built) (hids : ∀ entry ∈ entries, entry.1.InRange) :
    (entries.foldl replay t).Built ∧ t.ids.Sublist (entries.foldl replay t).ids := by
  induction entries generalizing t with
  | nil => exact ⟨h, List.Sublist.refl _⟩
  | cons entry entries ih =>
    obtain ⟨hid, hrest⟩ := forall_mem_cons.1 hids
    by_cases hold : entry.1 ∈ t.ids
    · rw [foldl_cons, h.replay_of_mem hold]
      exact ih h hrest
    · have htakes := h.takes hid hold
      exact (ih htakes.built hrest).imp_right htakes.grows.trans

/-- An entry whose id neither the tree nor the entries after it have. -/
theorem Built.takes_of_nodup (h : t.Built) (hid : entry.1.InRange)
    (hnodup : (t.ids ++ (entry :: entries).map Prod.fst).Nodup) :
    Takes t (t.replay entry) entry ∧ ((t.replay entry).ids ++ entries.map Prod.fst).Nodup := by
  rw [map_cons, perm_middle.nodup_iff] at hnodup
  have htakes := h.takes hid fun hmem =>
    (nodup_cons.1 hnodup).1 (mem_append_left _ hmem)
  exact ⟨htakes, (htakes.ids.append_right _).nodup_iff.2 hnodup⟩

/-- In a list without repetitions an element does not stand before one that precedes it. -/
theorem not_pair_sublist {α : Type} {a b : α} {l r : List α} (hnodup : (l ++ a :: r).Nodup)
    (hb : b ∈ l) : ¬[a, b].Sublist (l ++ a :: r) := by
  intro hsub
  obtain ⟨-, -, hcross⟩ := nodup_append.1 hnodup
  obtain ⟨l₁, l₂, heq, hl₁, hl₂⟩ := sublist_append_iff.1 hsub
  cases l₁ with
  | nil =>
    obtain rfl : l₂ = [a, b] := heq.symm
    exact hcross b hb b (hl₂.subset (by simp)) rfl
  | cons x l₁ =>
    obtain rfl : a = x := (List.cons.inj heq).1
    exact hcross a (hl₁.subset mem_cons_self) a mem_cons_self rfl

theorem ids_eq_map_pair : t.ids = (t.entries.map pair).map Prod.fst := by
  rw [ids, List.map_map]
  rfl

/-- **Entries with distinct ids keep their order** exactly if every node begins above the one before
it, and the last id is the greatest. -/
theorem Built.foldl_replay_entries (h : t.Built)
    (hids : ∀ entry ∈ entries, entry.1.InRange) (hnodup : (t.ids ++ entries.map Prod.fst).Nodup) :
    (entries.foldl replay t).lastId = (entries.map Prod.fst).foldl Max.max t.lastId ∧
      ((entries.foldl replay t).entries.map pair = t.entries.map pair ++ entries ↔
        NodesInOrder t.nodes.toList.getLast? entries) := by
  induction entries generalizing t with
  | nil => simp [NodesInOrder]
  | cons entry entries ih =>
    obtain ⟨hid, hrest⟩ := forall_mem_cons.1 hids
    obtain ⟨htakes, hnodup'⟩ := h.takes_of_nodup hid hnodup
    obtain ⟨hlastId, hiff⟩ := ih htakes.built hrest hnodup'
    rw [foldl_cons, NodesInOrder, hlastId, htakes.lastId]
    refine ⟨rfl, ?_⟩
    by_cases hopens : OpensAbove t.nodes.toList.getLast? entry.1
    · obtain ⟨hentries, hlast⟩ := htakes.atEnd hopens
      rw [hentries, hlast, append_assoc, singleton_append] at hiff
      rw [hiff, and_iff_right hopens]
    -- the entry stands before one that it should follow, and stays there
    obtain ⟨id, hmem, hpair⟩ := htakes.inside hopens
    have hfinal := hpair.trans (htakes.built.foldl_replay hrest).2
    refine iff_of_false (fun hall => ?_) fun hin => hopens hin.1
    rw [ids_eq_map_pair, hall, map_append, ← ids_eq_map_pair, map_cons] at hfinal
    exact not_pair_sublist hnodup hmem hfinal

/-- **A rebuilt stream has the entries** exactly if their ids are distinct and every node begins
above the one before it; its last id is then the greatest of them. -/
theorem liveEntries_replay_iff (hids : ∀ entry ∈ entries, entry.1.InRange) :
    (entries.foldl replay {}).liveEntries = entries ↔
      (entries.map Prod.fst).Nodup ∧ NodesInOrder none entries := by
  have hbuilt := (built_empty.foldl_replay hids).1
  rw [liveEntries_eq_map hbuilt]
  constructor
  · intro hentries
    have hnodup : (entries.map Prod.fst).Nodup := by
      have hnodup := hbuilt.nodup
      rwa [ids_eq_map_pair, hentries] at hnodup
    exact ⟨hnodup, (built_empty.foldl_replay_entries hids hnodup).2.1 hentries⟩
  · rintro ⟨hnodup, horder⟩
    exact (built_empty.foldl_replay_entries hids hnodup).2.2 horder

/-- Ids that increase are in order. -/
theorem nodesInOrder_of_increasing {last : Option (StreamId × ListpackMacroNode)}
    (h : (last.toList.map Prod.fst ++ entries.map Prod.fst).Pairwise (· < ·)) :
    NodesInOrder last entries := by
  induction entries generalizing last with
  | nil => trivial
  | cons entry entries ih =>
    obtain ⟨hlast, hentries, hcross⟩ := pairwise_append.1 h
    obtain ⟨hentry, hrest⟩ := pairwise_cons.1 hentries
    refine ⟨fun node hnode _ => ?_, ih ?_⟩
    · exact hcross _ (List.mem_map_of_mem (mem_toList.2 hnode)) _ mem_cons_self
    · refine pairwise_cons.2 ⟨fun id hid => ?_, hrest⟩
      rcases takingNode_cases last entry with ⟨htaking, -⟩ | ⟨key, tail, hkey, -, htaking⟩
      · rw [htaking]
        exact hentry id hid
      · rw [htaking]
        exact hcross key (by simp [hkey]) id (mem_cons_of_mem _ hid)

end StreamRadixTree

end Senko
