import Mathlib.Data.List.TakeWhile
import Senko.Core.Stream
import Senko.Lib.SortedMap

/-!
# Senko — a stream as one log

The macro nodes of a stream read one after the other are a single list of entries. Appending adds
to its end, deleting marks an entry in place and trimming takes entries from its front. As long as
nothing is inserted below the last id, the ids of the log increase strictly.

A trim also recomputes the last id, from the newest entry that is not deleted. It keeps the last id
if that entry carries it and stays.
-/

namespace Senko

open List ListpackMacroNode

open Std (TreeMap)

variable {node node' : ListpackMacroNode} {id key : StreamId} {refMode : StreamRefMode}
  {fields : StreamFields} {t t' : StreamRadixTree} {gone : List MacroEntry}

/-! ## Nodes -/

namespace ListpackMacroNode

def ids (node : ListpackMacroNode) : List StreamId := node.entries.map MacroEntry.id

/-- Marking an entry keeps the ids and the bounds of its node. -/
theorem softDeleteWithMode_spec (h : node.softDeleteWithMode id refMode = some node') :
    node'.ids = node.ids ∧ node'.lastId = node.lastId := by
  unfold softDeleteWithMode at h
  split at h
  · cases h
  rename_i i hfind
  split at h
  · cases h
  cases h
  refine ⟨ext_getElem? fun j => ?_, rfl⟩
  rw [ids, ids, getElem?_map, getElem?_map, getElem?_modify]
  by_cases hij : i = j
  · cases node.entries[j]? <;> simp [hij]
  · simp [hij]

/-- Increasing ids are at most the last of them. -/
theorem le_getLast_of_increasing {entries : List MacroEntry}
    (h : (entries.map MacroEntry.id).Pairwise (· < ·)) {id : StreamId}
    (hid : id ∈ entries.map MacroEntry.id) :
    id ≤ (entries.getLast?.map MacroEntry.id).getD .zero := by
  induction entries using List.reverseRecOn with
  | nil => simp at hid
  | append_singleton entries last _ =>
    rw [map_append, pairwise_append] at h
    rw [map_append, mem_append] at hid
    rw [getLast?_append]
    rcases hid with hid | hid
    · exact (h.2.2 id hid last.id (by simp)).le
    · simp only [map_cons, map_nil, mem_singleton] at hid
      exact hid.le

end ListpackMacroNode

/-! ## The log -/

namespace StreamRadixTree

/-- The entries of all nodes, oldest first. -/
def entries (t : StreamRadixTree) : List MacroEntry :=
  t.nodes.toList.flatMap fun node => node.2.entries

def ids (t : StreamRadixTree) : List StreamId := t.entries.map MacroEntry.id

/-- **The log is in order**: the ids increase strictly from above zero up to the last id, which no
node was opened beyond; every node knows its upper bound and the tree the number of entries. -/
structure Ordered (t : StreamRadixTree) : Prop where
  increasing : t.ids.Pairwise (· < ·)
  positive : ∀ id ∈ t.ids, StreamId.zero < id
  bounded : ∀ id ∈ t.ids, id ≤ t.lastId
  opened : ∀ node ∈ t.nodes.toList, node.1 ≤ t.lastId
  closed : ∀ node ∈ t.nodes.toList, ∀ id ∈ node.2.ids, id ≤ node.2.lastId
  counted : t.totalLen = t.entries.length

/-- The log is in order and the last id is what it was. -/
def Keeps (t t' : StreamRadixTree) : Prop := t'.Ordered ∧ t'.lastId = t.lastId

theorem ordered_empty : ({} : StreamRadixTree).Ordered := by
  have hnil : ({} : StreamRadixTree).nodes.toList = [] := rfl
  constructor <;> simp [ids, entries, hnil]

theorem ids_eq_flatMap : t.ids = t.nodes.toList.flatMap fun node => node.2.ids := by
  rw [ids, entries, map_flatMap]
  rfl

/-- The newest entry that is not deleted. -/
theorem lastEntry_eq : t.lastEntry = (t.entries.filter fun e => !e.deleted).getLast? := by
  rw [entries, filter_flatMap, getLast?_flatMap]
  rfl

/-! ## Appending -/

/-- The last node of the log gains a new entry, or is new itself. -/
def Appends (t : StreamRadixTree) (id : StreamId) (t' : StreamRadixTree) : Prop :=
  ∃ kept key node entry, t'.nodes.toList = kept ++ [(key, node)] ∧ kept ⊆ t.nodes.toList ∧
    t'.entries = t.entries ++ [entry] ∧ entry.id = id ∧ entry.deleted = false ∧ key ≤ id ∧
    ∀ i ∈ node.ids, i ≤ node.lastId

theorem insertWithMode_nodes (h : t.Ordered) (hid : t.lastId < id)
    (hinsert : t.insertWithMode id fields refMode = some t') : Appends t id t' := by
  have hnew : t'.nodes = t.nodes.insert id (.newWithMode id fields refMode) →
      Appends t id t' := by
    intro hnodes
    have hlist := toList_insert_of_forall_lt (fun e he => (h.opened e he).trans_lt hid)
      (ListpackMacroNode.newWithMode id fields refMode)
    rw [← hnodes] at hlist
    refine ⟨_, id, _, { id, fields, sameFields := true, refMode }, hlist, List.Subset.refl _, ?_,
      rfl, rfl, le_rfl, ?_⟩
    · rw [entries, hlist, flatMap_append]
      rfl
    · simp [ListpackMacroNode.ids, ListpackMacroNode.newWithMode]
  unfold insertWithMode at hinsert
  split at hinsert
  · cases hinsert
  rcases hlast : t.nodes.toList.getLast? with _ | last
  · rw [hlast] at hinsert
    cases hinsert
    exact hnew rfl
  obtain ⟨key, tail⟩ := last
  rw [hlast] at hinsert
  by_cases hfull : tail.isFull 100 4096 = true
  · simp only [hfull] at hinsert
    cases hinsert
    exact hnew rfl
  -- the last node takes the entry
  obtain ⟨kept, hkept⟩ := getLast?_eq_some_iff.1 hlast
  have hmem : (key, tail) ∈ t.nodes.toList := by rw [hkept]; simp
  have hlist := toList_insert_of_split hkept (tail.appendWithMode id fields refMode)
  simp only [hfull] at hinsert
  cases hinsert
  refine ⟨kept, key, _, ⟨id, fields, fields.map Prod.fst == tail.masterFields, false, refMode⟩,
    hlist, ?_, ?_, rfl, rfl, ?_, ?_⟩
  · rw [hkept]
    exact subset_append_left _ _
  · rw [entries, entries, hkept]
    show List.flatMap _ (t.nodes.insert key _).toList = _
    rw [hlist]
    simp [appendWithMode]
  · exact (h.opened _ hmem).trans hid.le
  · intro i hi
    simp only [ListpackMacroNode.ids, appendWithMode, map_append, mem_append,
      map_cons, map_nil, mem_singleton] at hi
    rcases hi with hi | rfl
    · exact (h.closed _ hmem i hi).trans (le_max_left _ _)
    · exact le_max_right _ _

/-- **Appending above the last id** keeps the order; the new entry is the newest one. -/
theorem Ordered.insertWithMode (h : t.Ordered) (hid : t.lastId < id)
    (hinsert : t.insertWithMode id fields refMode = some t') :
    t'.Ordered ∧ t'.lastId = id ∧ t'.lastEntry.map MacroEntry.id = some id := by
  obtain ⟨kept, key, node, entry, hlist, hkept, hentries, rfl, hlive, hkey, hclosed⟩ :=
    insertWithMode_nodes h hid hinsert
  have hfields : t'.lastId = Max.max t.lastId entry.id ∧ t'.totalLen = t.totalLen + 1 := by
    unfold StreamRadixTree.insertWithMode at hinsert
    split at hinsert
    · cases hinsert
    · cases hinsert
      exact ⟨rfl, rfl⟩
  have hlast : t'.lastId = entry.id := hfields.1.trans (max_eq_right hid.le)
  have hids : t'.ids = t.ids ++ [entry.id] := by
    rw [ids, hentries, map_append]
    rfl
  refine ⟨⟨?_, ?_, ?_, ?_, ?_, ?_⟩, hlast, ?_⟩
  · rw [hids, pairwise_append]
    refine ⟨h.increasing, pairwise_singleton _ _, fun a ha b hb => ?_⟩
    rw [mem_singleton.1 hb]
    exact (h.bounded a ha).trans_lt hid
  · intro i hi
    rw [hids, mem_append, mem_singleton] at hi
    rcases hi with hi | rfl
    · exact h.positive i hi
    · exact (StreamId.zero_le _).trans_lt hid
  · intro i hi
    rw [hlast]
    rw [hids, mem_append, mem_singleton] at hi
    rcases hi with hi | rfl
    · exact (h.bounded i hi).trans hid.le
    · exact le_rfl
  · intro n hn
    rw [hlast]
    rw [hlist, mem_append, mem_singleton] at hn
    rcases hn with hn | rfl
    · exact (h.opened n (hkept hn)).trans hid.le
    · exact hkey
  · intro n hn
    rw [hlist, mem_append, mem_singleton] at hn
    rcases hn with hn | rfl
    · exact h.closed n (hkept hn)
    · exact hclosed
  · rw [hfields.2, h.counted, hentries, length_append]
    rfl
  · rw [lastEntry_eq, hentries]
    simp [hlive]

/-! ## Deleting -/

/-- A node that keeps its ids and bounds can be rewritten in place. -/
theorem Ordered.replaceNode (h : t.Ordered) (hmem : (key, node) ∈ t.nodes.toList)
    (hids : node'.ids = node.ids) (hlast : node'.lastId = node.lastId)
    (hnodes : t'.nodes = t.nodes.insert key node') (hlastId : t'.lastId = t.lastId)
    (htotal : t'.totalLen = t.totalLen) : t'.Ordered := by
  obtain ⟨l, r, hsplit⟩ := append_of_mem hmem
  have hlist : t'.nodes.toList = l ++ (key, node') :: r := by
    rw [hnodes]
    exact toList_insert_of_split hsplit node'
  have hids' : t'.ids = t.ids := by
    rw [ids_eq_flatMap, ids_eq_flatMap, hlist, hsplit]
    simp [hids]
  have hcases : ∀ n ∈ t'.nodes.toList, n = (key, node') ∨ n ∈ t.nodes.toList := by
    intro n hn
    rw [hlist, mem_append, mem_cons] at hn
    rw [hsplit, mem_append, mem_cons]
    tauto
  refine ⟨hids' ▸ h.increasing, hids' ▸ h.positive, ?_, fun n hn => ?_, fun n hn => ?_, ?_⟩
  · rw [hids', hlastId]
    exact h.bounded
  · rw [hlastId]
    rcases hcases n hn with rfl | hn
    · exact h.opened (key, node) hmem
    · exact h.opened n hn
  · rcases hcases n hn with rfl | hn
    · show ∀ i ∈ node'.ids, i ≤ node'.lastId
      rw [hids, hlast]
      exact h.closed _ hmem
    · exact h.closed n hn
  · have hlength := congrArg List.length hids'
    rw [ids, ids, length_map, length_map] at hlength
    rw [htotal, h.counted, hlength]

/-- **Deleting** keeps the order and the last id. -/
theorem Ordered.deleteWithMode (h : t.Ordered) (id : StreamId) (refMode : StreamRefMode) :
    t.Keeps (t.deleteWithMode id refMode).1 := by
  unfold StreamRadixTree.deleteWithMode
  rcases hhead : (t.candidates id).head? with _ | found
  · exact ⟨h, rfl⟩
  obtain ⟨key, node⟩ := found
  dsimp only
  rcases hdelete : node.softDeleteWithMode id refMode with _ | node'
  · exact ⟨h, rfl⟩
  obtain ⟨hids, hlast⟩ := softDeleteWithMode_spec hdelete
  have hmem : (key, node) ∈ t.nodes.toList :=
    mem_of_mem_filter (mem_of_mem_head? hhead)
  exact ⟨h.replaceNode hmem hids hlast rfl rfl rfl, rfl⟩

/-! ## Trimming -/

/-- The log loses entries at its front and is in order if it was. -/
structure Trims (t t' : StreamRadixTree) (gone : List MacroEntry) : Prop where
  log : t.entries = gone ++ t'.entries
  lastId : t'.lastId = t.lastId
  ordered : t'.Ordered

theorem Ordered.trims_refl (h : t.Ordered) : Trims t t [] := ⟨rfl, rfl, h⟩

theorem Trims.trans {t'' : StreamRadixTree} {gone' : List MacroEntry} (h : Trims t t' gone)
    (h' : Trims t' t'' gone') : Trims t t'' (gone ++ gone') where
  log := by rw [h.log, h'.log, append_assoc]
  lastId := h'.lastId.trans h.lastId
  ordered := h'.ordered

/-- A tree whose nodes are nodes of an ordered one, with bounds of their own, and whose log lacks
some entries at the front. -/
theorem Ordered.trims (h : t.Ordered)
    (hlog : t.entries = gone ++ t'.entries) (hlast : t'.lastId = t.lastId)
    (hopened : ∀ node ∈ t'.nodes.toList, ∃ node₀ ∈ t.nodes.toList, node₀.1 = node.1)
    (hclosed : ∀ node ∈ t'.nodes.toList, ∀ id ∈ node.2.ids, id ≤ node.2.lastId)
    (hcount : t'.totalLen = t.totalLen - gone.length) : Trims t t' gone := by
  have hids : t.ids = gone.map MacroEntry.id ++ t'.ids := by
    rw [ids, hlog, map_append]
    rfl
  have hsub : t'.ids ⊆ t.ids := by
    rw [hids]
    exact subset_append_right _ _
  refine ⟨hlog, hlast, ?_, fun i hi => h.positive i (hsub hi), fun i hi => ?_, fun n hn => ?_,
    hclosed, ?_⟩
  · have hincreasing := h.increasing
    rw [hids] at hincreasing
    exact (pairwise_append.1 hincreasing).2.1
  · rw [hlast]
    exact h.bounded i (hsub hi)
  · obtain ⟨node₀, hnode₀, hkey⟩ := hopened n hn
    rw [hlast, ← hkey]
    exact h.opened node₀ hnode₀
  · rw [hcount, h.counted, hlog, length_append, Nat.add_sub_cancel_left]

theorem head?_eq_cons (h : t.nodes.toList.head? = some (key, node)) :
    ∃ r, t.nodes.toList = [] ++ (key, node) :: r := by
  obtain ⟨r, hr⟩ := head?_eq_some_iff.1 h
  exact ⟨r, hr⟩

/-- Without its first node the log lacks the entries of that node. -/
theorem Ordered.trims_erase (h : t.Ordered) (hhead : t.nodes.toList.head? = some (key, node))
    (hnodes : t'.nodes = t.nodes.erase key) (hlast : t'.lastId = t.lastId)
    (hcount : t'.totalLen = t.totalLen - node.totalEntries) : Trims t t' node.entries := by
  obtain ⟨r, hr⟩ := head?_eq_cons hhead
  have hlist : t'.nodes.toList = r := by
    rw [hnodes]
    exact toList_erase_of_split hr
  have hmem : ∀ n ∈ t'.nodes.toList, n ∈ t.nodes.toList := by
    intro n hn
    rw [hr]
    exact mem_cons_of_mem _ (hlist ▸ hn)
  refine h.trims ?_ hlast (fun n hn => ⟨n, hmem n hn, rfl⟩)
    (fun n hn => h.closed n (hmem n hn)) hcount
  rw [entries, entries, hlist, hr]
  rfl

/-- The first node with entries dropped from its front. -/
theorem Ordered.trims_replaceTrimmed (h : t.Ordered)
    (hhead : t.nodes.toList.head? = some (key, node)) {n : Nat} (hn : n ≤ node.entries.length)
    (hdrop : node'.entries = node.entries.drop n) (hclosed : ∀ id ∈ node'.ids, id ≤ node'.lastId) :
    Trims t (t.replaceTrimmed key (node', n)) (node.entries.take n) := by
  obtain ⟨r, hr⟩ := head?_eq_cons hhead
  have hnode : (key, node) ∈ t.nodes.toList := by rw [hr]; simp
  have hrest : ∀ m ∈ r, m ∈ t.nodes.toList := fun m hm => by rw [hr]; exact mem_cons_of_mem _ hm
  have hlength : (node.entries.take n).length = n := by rw [length_take, min_eq_left hn]
  have hentries :
      t.entries = node.entries.take n ++ (node'.entries ++ r.flatMap fun m => m.2.entries) := by
    rw [hdrop, ← append_assoc, take_append_drop, entries, hr]
    rfl
  by_cases hempty : node'.totalEntries = 0
  · have hlist : (t.replaceTrimmed key (node', n)).nodes.toList = r := by
      simp only [replaceTrimmed, hempty]
      exact toList_erase_of_split hr
    refine h.trims ?_ rfl (fun m hm => ⟨m, hrest m (hlist ▸ hm), rfl⟩)
      (fun m hm => h.closed m (hrest m (hlist ▸ hm))) (by rw [hlength]; rfl)
    rw [hentries, entries, hlist, length_eq_zero_iff.1 hempty, nil_append]
  have hlist : (t.replaceTrimmed key (node', n)).nodes.toList = (key, node') :: r := by
    simp only [replaceTrimmed, hempty]
    exact toList_insert_of_split hr _
  refine h.trims ?_ rfl (fun m hm => ?_) (fun m hm => ?_) (by rw [hlength]; rfl)
  · rw [hentries, entries, hlist, flatMap_cons]
  · rw [hlist] at hm
    rcases mem_cons.1 hm with rfl | hm
    · exact ⟨_, hnode, rfl⟩
    · exact ⟨m, hrest m hm, rfl⟩
  · rw [hlist] at hm
    rcases mem_cons.1 hm with rfl | hm
    · exact hclosed
    · exact h.closed m (hrest m hm)

/-- The upper bound of a shortened node is the last id that is left. -/
theorem Ordered.closed_dropOldest (h : t.Ordered) (hmem : (key, node) ∈ t.nodes.toList) (n : Nat) :
    ∀ id ∈ (node.dropOldest n).ids, id ≤ (node.dropOldest n).lastId := by
  refine fun id hid => le_getLast_of_increasing ?_ hid
  have hsub : node.ids.Sublist t.ids := by
    rw [ids_eq_flatMap]
    exact sublist_flatten_of_mem (mem_map_of_mem hmem)
  exact h.increasing.sublist (((drop_sublist n node.entries).map _).trans hsub)

/-- **Trimming by length** takes entries from the front and leaves as many as it was asked to. -/
theorem trimByMaxlenLoop_spec (maxlen : Nat) (approx : Bool) (limit rounds evicted : Nat)
    (h : t.Ordered) :
    ∃ gone, Trims t (trimByMaxlenLoop maxlen approx limit rounds t evicted) gone ∧
      min maxlen t.totalLen ≤ (trimByMaxlenLoop maxlen approx limit rounds t evicted).totalLen := by
  induction rounds generalizing t evicted with
  | zero => exact ⟨[], h.trims_refl, min_le_right _ _⟩
  | succ rounds ih =>
    have hstop : ∃ gone, Trims t t gone ∧ min maxlen t.totalLen ≤ t.totalLen :=
      ⟨[], h.trims_refl, min_le_right _ _⟩
    -- a round that leaves at least `maxlen` entries, and the rounds after it
    have hround : ∀ {t₁ gone₁} (evicted : Nat), Trims t t₁ gone₁ → maxlen ≤ t₁.totalLen →
        ∃ gone, Trims t (trimByMaxlenLoop maxlen approx limit rounds t₁ evicted) gone ∧
          min maxlen t.totalLen ≤
            (trimByMaxlenLoop maxlen approx limit rounds t₁ evicted).totalLen := by
      intro t₁ gone₁ evicted htrims hle
      obtain ⟨gone₂, htrims₂, hle₂⟩ := ih evicted htrims.ordered
      refine ⟨_, htrims.trans htrims₂, ?_⟩
      rw [min_eq_left hle] at hle₂
      exact (min_le_left _ _).trans hle₂
    rw [trimByMaxlenLoop]
    split
    · exact hstop
    rename_i hlen
    split
    · exact hstop
    rcases hhead : t.nodes.toList.head? with _ | first
    · exact hstop
    obtain ⟨key, node⟩ := first
    have hremove : Trims t (t.removeWholeNode key node) node.entries :=
      h.trims_erase hhead rfl rfl rfl
    dsimp only
    split
    · rename_i hzero
      refine hround evicted (h.trims_erase hhead rfl rfl ?_) (le_of_not_ge hlen)
      rw [hzero, Nat.sub_zero]
    rename_i hzero
    split
    · split
      · exact hstop
      · rename_i hbelow
        split
        · exact hstop
        · exact hround _ hremove (not_lt.1 hbelow)
    split
    · split
      · exact hstop
      · refine hround _ hremove ?_
        show maxlen ≤ t.totalLen - node.totalEntries
        omega
    rename_i hwhole
    generalize htrim : (if limit = 0 then t.totalLen - maxlen
      else min (t.totalLen - maxlen) (limit - evicted)) = toTrim
    have htoTrim : toTrim ≤ t.totalLen - maxlen := by
      rw [← htrim]
      split
      · exact le_rfl
      · exact min_le_left _ _
    split
    · exact hstop
    rename_i hnone
    have hfit : toTrim ≤ node.entries.length := by
      rw [totalEntries] at hwhole
      omega
    have htrimmed : node.hardTrimOldestEntries toTrim = (node.dropOldest toTrim, toTrim) := by
      rw [hardTrimOldestEntries, if_neg, min_eq_left hfit]
      rintro (hz | hnil)
      · exact hnone hz
      · exact hzero (by rw [totalEntries, hnil]; rfl)
    rw [htrimmed, if_neg hnone]
    have hmem : (key, node) ∈ t.nodes.toList := mem_of_mem_head? hhead
    refine hround _ (h.trims_replaceTrimmed hhead hfit rfl
      (h.closed_dropOldest hmem toTrim)) ?_
    show maxlen ≤ t.totalLen - toTrim
    omega

variable (minId : StreamId) (approx : Bool) (limit : Nat)

/-- **Trimming whole nodes by id** takes entries below the threshold from the front. -/
theorem trimByMinidLoop_spec (rounds evicted : Nat) (h : t.Ordered) :
    ∃ gone, Trims t (trimByMinidLoop minId limit rounds t evicted).1 gone ∧
      ∀ e ∈ gone, e.id < minId := by
  have hstop {t : StreamRadixTree} (h : t.Ordered) :
      ∃ gone, Trims t t gone ∧ ∀ e ∈ gone, e.id < minId :=
    ⟨[], h.trims_refl, by simp⟩
  induction rounds generalizing t evicted with
  | zero => exact hstop h
  | succ rounds ih =>
    rw [trimByMinidLoop]
    split
    · exact hstop h
    rcases hhead : t.nodes.toList.head? with _ | first
    · exact hstop h
    obtain ⟨key, node⟩ := first
    dsimp only
    split
    · exact hstop h
    rename_i hbound
    split
    · exact hstop h
    have hremove : Trims t (t.removeWholeNode key node) node.entries :=
      h.trims_erase hhead rfl rfl rfl
    obtain ⟨gone, htrims, hgone⟩ := ih (evicted + node.totalEntries) hremove.ordered
    refine ⟨_, hremove.trans htrims, forall_mem_append.2 ⟨fun e he => ?_, hgone⟩⟩
    have hmem : (key, node) ∈ t.nodes.toList := mem_of_mem_head? hhead
    exact (h.closed _ hmem e.id (mem_map_of_mem he)).trans_lt (not_le.1 hbound)

/-- Entries below the threshold at the front of the first node. -/
theorem trims_hardTrimWhileIdLt (h : t.Ordered) (hhead : t.nodes.toList.head? = some (key, node)) :
    ∃ gone, Trims t (t.replaceTrimmed key (node.hardTrimWhileIdLt minId limit)) gone ∧
      (∀ e ∈ gone, e.id < minId) ∧
      (limit = 0 → gone = node.entries.takeWhile fun entry => entry.id < minId) := by
  generalize hbelow : (node.entries.takeWhile fun entry => entry.id < minId).length = below
  generalize hremoved : (if limit = 0 then below else min below limit) = removed
  have hle : removed ≤ below := by
    rw [← hremoved]
    split
    · exact le_rfl
    · exact min_le_left _ _
  have hfit : removed ≤ node.entries.length :=
    hle.trans (hbelow ▸ (takeWhile_sublist _).length_le)
  have hgone : ∀ e ∈ node.entries.take removed, e.id < minId := by
    intro e he
    have htake : node.entries.take removed <+:
        node.entries.takeWhile fun entry => entry.id < minId := by
      refine (take_prefix_take_left hle).trans ?_
      rw [← hbelow, prefix_iff_eq_take.1 ( takeWhile_prefix _)]
      simp
    simpa using mem_takeWhile_imp (htake.subset he)
  have hmem : (key, node) ∈ t.nodes.toList := mem_of_mem_head? hhead
  have hwhole : limit = 0 → node.entries.take removed =
      node.entries.takeWhile fun entry => entry.id < minId := by
    intro hlimit
    rw [← hremoved, if_pos hlimit, ← hbelow]
    exact (prefix_iff_eq_take.1 ( takeWhile_prefix _)).symm
  rw [hardTrimWhileIdLt, hbelow, hremoved]
  split
  · rename_i hzero
    rw [hzero] at hwhole
    exact ⟨_, h.trims_replaceTrimmed hhead (Nat.zero_le _) rfl (h.closed _ hmem), by simp, hwhole⟩
  · exact ⟨_, h.trims_replaceTrimmed hhead hfit rfl (h.closed_dropOldest hmem removed), hgone,
      hwhole⟩

/-! ### The last id after a trim -/

theorem Ordered.refreshEdgeIds (h : t.Ordered) (hlast : t.refreshEdgeIds.lastId = t.lastId) :
    t.refreshEdgeIds.Ordered where
  increasing := h.increasing
  positive := h.positive
  bounded := by
    rw [hlast]
    exact h.bounded
  opened := by
    rw [hlast]
    exact h.opened
  closed := h.closed
  counted := h.counted

/-- The entries that are left give the last id again if the newest one carries it and is among
them. -/
theorem Trims.refreshEdgeIds (htrims : Trims t t' gone)
    (hlast : t.lastEntry.map MacroEntry.id = some t.lastId)
    (hkept : ∀ e ∈ t.entries, e.id = t.lastId → e ∈ t'.entries) : t.Keeps t'.refreshEdgeIds := by
  obtain ⟨e, he, hid⟩ := Option.map_eq_some_iff.1 hlast
  rw [lastEntry_eq] at he
  obtain ⟨hmem, hlive⟩ := mem_filter.1 (mem_of_mem_getLast? he)
  -- the newest live entry is left, so it is still the newest one
  have hlast' : t'.lastEntry = some e := by
    have hmem' : e ∈ t'.entries.filter fun e => !e.deleted :=
      mem_filter.2 ⟨hkept e hmem hid, hlive⟩
    rw [htrims.log, filter_append, getLast?_append] at he
    rw [lastEntry_eq]
    cases hnew : (t'.entries.filter fun e => !e.deleted).getLast? with
    | none => simp [getLast?_eq_none_iff.1 hnew] at hmem'
    | some e' =>
      rw [hnew] at he
      exact he
  have hlastId : t'.refreshEdgeIds.lastId = t.lastId := by
    simp [StreamRadixTree.refreshEdgeIds, hlast', hid]
  exact ⟨htrims.ordered.refreshEdgeIds (hlastId.trans htrims.lastId.symm), hlastId⟩

/-- A stream without ids has nothing to trim. -/
theorem Trims.refreshEdgeIds_of_zero (htrims : Trims t t' gone) (hzero : t.lastId = .zero) :
    t.Keeps t'.refreshEdgeIds := by
  have ho := htrims.ordered
  have hnil : t'.entries = [] := by
    refine eq_nil_iff_forall_not_mem.2 fun e he => ?_
    have hid : e.id ∈ t'.ids := mem_map_of_mem he
    have hle := ho.bounded _ hid
    rw [htrims.lastId, hzero] at hle
    exact hle.not_gt (ho.positive _ hid)
  have hlastId : t'.refreshEdgeIds.lastId = t.lastId := by
    simp [StreamRadixTree.refreshEdgeIds, lastEntry_eq, hnil, hzero]
  exact ⟨htrims.ordered.refreshEdgeIds (hlastId.trans htrims.lastId.symm), hlastId⟩

/-- An entry that carries the last id is the last one of the log. -/
theorem Ordered.getLast?_entries (h : t.Ordered) {e : MacroEntry} (he : e ∈ t.entries)
    (hid : e.id = t.lastId) : t.entries.getLast? = some e := by
  obtain ⟨l, r, hsplit⟩ := append_of_mem he
  rcases r with _ | ⟨next, r⟩
  · rw [hsplit, getLast?_concat]
  have hincreasing := h.increasing
  rw [ids, hsplit, map_append, pairwise_append, map_cons, pairwise_cons]
    at hincreasing
  have hnext : next.id ≤ t.lastId := h.bounded _ (mem_map_of_mem (by rw [hsplit]; simp))
  have hlt : e.id < next.id := hincreasing.2.1.1 _ (by simp)
  rw [hid] at hlt
  exact absurd hnext hlt.not_ge

/-- **A trim by length that leaves an entry** keeps the last id, if the newest live entry has it. -/
theorem Ordered.trimByMaxlen {maxlen : Nat} (h : t.Ordered)
    (hkeeps : t.lastId = .zero ∨ t.lastEntry.map MacroEntry.id = some t.lastId ∧ 1 ≤ maxlen) :
    t.Keeps (t.trimByMaxlen maxlen approx limit) := by
  obtain ⟨gone, htrims, hlen⟩ :=
    trimByMaxlenLoop_spec maxlen approx limit (t.nodes.size + 1) 0 h
  rcases hkeeps with hzero | ⟨hlast, hmaxlen⟩
  · exact htrims.refreshEdgeIds_of_zero hzero
  refine htrims.refreshEdgeIds hlast fun e he hid => ?_
  have hlastEntry := h.getLast?_entries he hid
  rw [h.counted, htrims.ordered.counted] at hlen
  have hpos : 0 < t.entries.length := length_pos_of_mem he
  generalize trimByMaxlenLoop maxlen approx limit (t.nodes.size + 1) t 0 = t' at htrims hlen
  rw [htrims.log, getLast?_append] at hlastEntry
  cases hnew : t'.entries.getLast? with
  | none =>
    rw [getLast?_eq_none_iff.1 hnew] at hlen
    simp only [length_nil] at hlen
    omega
  | some e' =>
    rw [hnew, Option.some_or, Option.some.injEq] at hlastEntry
    exact hlastEntry ▸ mem_of_mem_getLast? hnew

/-- **A trim by id** takes entries below the threshold from the front. -/
theorem Ordered.trimByMinid_spec (h : t.Ordered) :
    ∃ t' gone, t.trimByMinid minId approx limit = t'.refreshEdgeIds ∧ Trims t t' gone ∧
      ∀ e ∈ gone, e.id < minId := by
  obtain ⟨gone, htrims, hgone⟩ := trimByMinidLoop_spec minId limit t.nodes.size 0 h
  unfold StreamRadixTree.trimByMinid
  generalize trimByMinidLoop minId limit t.nodes.size t 0 = r at htrims
  obtain ⟨t₁, evicted⟩ := r
  dsimp only
  rcases hhead : t₁.nodes.toList.head? with _ | first
  · exact ⟨_, _, rfl, htrims, hgone⟩
  dsimp only
  split
  · obtain ⟨gone', htrims', hgone', -⟩ :=
      trims_hardTrimWhileIdLt minId (limit - evicted) htrims.ordered hhead
    exact ⟨_, _, rfl, htrims.trans htrims', forall_mem_append.2 ⟨hgone, hgone'⟩⟩
  · exact ⟨_, _, rfl, htrims, hgone⟩

/-- **A trim by id that spares the last id** keeps it, if the newest live entry has it. -/
theorem Ordered.trimByMinid {minId : StreamId} (h : t.Ordered) (hkeeps : t.lastId = .zero ∨
      t.lastEntry.map MacroEntry.id = some t.lastId ∧ minId ≤ t.lastId) :
    t.Keeps (t.trimByMinid minId approx limit) := by
  obtain ⟨t', gone, heq, htrims, hgone⟩ := h.trimByMinid_spec minId approx limit
  rw [heq]
  rcases hkeeps with hzero | ⟨hlast, hmin⟩
  · exact htrims.refreshEdgeIds_of_zero hzero
  · refine htrims.refreshEdgeIds hlast fun e he hid => ?_
    rw [htrims.log] at he
    refine (mem_append.1 he).resolve_left fun hmem => ?_
    exact (hgone e hmem).not_ge (hid ▸ hmin)

/-! ### Exact trims -/

theorem Ordered.toList_ne_nil (h : t.Ordered) (hpos : 0 < t.totalLen) : t.nodes.toList ≠ [] := by
  intro hnil
  rw [h.counted, entries, hnil] at hpos
  cases hpos

/-- **An exact trim by length** without a limit goes on until no entry is too many. -/
theorem trimByMaxlenLoop_exact (maxlen rounds evicted : Nat) (h : t.Ordered)
    (hrounds : t.nodes.toList.length < rounds) :
    (trimByMaxlenLoop maxlen false 0 rounds t evicted).totalLen ≤ maxlen := by
  induction rounds generalizing t evicted with
  | zero => omega
  | succ rounds ih =>
    -- the first node goes, and the rounds after it
    have hshorter : ∀ {t₁ key node} (evicted : Nat), t.nodes.toList.head? = some (key, node) →
        t₁.nodes = t.nodes.erase key → t₁.Ordered →
        (trimByMaxlenLoop maxlen false 0 rounds t₁ evicted).totalLen ≤ maxlen := by
      intro t₁ key node evicted hhead hnodes hordered
      obtain ⟨r, hr⟩ := head?_eq_cons hhead
      refine ih evicted hordered ?_
      rw [hnodes, toList_erase_of_split hr]
      rw [hr] at hrounds
      exact Nat.lt_of_succ_lt_succ hrounds
    rw [trimByMaxlenLoop]
    split
    · assumption
    rename_i hlen
    rw [if_neg (by simp)]
    obtain ⟨⟨key, node⟩, hhead⟩ : ∃ first, t.nodes.toList.head? = some first :=
      Option.ne_none_iff_exists'.1 (mt head?_eq_none_iff.1 (h.toList_ne_nil (by omega)))
    rw [hhead]
    dsimp only
    have hremove : Trims t (t.removeWholeNode key node) node.entries :=
      h.trims_erase hhead rfl rfl rfl
    split
    · rename_i hzero
      have herase : Trims t { t with nodes := t.nodes.erase key } node.entries :=
        h.trims_erase hhead rfl rfl (by rw [hzero, Nat.sub_zero])
      exact hshorter evicted hhead rfl herase.ordered
    rename_i hzero
    rw [if_neg (by simp)]
    split
    · rw [if_neg (by simp)]
      exact hshorter _ hhead rfl hremove.ordered
    rename_i hwhole
    rw [if_pos rfl, if_neg (by omega)]
    have hfit : t.totalLen - maxlen ≤ node.entries.length := (not_le.1 hwhole).le
    have htrimmed : node.hardTrimOldestEntries (t.totalLen - maxlen) =
        (node.dropOldest (t.totalLen - maxlen), t.totalLen - maxlen) := by
      rw [hardTrimOldestEntries, if_neg, min_eq_left hfit]
      rintro (hz | hnil)
      · omega
      · exact hzero (by rw [totalEntries, hnil]; rfl)
    rw [htrimmed, if_neg (by omega)]
    -- what is left is as long as asked for, so the next round stops
    generalize ht' : t.replaceTrimmed key (node.dropOldest (t.totalLen - maxlen),
      t.totalLen - maxlen) = t'
    have hlen' : t'.totalLen ≤ maxlen := by
      rw [← ht']
      show t.totalLen - (t.totalLen - maxlen) ≤ maxlen
      omega
    cases rounds with
    | zero => exact hlen'
    | succ rounds =>
      rw [trimByMaxlenLoop, if_pos hlen']
      exact hlen'

/-- **Whole nodes** go until the first one reaches the threshold. -/
theorem trimByMinidLoop_exact (rounds evicted : Nat) (hrounds : t.nodes.toList.length ≤ rounds) :
    (trimByMinidLoop minId 0 rounds t evicted).1.nodes.toList <:+ t.nodes.toList ∧
      ∀ first ∈ (trimByMinidLoop minId 0 rounds t evicted).1.nodes.toList.head?,
        minId ≤ first.2.lastId := by
  induction rounds generalizing t evicted with
  | zero =>
    have hnil : t.nodes.toList = [] := length_eq_zero_iff.1 (by omega)
    exact ⟨suffix_rfl, by simp [trimByMinidLoop, hnil]⟩
  | succ rounds ih =>
    rw [trimByMinidLoop, if_neg (by simp)]
    rcases hhead : t.nodes.toList.head? with _ | ⟨key, node⟩
    · exact ⟨suffix_rfl, by simp [hhead]⟩
    dsimp only
    split
    · rename_i hreached
      exact ⟨suffix_rfl, by simpa [hhead] using hreached⟩
    -- the first node lies below the threshold and goes as a whole
    rw [if_neg (by simp)]
    obtain ⟨r, hr⟩ := head?_eq_cons hhead
    have hlist : (t.removeWholeNode key node).nodes.toList = r := toList_erase_of_split hr
    obtain ⟨hsuffix, hfirst⟩ := ih (t := t.removeWholeNode key node) (evicted + node.totalEntries)
      (by rw [hlist]; rw [hr] at hrounds; exact Nat.le_of_succ_le_succ hrounds)
    refine ⟨hsuffix.trans ?_, hfirst⟩
    rw [hlist, hr]
    exact suffix_cons _ _

/-- The nodes end with the ids that they give as their last ones. -/
def Tight (t : StreamRadixTree) : Prop := ∀ node ∈ t.nodes.toList, node.2.lastId ∈ node.2.ids
deriving Decidable

/-- **An exact trim by id** without a limit leaves nothing below the threshold. -/
theorem Ordered.trimByMinid_exact (h : t.Ordered) (htight : t.Tight) :
    ∀ e ∈ (t.trimByMinid minId false 0).entries, minId ≤ e.id := by
  obtain ⟨gone, htrims, -⟩ := trimByMinidLoop_spec minId 0 t.nodes.size 0 h
  obtain ⟨hsuffix, hfirst⟩ := trimByMinidLoop_exact minId t.nodes.size 0
    (le_of_eq TreeMap.length_toList)
  unfold StreamRadixTree.trimByMinid
  generalize trimByMinidLoop minId 0 t.nodes.size t 0 = r at htrims hsuffix hfirst
  obtain ⟨t₁, evicted⟩ := r
  dsimp only at htrims hsuffix hfirst ⊢
  rcases hhead : t₁.nodes.toList.head? with _ | ⟨key, node⟩
  · intro e he
    have hnil : t₁.refreshEdgeIds.entries = [] := by
      show t₁.nodes.toList.flatMap _ = []
      rw [head?_eq_none_iff.1 hhead]
      rfl
    rw [hnil] at he
    cases he
  dsimp only
  rw [if_pos (by simp), Nat.zero_sub]
  obtain ⟨gone', htrims', -, hgone'⟩ := trims_hardTrimWhileIdLt minId 0 htrims.ordered hhead
  rw [hgone' rfl] at htrims'
  generalize t₁.replaceTrimmed key (node.hardTrimWhileIdLt minId 0) = t' at htrims'
  obtain ⟨r, hr⟩ := head?_eq_cons hhead
  -- the first node has an entry at the threshold or above, and the log goes on from there
  have hlog : t'.entries = (node.entries.dropWhile fun entry => entry.id < minId) ++
      r.flatMap fun m => m.2.entries := by
    have hentries := htrims'.log
    rw [entries, hr, nil_append, flatMap_cons] at hentries
    nth_rewrite 1 [← takeWhile_append_dropWhile (p := fun entry : MacroEntry => entry.id < minId)
      (l := node.entries)] at hentries
    rw [append_assoc] at hentries
    exact (append_cancel_left hentries).symm
  have hmem : (key, node) ∈ t₁.nodes.toList := mem_of_mem_head? hhead
  have hreached : minId ≤ node.lastId := hfirst _ hhead
  obtain ⟨e₀, he₀, hid₀⟩ := mem_map.1 (htight _ (hsuffix.subset hmem))
  obtain ⟨e₁, es, hdrop⟩ := exists_cons_of_ne_nil (l := node.entries.dropWhile fun entry =>
    entry.id < minId) (by
      rw [Ne, dropWhile_eq_nil_iff]
      intro hall
      have hlt := hall e₀ he₀
      rw [decide_eq_true_iff, hid₀] at hlt
      exact hlt.not_ge hreached)
  have hfirst₁ : minId ≤ e₁.id := by
    have hnot := head_dropWhile_not (fun entry : MacroEntry => decide (entry.id < minId))
      (l := node.entries) (by rw [hdrop]; simp)
    simp only [hdrop, head_cons, decide_eq_false_iff_not, not_lt] at hnot
    exact hnot
  rw [hdrop, cons_append] at hlog
  have hincreasing := htrims'.ordered.increasing
  rw [ids, hlog, map_cons, pairwise_cons] at hincreasing
  intro e he
  have he : e ∈ t'.entries := he
  rw [hlog] at he
  rcases mem_cons.1 he with rfl | he
  · exact hfirst₁
  · exact hfirst₁.trans (hincreasing.1 _ (mem_map_of_mem he)).le

/-- **A trim takes the oldest entries only.** What is left is an end of the log: at least as many
entries as a trim by length is asked to leave, and all entries from the threshold of a trim by id
on. An exact trim without a limit leaves no more than that. -/
theorem trim_leaves_newest (t : StreamRadixTree) (h : t.Ordered) :
    (∀ maxlen approx limit, (t.trimByMaxlen maxlen approx limit).entries <:+ t.entries ∧
      min maxlen t.entries.length ≤ (t.trimByMaxlen maxlen approx limit).entries.length) ∧
    (∀ minId approx limit, (t.trimByMinid minId approx limit).entries <:+ t.entries ∧
      ∀ e ∈ t.entries, minId ≤ e.id → e ∈ (t.trimByMinid minId approx limit).entries) ∧
    (∀ maxlen, (t.trimByMaxlen maxlen false 0).entries.length = min maxlen t.entries.length) ∧
    (t.Tight → ∀ minId, ∀ e ∈ (t.trimByMinid minId false 0).entries, minId ≤ e.id) := by
  have hmaxlen : ∀ maxlen approx limit,
      (t.trimByMaxlen maxlen approx limit).entries <:+ t.entries ∧
        min maxlen t.entries.length ≤ (t.trimByMaxlen maxlen approx limit).entries.length := by
    intro maxlen approx limit
    obtain ⟨gone, htrims, hlen⟩ :=
      trimByMaxlenLoop_spec maxlen approx limit (t.nodes.size + 1) 0 h
    rw [h.counted, htrims.ordered.counted] at hlen
    exact ⟨⟨gone, htrims.log.symm⟩, hlen⟩
  refine ⟨hmaxlen, fun minId approx limit => ?_, fun maxlen => ?_, fun htight minId =>
    h.trimByMinid_exact minId htight⟩
  · obtain ⟨t', gone, heq, htrims, hgone⟩ := h.trimByMinid_spec minId approx limit
    rw [heq]
    refine ⟨⟨gone, htrims.log.symm⟩, fun e he hle => ?_⟩
    rw [htrims.log] at he
    exact (mem_append.1 he).resolve_left fun hmem => (hgone e hmem).not_ge hle
  · -- the loop ends with no more entries than the limit, and it never removes one too many
    obtain ⟨hsuffix, hle⟩ := hmaxlen maxlen false 0
    obtain ⟨_, htrims, -⟩ := trimByMaxlenLoop_spec maxlen false 0 (t.nodes.size + 1) 0 h
    have hexact := trimByMaxlenLoop_exact maxlen (t.nodes.size + 1) 0 h
      (Nat.lt_succ_of_le (le_of_eq TreeMap.length_toList))
    rw [htrims.ordered.counted] at hexact
    exact le_antisymm (le_min hexact hsuffix.length_le) hle

/-- A log with the ids 1-0, 2-0 and 3-0. -/
def threeEntries : StreamRadixTree :=
  ([1, 2, 3].foldlM (fun (t : StreamRadixTree) ms =>
    t.insertWithMode ⟨ms, 0⟩ [] .keepRef) {}).getD {}

/-- `XTRIM MAXLEN 1` and `XTRIM MINID 2-0` take one entry or two from a log of three. -/
theorem trim_leaves_newest_three : threeEntries.entries.length = 3 ∧
    (threeEntries.trimByMaxlen 1 false 0).entries.length = 1 ∧
    ⟨1, 0⟩ ∉ (threeEntries.trimByMinid ⟨2, 0⟩ false 0).ids ∧
    ⟨2, 0⟩ ∈ (threeEntries.trimByMinid ⟨2, 0⟩ false 0).ids := by
  have hordered : threeEntries.Ordered := by constructor <;> decide +kernel
  have htight : threeEntries.Tight := by decide +kernel
  obtain ⟨-, hkept, hlength, hexact⟩ := trim_leaves_newest threeEntries hordered
  have hthree : threeEntries.entries.length = 3 := by decide +kernel
  refine ⟨hthree, (hlength 1).trans (by rw [hthree]; rfl), fun hmem => ?_, ?_⟩
  · obtain ⟨e, he, hid⟩ := mem_map.1 hmem
    exact absurd (hid ▸ hexact htight ⟨2, 0⟩ e he) (by decide)
  · have hmem : ⟨2, 0⟩ ∈ threeEntries.ids := by decide +kernel
    obtain ⟨e, he, hid⟩ := mem_map.1 hmem
    exact mem_map.2 ⟨e, (hkept ⟨2, 0⟩ false 0).2 e he hid.ge, hid⟩

end StreamRadixTree

end Senko
