import Senko.Core.ListpackFind
import Senko.Core.Set

/-!
# Senko — set objects are sets of byte strings

A set object is compared with the finite set of the byte strings it stands for. Every encoding
answers for the bytes of a member only as far as it keeps them (`SetEncoding.Kept`): an integer set
keeps integers in their plain spelling, a listpack keeps everything, a hash table keeps UTF-8.

Each encoding has one specification for membership, insertion and removal, in terms of the list of
its members up to order. The run theorem (`set_refines_finset`) is assembled from them.
-/

namespace Senko

open List CompactString SetEncoding

variable {s : IntSet} {v i : Int} {table : HashTable CompactString} {entries : List Bytes}
  {inner : SetEncoding} {z : SetObject} {S : Finset Bytes}

/-! ## Integer sets -/

namespace IntSet

/-- Where binary search ends. -/
theorem binarySearch_data (s : IntSet) (v : Int) :
    (∃ a b, s.data = a ++ v :: b ∧ binarySearch s.data v = .ok a.length) ∨
      v ∉ s.data ∧ ∃ a b, s.data = a ++ b ∧ binarySearch s.data v = .error a.length := by
  cases hsearch : binarySearch s.data v with
  | ok i =>
    obtain ⟨a, b, hdata, rfl⟩ := binarySearch_ok hsearch
    exact .inl ⟨a, b, hdata, rfl⟩
  | error i =>
    obtain ⟨a, b, hdata, rfl, ha, hb⟩ := binarySearch_error s.sorted hsearch
    refine .inr ⟨fun hmem => ?_, a, b, hdata, rfl⟩
    rw [hdata, mem_append] at hmem
    rcases hmem with hmem | hmem
    · exact lt_irrefl _ (ha v hmem)
    · exact lt_irrefl _ (hb v hmem)

theorem contains_iff : s.contains v = true ↔ v ∈ s.data := by
  unfold contains
  split
  · simp [simdOrScalarSearch]
  · rcases binarySearch_data s v with ⟨a, b, hdata, hsearch⟩ | ⟨habsent, a, b, -, hsearch⟩
    · rw [hsearch]
      simp [hdata, Except.toBool]
    · rw [hsearch]
      simp [habsent, Except.toBool]

theorem insert_of_mem (h : v ∈ s.data) : s.insert v = (s, false) := by
  rcases binarySearch_data s v with ⟨a, b, -, hsearch⟩ | ⟨habsent, -⟩
  · unfold insert
    split
    · rfl
    · rename_i i herror
      rw [hsearch] at herror
      cases herror
  · exact absurd h habsent

theorem insert_of_notMem (h : v ∉ s.data) :
    (s.insert v).2 = true ∧ (s.insert v).1.data.Perm (v :: s.data) := by
  rcases binarySearch_data s v with ⟨a, b, hdata, -⟩ | ⟨-, a, b, hdata, hsearch⟩
  · exact absurd (by simp [hdata]) h
  unfold insert
  split
  · rename_i i hok
    rw [hsearch] at hok
    cases hok
  rename_i i herror
  obtain rfl : a.length = i := by rw [hsearch] at herror; exact Except.error.inj herror
  refine ⟨rfl, ?_⟩
  show (s.data.insertIdx a.length v).Perm _
  rw [hdata, insertIdx_append_length]
  exact perm_middle

theorem remove_of_mem (h : v ∈ s.data) :
    (s.remove v).2 = true ∧ s.data.Perm (v :: (s.remove v).1.data) := by
  rcases binarySearch_data s v with ⟨a, b, hdata, hsearch⟩ | ⟨habsent, -⟩
  · unfold remove
    rw [hsearch]
    refine ⟨rfl, ?_⟩
    show s.data.Perm (v :: s.data.eraseIdx a.length)
    rw [hdata, eraseIdx_append_length]
    exact perm_middle
  · exact absurd h habsent

theorem remove_of_notMem (h : v ∉ s.data) : s.remove v = (s, false) := by
  rcases binarySearch_data s v with ⟨a, b, hdata, -⟩ | ⟨-, a, b, -, hsearch⟩
  · exact absurd (by simp [hdata]) h
  · unfold remove
    rw [hsearch]

end IntSet

/-! ## Listpacks as sets -/

/-- A string is found at the start of another of its length exactly if they are equal. -/
theorem memmemFind_eq_zero_iff {payload member : Bytes} (hne : member ≠ []) :
    memmemFind payload member = some 0 ∧ payload.length = member.length ↔ payload = member := by
  constructor
  · rintro ⟨hfind, hlen⟩
    have hmem : 0 ∈ memmemFindIter payload member := mem_of_head? hfind
    have hocc : member <+: payload := by simpa [OccursAt] using occursAt_of_mem hmem
    exact (hocc.eq_of_length hlen.symm).symm
  · rintro rfl
    refine ⟨?_, rfl⟩
    obtain ⟨b, rest, rfl⟩ := exists_cons_of_ne_nil hne
    simp [memmemFind, memmemFindIter, findIterFrom]

/-- The walk finds the members of the node. -/
theorem lpSetContainsLoop_eq (pre : Bytes) {member : Bytes} (hne : member ≠ []) {prevLen fuel : Nat}
    (hprev : prevLen ≤ 255) (hshort : ∀ e ∈ entries, ShortElement e)
    (hfuel : entries.length ≤ fuel) :
    lpSetContainsLoop (pre ++ encodeEntries prevLen entries) member fuel pre.length =
      decide (member ∈ entries) := by
  induction entries generalizing pre prevLen fuel with
  | nil => cases fuel <;> simp [lpSetContainsLoop, encodeEntries]
  | cons e entries ih =>
    obtain ⟨fuel, rfl⟩ : ∃ k, fuel = k + 1 := ⟨fuel - 1, by simp at hfuel; omega⟩
    have he : ShortElement e := hshort e (by simp)
    have hfits : (encodeEntry e prevLen).length ≤ 255 := encodeEntry_length_of_short he hprev
    have hhead := decodeEntryAt_cons pre entries (by omega) hfits
    have hstep := ih (pre ++ encodeEntry e prevLen)
      hfits (fun x hx => hshort x (mem_cons_of_mem _ hx))
      (show entries.length ≤ fuel by simpa using hfuel)
    rw [← append_encodeEntries_cons] at hstep
    rw [lpSetContainsLoop, if_pos (lt_of_decodeEntryAt hhead), hhead]
    simp only [memmemFind_eq_zero_iff hne]
    by_cases hhit : e = member
    · simp [hhit]
    · rw [if_neg hhit, hstep]
      simp [Ne.symm hhit]

theorem lpSetContains_eq (h : ShortChunk entries) (member : Bytes) :
    lpSetContains (encodeNodeEntries {} entries) member = decide (member ∈ entries) := by
  unfold lpSetContains
  split
  · rename_i hnil
    rw [(h.actsAsList {}).iter, hnil]
    rw [Bool.eq_iff_iff]
    simp
  · rename_i hne
    have hwalk := lpSetContainsLoop_eq [] hne (Nat.zero_le 255) h.1
      (length_le_encodeEntries 0 entries)
    simpa [encodeNodeEntries] using hwalk

/-! ## Hash sets -/

section Table

variable {place : Placement CompactString} {m : CompactString}

theorem table_find_isSome : (table.find id m).isSome = true ↔ m ∈ table.items := by
  rw [HashTable.find]
  simp

theorem tableInsert_of_mem (h : m ∈ table.items) : tableInsert place table m = (table, false) := by
  rw [tableInsert, if_pos (table_find_isSome.2 h)]

theorem tableInsert_of_notMem (h : m ∉ table.items) :
    tableInsert place table m = (place.insertUnique table m, true) := by
  rw [tableInsert, if_neg (mt table_find_isSome.1 h)]

theorem mem_items_tableInsert {c : CompactString} :
    c ∈ (tableInsert place table m).1.items ↔ c = m ∨ c ∈ table.items := by
  by_cases h : m ∈ table.items
  · rw [tableInsert_of_mem h]
    exact ⟨.inr, fun hc => hc.elim (fun heq => heq ▸ h) id⟩
  · rw [tableInsert_of_notMem h, (place.insertUnique_perm table m).mem_iff, mem_cons]

theorem nodup_items_tableInsert (hnodup : table.items.Nodup) :
    (tableInsert place table m).1.items.Nodup := by
  by_cases h : m ∈ table.items
  · rwa [tableInsert_of_mem h]
  · rw [tableInsert_of_notMem h, (place.insertUnique_perm table m).nodup_iff]
    exact nodup_cons.2 ⟨h, hnodup⟩

/-- Filling a table. -/
theorem foldl_tableInsert_spec (place : Placement CompactString) (ms : List CompactString)
    (hnodup : table.items.Nodup) :
    (ms.foldl (fun table m => (tableInsert place table m).1) table).items.Nodup ∧
      ∀ c, c ∈ (ms.foldl (fun table m => (tableInsert place table m).1) table).items ↔
        c ∈ ms ∨ c ∈ table.items := by
  induction ms generalizing table with
  | nil => exact ⟨hnodup, fun c => by simp⟩
  | cons m ms ih =>
    rw [foldl_cons]
    obtain ⟨hnodup', hmem⟩ := ih (nodup_items_tableInsert hnodup)
    refine ⟨hnodup', fun c => ?_⟩
    rw [hmem, mem_items_tableInsert, mem_cons]
    exact or_left_comm.trans or_assoc.symm

end Table

/-! ## What an encoding keeps -/

/-- An integer is written in at most twenty bytes. -/
theorem length_printI64_le (h : InI64 i) : (printI64 i).length ≤ 20 := by
  have hdec : ∀ n, n ≤ 2 ^ 63 → (toDecimal n).length ≤ 19 := by
    intro n hn
    rw [toDecimal]
    split
    · simp
    · rw [length_reverse, length_map, Nat.digits_length_le_iff (by norm_num)]
      omega
  obtain ⟨hlow, hhigh⟩ := h
  rw [printI64]
  split
  · have := hdec i.natAbs (by omega)
    rw [length_cons]
    omega
  · have := hdec i.toNat (by omega)
    omega

theorem parseInteger_printI64 (h : InI64 i) : parseInteger (printI64 i) = some i := by
  rw [parseInteger, if_pos (validUtf8_of_ascii fun _ hb => lt_of_mem_printI64 hb),
    parseI64_printI64 h]

theorem parseInteger_eq_some {m : Bytes} (h : parseInteger m = some i) : parseI64 m = some i := by
  rw [parseInteger] at h
  split at h
  · exact h
  · cases h

namespace SetEncoding

/-- The encoding tells the member apart by its bytes. -/
def Kept : SetEncoding → Bytes → Prop
  | intset _, m => (parseInteger m).isSome → plainSpelling m = true
  | listpack _, _ => True
  | hashtable _, m => validUtf8 m = true

instance (inner : SetEncoding) (m : Bytes) : Decidable (inner.Kept m) :=
  match inner with
  | intset _ => inferInstanceAs (Decidable ((parseInteger m).isSome → plainSpelling m = true))
  | listpack _ => inferInstanceAs (Decidable True)
  | hashtable _ => inferInstanceAs (Decidable (validUtf8 m = true))

/-- What the entries of a listpack look like. -/
def SmallMembers (entries : List Bytes) : Prop :=
  entries.length ≤ setListpackMaxEntries ∧ ∀ e ∈ entries, e.length ≤ setListpackMaxValueSize

/-- The encoding is one that insertions and removals make. -/
def WellFormed : SetEncoding → Prop
  | intset s => ∀ v ∈ s.data, InI64 v
  | listpack node => ∃ entries, node = encodeNodeEntries {} entries ∧ SmallMembers entries
  | hashtable _ => True

/-- The encoding takes the member without an upgrade. -/
def Fits : SetEncoding → Bytes → Prop
  | intset _, m => (parseInteger m).isSome
  | listpack node, m => lpLen node < setListpackMaxEntries ∧ m.length ≤ setListpackMaxValueSize
  | hashtable _, _ => True

variable {m : Bytes} {place : Placement CompactString}

theorem SmallMembers.shortChunk (h : SmallMembers entries) : ShortChunk entries := by
  refine ⟨fun e he => ?_, Nat.lt_of_le_of_lt h.1 (by decide)⟩
  exact (h.2 e he).trans (by decide)

theorem smallMembers_snoc : SmallMembers (entries ++ [m]) ↔
    SmallMembers entries ∧ entries.length < setListpackMaxEntries ∧
      m.length ≤ setListpackMaxValueSize := by
  simp only [SmallMembers, length_append, forall_mem_append, forall_mem_singleton]
  constructor
  · rintro ⟨hlen, hsize, hm⟩
    exact ⟨⟨Nat.le_of_succ_le hlen, hsize⟩, hlen, hm⟩
  · rintro ⟨⟨-, hsize⟩, hlen, hm⟩
    exact ⟨hlen, hsize, hm⟩

theorem iter_listpack (h : SmallMembers entries) :
    (listpack (encodeNodeEntries {} entries)).iter = entries :=
  (h.shortChunk.actsAsList {}).iter

theorem printI64_of_kept (hkept : (intset s).Kept m) (h : parseInteger m = some i) :
    printI64 i = m :=
  (printI64_of_parseI64 (parseInteger_eq_some h)).2 (hkept (by rw [h]; rfl))

/-- The integer a member of an integer set stands for. -/
theorem mem_iter_intset (hwf : (intset s).WellFormed) (hkept : (intset s).Kept m) :
    m ∈ (intset s).iter ↔ ∃ v, parseInteger m = some v ∧ v ∈ s.data := by
  constructor
  · intro hmem
    obtain ⟨v, hv, rfl⟩ := mem_map.1 hmem
    exact ⟨v, parseInteger_printI64 (hwf v hv), hv⟩
  · rintro ⟨v, hparse, hv⟩
    exact mem_map.2 ⟨v, hv, printI64_of_kept hkept hparse⟩

theorem mem_iter_hashtable (hkept : (hashtable table).Kept m) :
    m ∈ (hashtable table).iter ↔ setCompactFromBytes m ∈ table.items := by
  have hbytes : (setCompactFromBytes m).bytes = m := fromUtf8Lossy_of_valid hkept
  constructor
  · intro hmem
    obtain ⟨c, hc, rfl⟩ := mem_map.1 hmem
    rwa [setCompactFromBytes, ofUtf8Lossy_bytes]
  · intro hmem
    exact mem_map.2 ⟨_, hmem, hbytes⟩

/-! ## Membership, insertion and removal -/

section Members

variable (hwf : inner.WellFormed) (hkept : inner.Kept m)

include hwf hkept

/-- **Membership.** -/
theorem contains_iff : inner.contains m = true ↔ m ∈ inner.iter := by
  cases inner with
  | intset s =>
    rw [mem_iter_intset hwf hkept, contains, Option.any_eq_true]
    simp only [IntSet.contains_iff]
  | listpack node =>
    obtain ⟨entries, rfl, hsmall⟩ := hwf
    rw [iter_listpack hsmall, contains, lpSetContains_eq hsmall.shortChunk, decide_eq_true_iff]
  | hashtable table =>
    rw [mem_iter_hashtable hkept, contains, table_find_isSome]

theorem insert_of_mem (hmem : m ∈ inner.iter) :
    inner.insert place m (parseInteger m) = (inner, false) := by
  cases inner with
  | intset s =>
    obtain ⟨v, hparse, hv⟩ := (mem_iter_intset hwf hkept).1 hmem
    simp only [insert, hparse, IntSet.insert_of_mem hv]
  | listpack node =>
    obtain ⟨entries, rfl, hsmall⟩ := hwf
    rw [iter_listpack hsmall] at hmem
    simp only [insert, lpSetInsert, lpSetContains_eq hsmall.shortChunk, hmem, decide_true, if_true]
  | hashtable table =>
    simp only [insert, tableInsert_of_mem ((mem_iter_hashtable hkept).1 hmem)]

/-- **Insertion of a new member.** -/
theorem insert_of_notMem (place : Placement CompactString) (hfits : inner.Fits m)
    (habsent : m ∉ inner.iter) :
    ∃ inner', inner.insert place m (parseInteger m) = (inner', true) ∧ inner'.WellFormed ∧
      inner'.iter.Perm (m :: inner.iter) := by
  cases inner with
  | intset s =>
    obtain ⟨v, hparse⟩ := Option.isSome_iff_exists.1 hfits
    have hnew : v ∉ s.data := fun hv => habsent ((mem_iter_intset hwf hkept).2 ⟨v, hparse, hv⟩)
    obtain ⟨hinserted, hperm⟩ := IntSet.insert_of_notMem hnew
    refine ⟨intset (s.insert v).1, ?_, fun w hw => ?_, ?_⟩
    · simp only [insert, hparse, hinserted]
    · rcases mem_cons.1 (hperm.mem_iff.1 hw) with rfl | hw
      · exact inI64_of_parseI64 (parseInteger_eq_some hparse)
      · exact hwf w hw
    · have hmap := hperm.map printI64
      rwa [map_cons, printI64_of_kept hkept hparse] at hmap
  | listpack node =>
    obtain ⟨entries, rfl, hsmall⟩ := hwf
    have hacts := hsmall.shortChunk.actsAsList {}
    obtain ⟨hcount, hsize⟩ := hfits
    rw [hacts.len] at hcount
    rw [iter_listpack hsmall] at habsent
    have hsmall' : SmallMembers (entries ++ [m]) := smallMembers_snoc.2 ⟨hsmall, hcount, hsize⟩
    refine ⟨listpack (encodeNodeEntries {} (entries ++ [m])), ?_, ⟨_, rfl, hsmall'⟩, ?_⟩
    · simp only [insert, lpSetInsert, lpSetContains_eq hsmall.shortChunk, habsent, decide_false,
        Bool.false_eq_true, if_false, hacts.pushBack, encodeNodeEntries_encodeNodeEntries]
    · rw [iter_listpack hsmall', iter_listpack hsmall]
      exact perm_append_singleton m entries
  | hashtable table =>
    have hnew : setCompactFromBytes m ∉ table.items := mt (mem_iter_hashtable hkept).2 habsent
    have hbytes : (setCompactFromBytes m).bytes = m := fromUtf8Lossy_of_valid hkept
    refine ⟨hashtable (place.insertUnique table (setCompactFromBytes m)), ?_, trivial, ?_⟩
    · simp only [insert, tableInsert_of_notMem hnew]
    · have hmap := (place.insertUnique_perm table (setCompactFromBytes m)).map bytes
      rwa [map_cons, hbytes] at hmap

theorem remove_of_notMem (habsent : m ∉ inner.iter) : inner.remove m = (inner, false) := by
  cases inner with
  | intset s =>
    cases hparse : parseInteger m with
    | none => simp only [remove, hparse]
    | some v =>
      have hnew : v ∉ s.data := fun hv => habsent ((mem_iter_intset hwf hkept).2 ⟨v, hparse, hv⟩)
      simp only [remove, hparse, IntSet.remove_of_notMem hnew]
  | listpack node =>
    obtain ⟨entries, rfl, hsmall⟩ := hwf
    rw [iter_listpack hsmall] at habsent
    have hnone : entries.findIdx? (fun value => decide (value = m)) = none := by
      rw [findIdx?_eq_none_iff]
      intro e he
      simpa using fun h : e = m => habsent (h ▸ he)
    simp only [remove, lpSetRemove, (hsmall.shortChunk.actsAsList {}).iter, hnone]
  | hashtable table =>
    have hnew : ¬(table.find id (setCompactFromBytes m)).isSome = true :=
      mt (fun h => (mem_iter_hashtable hkept).2 (table_find_isSome.1 h)) habsent
    simp only [remove, tableRemove, if_neg hnew]

/-- **Removal of a member.** -/
theorem remove_of_mem (hnodup : inner.iter.Nodup) (hmem : m ∈ inner.iter) :
    ∃ inner', inner.remove m = (inner', true) ∧ inner'.WellFormed ∧
      inner.iter.Perm (m :: inner'.iter) := by
  cases inner with
  | intset s =>
    obtain ⟨v, hparse, hv⟩ := (mem_iter_intset hwf hkept).1 hmem
    obtain ⟨hremoved, hperm⟩ := IntSet.remove_of_mem hv
    refine ⟨intset (s.remove v).1, ?_, fun w hw => hwf w (hperm.mem_iff.2 (by simp [hw])), ?_⟩
    · simp only [remove, hparse, hremoved]
    · have hmap := hperm.map printI64
      rwa [map_cons, printI64_of_kept hkept hparse] at hmap
  | listpack node =>
    obtain ⟨entries, rfl, hsmall⟩ := hwf
    have hacts := hsmall.shortChunk.actsAsList {}
    rw [iter_listpack hsmall] at hmem ⊢
    obtain ⟨index, hindex⟩ : ∃ index, entries.findIdx? (fun value => decide (value = m)) =
        some index := by
      rw [← Option.isSome_iff_exists, findIdx?_isSome, any_eq_true]
      exact ⟨m, hmem, by simp⟩
    obtain ⟨hlt, hat, -⟩ := findIdx?_eq_some_iff_getElem.1 hindex
    have hsub : (entries.eraseIdx index).Sublist entries := eraseIdx_sublist entries index
    have hsmall' : SmallMembers (entries.eraseIdx index) :=
      ⟨hsub.length_le.trans hsmall.1, fun e he => hsmall.2 e (hsub.subset he)⟩
    refine ⟨listpack (encodeNodeEntries {} (entries.eraseIdx index)), ?_, ⟨_, rfl, hsmall'⟩, ?_⟩
    · simp only [remove, lpSetRemove, hacts.iter, hindex, hacts.deleteAt,
        encodeNodeEntries_encodeNodeEntries]
    · rw [iter_listpack hsmall']
      have hget : entries[index] = m := by simpa using hat
      have hperm := getElem_cons_eraseIdx_perm hlt
      rw [hget] at hperm
      exact hperm.symm
  | hashtable table =>
    have hitem : setCompactFromBytes m ∈ table.items := (mem_iter_hashtable hkept).1 hmem
    have hbytes : (setCompactFromBytes m).bytes = m := fromUtf8Lossy_of_valid hkept
    have hitems : table.items.Nodup := List.Nodup.of_map _ hnodup
    refine ⟨hashtable (table.remove id (setCompactFromBytes m)), ?_, trivial, ?_⟩
    · simp only [remove, tableRemove, if_pos (table_find_isSome.2 hitem)]
    · have herase : (table.remove id (setCompactFromBytes m)).items =
          table.items.erase (setCompactFromBytes m) := by
        rw [HashTable.items_remove, hitems.erase_eq_filter]
        refine filter_congr fun c _ => ?_
        rw [Bool.eq_iff_iff]
        simp
      have hmap := (perm_cons_erase hitem).map bytes
      rw [map_cons, hbytes, ← herase] at hmap
      exact hmap

end Members

/-! ## Upgrades -/

theorem upgradeIntsetToListpack_spec (hwf : (intset s).WellFormed)
    (hlen : s.len ≤ setListpackMaxEntries) :
    (intset s).upgradeIntsetToListpack = listpack (encodeNodeEntries {} (intset s).iter) ∧
      SmallMembers (intset s).iter := by
  have hsmall : SmallMembers (intset s).iter := by
    refine ⟨by rw [iter, length_map]; exact hlen, fun e he => ?_⟩
    obtain ⟨v, hv, rfl⟩ := mem_map.1 he
    exact (length_printI64_le (hwf v hv)).trans (by decide)
  refine ⟨?_, hsmall⟩
  have hfold := foldl_lpPushBack [] (intset s).iter hsmall.shortChunk.fit
  rw [iter, foldl_map] at hfold
  exact congrArg listpack hfold

/-- The table has the members, as text. -/
def HasText (table : HashTable CompactString) (ms : List Bytes) : Prop :=
  table.items.Nodup ∧ ∀ c, c ∈ table.items ↔ c ∈ ms.map setCompactFromBytes

theorem hasText_fill (place : Placement CompactString) (n : Nat) (ms : List Bytes) :
    HasText ((ms.map setCompactFromBytes).foldl (fun table m => (tableInsert place table m).1)
      (place.withCapacity n)) ms := by
  have hempty : (place.withCapacity n).items = [] := place.items_withCapacity n
  obtain ⟨hnodup, hmem⟩ := foldl_tableInsert_spec place (ms.map setCompactFromBytes)
    (by rw [hempty]; exact nodup_nil)
  refine ⟨hnodup, fun c => ?_⟩
  rw [hmem, hempty]
  simp

/-- Members that are text already are the members of the table. -/
theorem HasText.iter_perm {ms : List Bytes} (h : HasText table ms) (hnodup : ms.Nodup)
    (hvalid : ∀ m ∈ ms, validUtf8 m = true) : (hashtable table).iter.Perm ms := by
  have hbytes : (ms.map setCompactFromBytes).map bytes = ms := by
    rw [map_map]
    conv_rhs => rw [← map_id ms]
    exact map_congr_left fun m hm => fromUtf8Lossy_of_valid (hvalid m hm)
  have hperm : table.items.Perm (ms.map setCompactFromBytes) := by
    refine (perm_ext_iff_of_nodup h.1 ?_).2 h.2
    exact List.Nodup.of_map bytes (by rw [hbytes]; exact hnodup)
  have hmap := hperm.map bytes
  rwa [hbytes] at hmap

theorem upgradeIntsetToHashtable_spec (place : Placement CompactString) (s : IntSet) :
    ∃ table, (intset s).upgradeIntsetToHashtable place = hashtable table ∧
      HasText table (intset s).iter := by
  have htext : ((intset s).iter.map setCompactFromBytes) = s.data.map compactFromInt := by
    rw [iter, map_map]
    refine map_congr_left fun v _ => ext ?_
    exact fromUtf8Lossy_of_valid (compactFromInt v).valid
  have hfill := hasText_fill place s.len (intset s).iter
  rw [htext, foldl_map] at hfill
  exact ⟨_, rfl, hfill⟩

theorem upgradeListpackToHashtable_spec (place : Placement CompactString) (node : ListpackNode) :
    ∃ table, (listpack node).upgradeListpackToHashtable place = hashtable table ∧
      HasText table (listpack node).iter := by
  have hfill := hasText_fill place (lpLen node) (lpIter node)
  rw [foldl_map] at hfill
  exact ⟨_, rfl, hfill⟩

/-- **The encoding chosen for a new member**: the old one if it takes the member, a listpack for the
members of a small integer set, or a table. -/
inductive Chosen (m : Bytes) : SetEncoding → SetEncoding → Prop where
  | integers {s : IntSet} {v : Int} (hparse : parseInteger m = some v)
    (hroom : v ∈ s.data ∨ s.len + 1 ≤ intsetMaxEntries) : Chosen m (intset s) (intset s)
  | toListpack {s : IntSet} (hparse : parseInteger m = none)
    (hsmall : SmallMembers ((intset s).iter ++ [m])) :
    Chosen m (intset s) (listpack (encodeNodeEntries {} (intset s).iter))
  | entries {es : List Bytes} (hroom : m ∈ es ∨ SmallMembers (es ++ [m]))
    (hsmall : SmallMembers es) :
    Chosen m (listpack (encodeNodeEntries {} es)) (listpack (encodeNodeEntries {} es))
  | toTable {inner : SetEncoding} {table : HashTable CompactString}
    (hbig : ¬ SmallMembers (inner.iter ++ [m])) (htext : HasText table inner.iter) :
    Chosen m inner (hashtable table)
  | table {table : HashTable CompactString} : Chosen m (hashtable table) (hashtable table)

theorem not_smallMembers_snoc
    (h : setListpackMaxEntries < entries.length + 1 ∨ setListpackMaxValueSize < m.length) :
    ¬ SmallMembers (entries ++ [m]) := by
  rw [smallMembers_snoc]
  omega

theorem chosen_ensureEncodingForInsert (place : Placement CompactString) (hwf : inner.WellFormed) :
    Chosen m inner (inner.ensureEncodingForInsert place m (parseInteger m)) := by
  cases inner with
  | intset s =>
    have hlen : (intset s).iter.length = s.len := by rw [iter, length_map]; rfl
    unfold ensureEncodingForInsert
    dsimp only
    split
    · split
      · -- too many or too large for a listpack, or too many for an integer set
        rename_i hdirect
        obtain ⟨table, hupgrade, htext⟩ := upgradeIntsetToHashtable_spec place s
        rw [hupgrade]
        refine .toTable (not_smallMembers_snoc ?_) htext
        rw [hlen]
        rcases hdirect with ⟨-, hbig⟩ | hbig
        · simpa using hbig
        · exact .inl (lt_trans (by decide) hbig)
      rename_i hdirect
      cases hparse : parseInteger m with
      | none =>
        have hsize : s.len + 1 ≤ setListpackMaxEntries ∧ m.length ≤ setListpackMaxValueSize := by
          by_contra hbig
          exact hdirect (Or.inl ⟨by rw [hparse]; rfl, by simp; omega⟩)
        obtain ⟨hupgrade, hsmall⟩ := upgradeIntsetToListpack_spec hwf (by omega)
        rw [if_pos Option.isNone_none, hupgrade]
        exact .toListpack hparse
          (smallMembers_snoc.2 ⟨hsmall, by rw [hlen]; exact hsize.1, hsize.2⟩)
      | some v =>
        rw [if_neg (by simp)]
        exact .integers hparse (.inr (by omega))
    · -- an integer that is there already
      rename_i hinsert
      cases hparse : parseInteger m with
      | none => simp [hparse] at hinsert
      | some v =>
        exact .integers hparse (Or.inl (IntSet.contains_iff.1 (by simpa [hparse] using hinsert)))
  | listpack node =>
    obtain ⟨entries, rfl, hsmall⟩ := hwf
    unfold ensureEncodingForInsert
    dsimp only
    rw [lpSetContains_eq hsmall.shortChunk, (hsmall.shortChunk.actsAsList {}).len]
    split
    · rename_i hmem
      exact .entries (Or.inl (by simpa using hmem)) hsmall
    split
    · obtain ⟨table, hupgrade, htext⟩ :=
        upgradeListpackToHashtable_spec place (encodeNodeEntries {} entries)
      rw [hupgrade]
      refine .toTable (not_smallMembers_snoc ?_) htext
      rwa [iter_listpack hsmall]
    · exact .entries (.inr (smallMembers_snoc.2 ⟨hsmall, by omega, by omega⟩)) hsmall
  | hashtable table => exact .table

/-- The encoding chosen for an insertion has the same members and takes the new one. -/
theorem ensureEncodingForInsert_spec (place : Placement CompactString) (hwf : inner.WellFormed)
    (hnodup : inner.iter.Nodup)
    (hkept : ∀ x ∈ m :: inner.iter,
      (inner.ensureEncodingForInsert place m (parseInteger m)).Kept x) :
    ∃ inner', inner.ensureEncodingForInsert place m (parseInteger m) = inner' ∧
      inner'.WellFormed ∧ inner'.iter.Perm inner.iter ∧ (m ∈ inner'.iter ∨ inner'.Fits m) := by
  have hchosen := chosen_ensureEncodingForInsert place hwf (m := m)
  generalize inner.ensureEncodingForInsert place m (parseInteger m) = inner' at hchosen hkept
  refine ⟨inner', rfl, ?_⟩
  cases hchosen with
  | integers hparse _ => exact ⟨hwf, .refl _, Or.inr (by rw [Fits, hparse]; rfl)⟩
  | toListpack _ hsmall =>
    obtain ⟨hsmall', hlen, hm⟩ := smallMembers_snoc.1 hsmall
    refine ⟨⟨_, rfl, hsmall'⟩, by rw [iter_listpack hsmall'], Or.inr ⟨?_, hm⟩⟩
    rwa [(hsmall'.shortChunk.actsAsList {}).len]
  | entries hroom hsmall =>
    refine ⟨⟨_, rfl, hsmall⟩, .refl _, ?_⟩
    rw [iter_listpack hsmall]
    refine hroom.imp_right fun hroom => ?_
    obtain ⟨-, hlen, hm⟩ := smallMembers_snoc.1 hroom
    exact ⟨by rwa [(hsmall.shortChunk.actsAsList {}).len], hm⟩
  | toTable _ htext =>
    refine ⟨trivial, htext.iter_perm hnodup ?_, .inr trivial⟩
    exact fun x hx => hkept x (mem_cons_of_mem _ hx)
  | table => exact ⟨trivial, .refl _, .inr trivial⟩

end SetEncoding

/-! ## Set objects -/

namespace SetObject

/-- **The set object stands for the finite set.** -/
structure Refines (z : SetObject) (S : Finset Bytes) : Prop where
  wellFormed : z.inner.WellFormed
  nodup : z.iter.Nodup
  mem_iter : ∀ m, m ∈ z.iter ↔ m ∈ S
  len : z.len = S.card

theorem refines_new : Refines new ∅ where
  wellFormed := fun v hv => by cases hv
  nodup := nodup_nil
  mem_iter := fun m => by simp [iter, new, SetEncoding.iter]
  len := rfl

/-- One operation on a set. -/
inductive Op where
  | add (member : Bytes)
  | remove (member : Bytes)
  | contains (member : Bytes)

section Run

variable (place : Placement CompactString)

def step (z : SetObject) : Op → SetObject × Bool
  | .add m => z.add place m
  | .remove m => z.remove m
  | .contains m => (z, z.contains m)

/-- The same operation on a finite set of byte strings. -/
def finsetStep (S : Finset Bytes) : Op → Finset Bytes × Bool
  | .add m => (insert m S, decide (m ∉ S))
  | .remove m => (S.erase m, decide (m ∈ S))
  | .contains m => (S, decide (m ∈ S))

/-- The encoding that the operation meets keeps the bytes of the members, and there is room to count
one more. -/
def Safe (z : SetObject) : Op → Prop
  | .add m => z.len < 2 ^ 32 - 1 ∧ ∀ x ∈ m :: z.iter,
      (z.inner.ensureEncodingForInsert place m (parseInteger m)).Kept x
  | .remove m | .contains m => z.inner.Kept m

instance (z : SetObject) (op : Op) : Decidable (z.Safe place op) :=
  match op with
  | .add _ => inferInstanceAs (Decidable (_ ∧ ∀ x ∈ _ :: z.iter, _))
  | .remove m | .contains m => inferInstanceAs (Decidable (z.inner.Kept m))

def run (z : SetObject) : List Op → SetObject × List Bool
  | [] => (z, [])
  | op :: ops =>
    let (z, reply) := z.step place op
    let (z, replies) := run z ops
    (z, reply :: replies)

def finsetRun (S : Finset Bytes) : List Op → Finset Bytes × List Bool
  | [] => (S, [])
  | op :: ops =>
    let (S, reply) := finsetStep S op
    let (S, replies) := finsetRun S ops
    (S, reply :: replies)

def SafeRun (z : SetObject) : List Op → Prop
  | [] => True
  | op :: ops => z.Safe place op ∧ SafeRun (z.step place op).1 ops

instance decidableSafeRun : (z : SetObject) → (ops : List Op) → Decidable (z.SafeRun place ops)
  | _, [] => inferInstanceAs (Decidable True)
  | z, op :: ops =>
    have := decidableSafeRun (z.step place op).1 ops
    inferInstanceAs (Decidable (z.Safe place op ∧ SafeRun place (z.step place op).1 ops))

end Run

variable {place : Placement CompactString} {m : Bytes}

theorem Refines.contains (h : Refines z S) (hkept : z.inner.Kept m) :
    z.contains m = decide (m ∈ S) := by
  rw [Bool.eq_iff_iff, decide_eq_true_iff, ← h.mem_iter]
  exact contains_iff h.wellFormed hkept

/-- **Adding a member** to an encoding that keeps the bytes of all members. -/
theorem add_spec (hwf : z.inner.WellFormed) (hnodup : z.iter.Nodup) (hkept : ∀ x ∈ m :: z.iter,
      (z.inner.ensureEncodingForInsert place m (parseInteger m)).Kept x) :
    (z.add place m).2 = decide (m ∉ z.iter) ∧ (z.add place m).1.inner.WellFormed ∧
      (z.add place m).1.iter.Perm (if m ∈ z.iter then z.iter else m :: z.iter) ∧
      (z.add place m).1.len = if m ∈ z.iter then z.len else min (z.len + 1) (2 ^ 32 - 1) := by
  obtain ⟨inner, hensure, hwf', hperm, hfits⟩ :=
    ensureEncodingForInsert_spec place hwf hnodup hkept
  have hkept' : inner.Kept m := by rw [← hensure]; exact hkept m (by simp)
  by_cases hmem : m ∈ z.iter
  · have hinsert : inner.insert place m (parseInteger m) = (inner, false) :=
      insert_of_mem hwf' hkept' (hperm.mem_iff.2 hmem)
    have hadd : z.add place m = ({ inner, len := z.len }, false) := by
      simp only [SetObject.add, hensure, hinsert, Bool.false_eq_true, if_false]
    rw [hadd, if_pos hmem, if_pos hmem]
    exact ⟨by simp [hmem], hwf', hperm, rfl⟩
  have habsent : m ∉ inner.iter := mt hperm.mem_iff.1 hmem
  obtain ⟨inner', hinsert, hwf'', hperm'⟩ :=
    insert_of_notMem hwf' hkept' place (hfits.resolve_left habsent) habsent
  have hadd : z.add place m = ({ inner := inner', len := min (z.len + 1) (2 ^ 32 - 1) }, true) := by
    simp only [SetObject.add, hensure, hinsert, if_true]
  rw [hadd, if_neg hmem, if_neg hmem]
  exact ⟨by simp [hmem], hwf'', hperm'.trans (hperm.cons m), rfl⟩

theorem Refines.add (h : Refines z S) (hsafe : z.Safe place (.add m)) :
    (z.add place m).2 = decide (m ∉ S) ∧ Refines (z.add place m).1 (insert m S) := by
  obtain ⟨hlen, hkept⟩ := hsafe
  obtain ⟨hreply, hwf, hperm, hcount⟩ := add_spec h.wellFormed h.nodup hkept
  have hmem : m ∈ z.iter ↔ m ∈ S := h.mem_iter m
  rw [hreply]
  by_cases hS : m ∈ S
  · rw [if_pos (hmem.2 hS)] at hperm hcount
    rw [Finset.insert_eq_of_mem hS]
    refine ⟨by simp [hmem], hwf, hperm.nodup_iff.2 h.nodup, fun x => ?_, hcount.trans h.len⟩
    rw [hperm.mem_iff, h.mem_iter]
  · rw [if_neg (mt hmem.1 hS)] at hperm hcount
    refine ⟨by simp [hmem], hwf, ?_, fun x => ?_, ?_⟩
    · exact hperm.nodup_iff.2 (nodup_cons.2 ⟨mt hmem.1 hS, h.nodup⟩)
    · rw [hperm.mem_iff, mem_cons, h.mem_iter, Finset.mem_insert]
    · rw [hcount, Nat.min_eq_left (by omega), h.len, Finset.card_insert_of_notMem hS]

theorem Refines.remove (h : Refines z S) (hkept : z.inner.Kept m) :
    (z.remove m).2 = decide (m ∈ S) ∧ Refines (z.remove m).1 (S.erase m) := by
  by_cases hS : m ∈ S
  · obtain ⟨inner', hremove, hwf', hperm⟩ :=
      remove_of_mem h.wellFormed hkept h.nodup ((h.mem_iter m).2 hS)
    have hrun : z.remove m = ({ inner := inner', len := z.len - 1 }, true) := by
      simp only [SetObject.remove, hremove, if_true]
    obtain ⟨habsent, hnodup⟩ := nodup_cons.1 (hperm.nodup_iff.1 h.nodup)
    rw [hrun]
    refine ⟨by simp [hS], hwf', hnodup, fun x => ?_, ?_⟩
    · have hx : x ∈ z.iter ↔ x = m ∨ x ∈ inner'.iter := by
        rw [← mem_cons]
        exact hperm.mem_iff
      rw [Finset.mem_erase, ← h.mem_iter, hx]
      show x ∈ inner'.iter ↔ _
      constructor
      · intro hmem
        exact ⟨fun heq => habsent (heq ▸ hmem), .inr hmem⟩
      · rintro ⟨hne, hmem⟩
        exact hmem.resolve_left hne
    · show z.len - 1 = _
      rw [h.len, Finset.card_erase_of_mem hS]
  · have hremove := remove_of_notMem h.wellFormed hkept (mt (h.mem_iter m).1 hS)
    have hrun : z.remove m = (z, false) := by
      simp only [SetObject.remove, hremove, Bool.false_eq_true, if_false]
    rw [hrun, Finset.erase_eq_of_notMem hS]
    exact ⟨by simp [hS], h⟩

/-- **One operation** on a set object is the operation on the set it stands for. -/
theorem Refines.step (h : Refines z S) {op : Op} (hsafe : z.Safe place op) :
    (z.step place op).2 = (finsetStep S op).2 ∧
      Refines (z.step place op).1 (finsetStep S op).1 := by
  cases op with
  | add m => exact h.add hsafe
  | remove m => exact h.remove hsafe
  | contains m => exact ⟨h.contains hsafe, h⟩

/-- **A run** on a set object is the run on the set it stands for. -/
theorem Refines.run (h : Refines z S) {ops : List Op} (hsafe : z.SafeRun place ops) :
    (z.run place ops).2 = (finsetRun S ops).2 ∧ Refines (z.run place ops).1
    (finsetRun S ops).1 := by
  induction ops generalizing z S with
  | nil => exact ⟨rfl, h⟩
  | cons op ops ih =>
    obtain ⟨hreply, hnext⟩ := h.step hsafe.1
    obtain ⟨hreplies, hlast⟩ := ih hnext hsafe.2
    exact ⟨cons_eq_cons.2 ⟨hreply, hreplies⟩, hlast⟩

/-- **A set object is a set of byte strings** along every run that meets only encodings which keep
the bytes of its members: the replies are those of the finite set, and at the end the length is its
size, every member is yielded once with its bytes, and every string the encoding keeps is answered
for. -/
theorem set_refines_finset (place : Placement CompactString) (ops : List Op)
    (hsafe : new.SafeRun place ops) :
    (new.run place ops).2 = (finsetRun ∅ ops).2 ∧
      (new.run place ops).1.len = (finsetRun ∅ ops).1.card ∧
      (new.run place ops).1.iter.Nodup ∧
      (∀ m, m ∈ (new.run place ops).1.iter ↔ m ∈ (finsetRun ∅ ops).1) ∧
      ∀ m, (new.run place ops).1.inner.Kept m →
        (new.run place ops).1.contains m = decide (m ∈ (finsetRun ∅ ops).1) := by
  obtain ⟨hreplies, hlast⟩ := refines_new.run hsafe
  exact ⟨hreplies, hlast.len, hlast.nodup, hlast.mem_iter, fun m hm => hlast.contains hm⟩

/-- Two integers, a word that moves the set to a listpack, and a long word that moves it to a hash
table. -/
theorem set_refines_finset_upgrades :
    let ops := [.add [0x31], .add [0x32], .add [0x61], .remove [0x32],
      .add (List.replicate 65 0x62), .contains [0x31]]
    new.SafeRun (Placement.append _) ops ∧
      (new.run (Placement.append _) ops).2 = (finsetRun ∅ ops).2 :=
  have hsafe := by decide +kernel
  ⟨hsafe, (set_refines_finset (Placement.append _) _ hsafe).1⟩

/-- After `add "5"`, `contains "+5"` is true. A string of 65 bytes `0xFF` goes to the hash table and
is yielded as 65 replacement characters. -/
theorem set_refines_finset_fails : (¬ ∀ place ops, (new.run place ops).2 = (finsetRun ∅ ops).2) ∧
      ¬ ∀ place ops m, m ∈ (new.run place ops).1.iter ↔ m ∈ (finsetRun ∅ ops).1 := by
  constructor
  · intro h
    have hrun := h (Placement.append _) [.add [0x35], .contains [0x2b, 0x35]]
    exact absurd hrun (by decide +kernel)
  · intro h
    have hrun := h (Placement.append _) [.add (List.replicate 65 0xFF)] (List.replicate 65 0xFF)
    exact absurd hrun (by decide +kernel)

end SetObject

end Senko
