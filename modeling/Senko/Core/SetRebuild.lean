import Senko.Core.SetRefinement

/-!
# Senko — filling a set

`SADD` with many members, `RESTORE` and the `STORE` commands fill a new set with a list of members.
The set then has exactly these members unless the encodings it passes through lose one
(`perm_iter_addAll`): as long as it is a set of integers, a member is only kept if it is spelled as
the integer is printed, and once it is a table, all members have to be UTF-8.
-/

namespace Senko

open List

variable {inner : SetEncoding} {m x : Bytes} {place : Placement CompactString} {s : IntSet}
  {z : SetObject} {ms : List Bytes}

namespace SetEncoding

/-! ## One insertion, of any member -/

theorem insert_listpack (place : Placement CompactString) {es : List Bytes}
    (hsmall : SmallMembers es) (hroom : m ∈ es ∨ SmallMembers (es ++ [m])) (i : Option Int) :
    ∃ es', ((listpack (encodeNodeEntries {} es)).insert place m i).1 =
        listpack (encodeNodeEntries {} es') ∧
      SmallMembers es' ∧ ∀ x, x ∈ es' → x ∈ es ∨ x = m := by
  by_cases hmem : m ∈ es
  · refine ⟨es, ?_, hsmall, fun x => .inl⟩
    simp only [insert, lpSetInsert, lpSetContains_eq hsmall.shortChunk, hmem, decide_true, if_true]
  · refine ⟨es ++ [m], ?_, hroom.resolve_left hmem, fun x hx => ?_⟩
    · simp only [insert, lpSetInsert, lpSetContains_eq hsmall.shortChunk, hmem, decide_false,
        Bool.false_eq_true, if_false, (hsmall.shortChunk.actsAsList {}).pushBack,
        encodeNodeEntries_encodeNodeEntries]
    · simpa using hx

theorem insert_intset {v : Int} :
    ((intset s).insert place m (some v)).1 = intset (s.insert v).1 := rfl

theorem mem_data_insert {v w : Int} : w ∈ (s.insert v).1.data ↔ w = v ∨ w ∈ s.data := by
  by_cases h : v ∈ s.data
  · rw [IntSet.insert_of_mem h]
    exact ⟨.inr, fun hw => hw.elim (fun heq => heq ▸ h) id⟩
  · rw [(IntSet.insert_of_notMem h).2.mem_iff, mem_cons]

theorem len_insert_le (s : IntSet) (v : Int) : (s.insert v).1.len ≤ s.len + 1 := by
  by_cases h : v ∈ s.data
  · rw [IntSet.insert_of_mem h]
    exact Nat.le_succ _
  · exact (IntSet.insert_of_notMem h).2.length_eq.le

/-- The members of an integer set are spelled plainly. -/
theorem plainSpelling_of_mem_intset (hwf : (intset s).WellFormed) (hx : x ∈ (intset s).iter) :
    plainSpelling x = true ∧ ∃ v ∈ s.data, parseInteger x = some v := by
  obtain ⟨v, hv, rfl⟩ := mem_map.1 hx
  exact ⟨plainSpelling_printI64 (hwf v hv), v, hv, parseInteger_printI64 (hwf v hv)⟩

theorem SmallMembers.perm {es es' : List Bytes} (h : SmallMembers es) (hperm : es.Perm es') :
    SmallMembers es' :=
  ⟨hperm.length_eq ▸ h.1, fun e he => h.2 e (hperm.mem_iff.2 he)⟩

end SetEncoding

namespace SetObject

open SetEncoding

theorem inner_add (place : Placement CompactString) (z : SetObject) (m : Bytes) :
    (z.add place m).1.inner =
      ((z.inner.ensureEncodingForInsert place m (parseInteger m)).insert place m
        (parseInteger m)).1 := rfl

/-- **An added member, whichever it is**, leaves a well-formed encoding. Of the members afterwards,
those that are ASCII and no plainly spelled integers were there before or are the added one. -/
theorem add_any (place : Placement CompactString) (hwf : z.inner.WellFormed) (m : Bytes) :
    (z.add place m).1.inner.WellFormed ∧
      ∀ x, plainSpelling x = false → (∀ b ∈ x, b < 0x80) → x ∈ (z.add place m).1.iter →
        x ∈ z.iter ∨ x = m := by
  rw [iter, inner_add, iter]
  have hchosen := chosen_ensureEncodingForInsert place hwf (m := m)
  generalize z.inner.ensureEncodingForInsert place m (parseInteger m) = inner at hchosen
  generalize z.inner = old at hchosen hwf
  -- text that is ASCII was not changed by the lossy decoding
  have htext : ∀ {x y : Bytes}, (∀ b ∈ x, b < 0x80) →
      (setCompactFromBytes y).bytes = x → y = x := by
    rintro x y hascii rfl
    exact (eq_of_fromUtf8Lossy_ascii hascii).symm
  have htable : ∀ {table : HashTable CompactString} {x : Bytes}, (∀ b ∈ x, b < 0x80) →
      x ∈ ((hashtable table).insert place m (parseInteger m)).1.iter →
      x = m ∨ x ∈ (hashtable table).iter := by
    intro table x hascii hx
    obtain ⟨c, hc, rfl⟩ := mem_map.1 hx
    rcases mem_items_tableInsert.1 hc with rfl | hc
    · exact .inl (htext hascii rfl).symm
    · exact .inr (mem_map.2 ⟨c, hc, rfl⟩)
  cases hchosen with
  | @integers s v hparse _ =>
    rw [hparse, insert_intset]
    have hwf' : (intset (s.insert v).1).WellFormed := by
      intro w hw
      rcases mem_data_insert.1 hw with rfl | hw
      · exact inI64_of_parseI64 (parseInteger_eq_some hparse)
      · exact hwf w hw
    refine ⟨hwf', fun x hplain _ hx => ?_⟩
    rw [(plainSpelling_of_mem_intset hwf' hx).1] at hplain
    cases hplain
  | toListpack _ hsmall =>
    have hsmall' := (smallMembers_snoc.1 hsmall).1
    obtain ⟨es, hes, hsmall₁, hmem⟩ :=
      insert_listpack place hsmall' (.inr hsmall) (parseInteger m)
    rw [hes, iter_listpack hsmall₁]
    exact ⟨⟨es, rfl, hsmall₁⟩, fun x _ _ hx => hmem x hx⟩
  | entries hroom hsmall =>
    obtain ⟨es, hes, hsmall₁, hmem⟩ := insert_listpack place hsmall hroom (parseInteger m)
    rw [hes, iter_listpack hsmall₁, iter_listpack hsmall]
    exact ⟨⟨es, rfl, hsmall₁⟩, fun x _ _ hx => hmem x hx⟩
  | toTable _ hold =>
    refine ⟨trivial, fun x _ hascii hx => ?_⟩
    rcases htable hascii hx with rfl | hx
    · exact .inr rfl
    · obtain ⟨c, hc, rfl⟩ := mem_map.1 hx
      obtain ⟨y, hy, rfl⟩ := mem_map.1 ((hold.2 c).1 hc)
      exact .inl (htext hascii rfl ▸ hy)
  | table => exact ⟨trivial, fun x _ hascii hx => (htable hascii hx).symm⟩

/-! ## Filling -/

def addAll (place : Placement CompactString) (z : SetObject) (ms : List Bytes) : SetObject :=
  ms.foldl (fun z m => (z.add place m).1) z

theorem addAll_append (z : SetObject) (ms ms' : List Bytes) :
    z.addAll place (ms ++ ms') = (z.addAll place ms).addAll place ms' := foldl_append

theorem addAll_snoc (z : SetObject) (ms : List Bytes) (m : Bytes) :
    z.addAll place (ms ++ [m]) = ((z.addAll place ms).add place m).1 := addAll_append z ms [m]

theorem addAll_any (place : Placement CompactString) (hwf : z.inner.WellFormed) (ms : List Bytes) :
    (z.addAll place ms).inner.WellFormed ∧
      ∀ x, plainSpelling x = false → (∀ b ∈ x, b < 0x80) → x ∈ (z.addAll place ms).iter →
        x ∈ z.iter ∨ x ∈ ms := by
  induction ms generalizing z with
  | nil => exact ⟨hwf, fun x _ _ hx => .inl hx⟩
  | cons m ms ih =>
    obtain ⟨hwf₁, hmem₁⟩ := add_any place hwf m
    obtain ⟨hwf', hmem⟩ := ih hwf₁
    refine ⟨hwf', fun x hplain hascii hx => ?_⟩
    rcases hmem x hplain hascii hx with hx | hx
    · rcases hmem₁ x hplain hascii hx with hx | rfl
      · exact .inl hx
      · exact .inr mem_cons_self
    · exact .inr (mem_cons_of_mem m hx)

theorem wellFormed_new : (new).inner.WellFormed := refines_new.wellFormed

/-- Adding an integer to a set of integers that has room for it. -/
theorem add_integer {v : Int} (hz : z.inner = intset s)
    (hparse : parseInteger m = some v) (hroom : v ∈ s.data ∨ s.len + 1 ≤ intsetMaxEntries) :
    (z.add place m).1.inner = intset (s.insert v).1 := by
  have hensure : (intset s).ensureEncodingForInsert place m (some v) = intset s := by
    unfold ensureEncodingForInsert
    dsimp only
    split
    · rename_i hinsert
      have hnew : v ∉ s.data := fun hv => by simp [IntSet.contains_iff.2 hv] at hinsert
      have hlen := hroom.resolve_left hnew
      rw [if_neg (by simp; omega), if_neg (by simp)]
    · rfl
  rw [inner_add, hz, hparse, hensure, insert_intset]

/-- A set that is filled with a few integers is a set of integers. -/
theorem addAll_integers (place : Placement CompactString)
    (hints : ∀ m ∈ ms, (parseInteger m).isSome = true)
    (hlen : ms.length ≤ intsetMaxEntries) :
    ∃ s, (new.addAll place ms).inner = intset s ∧ s.len ≤ ms.length ∧
      ∀ m ∈ ms, ∀ v, parseInteger m = some v → v ∈ s.data := by
  induction ms using List.reverseRecOn with
  | nil => exact ⟨{}, rfl, Nat.le_refl 0, fun m hm => by cases hm⟩
  | append_singleton ms m ih =>
    rw [length_append, length_singleton] at hlen
    obtain ⟨s, hinner, hs, hmem⟩ := ih (fun m hm => hints m (by simp [hm])) (by omega)
    obtain ⟨v, hv⟩ := Option.isSome_iff_exists.1 (hints m (by simp))
    have hle := len_insert_le s v
    refine ⟨(s.insert v).1, ?_, ?_, fun m' hm' w hw => ?_⟩
    · rw [addAll_snoc, add_integer hinner hv (Or.inr (by omega))]
    · rw [length_append, length_singleton]
      omega
    · rw [mem_data_insert]
      rcases mem_append.1 hm' with hm' | hm'
      · exact .inr (hmem m' hm' w hw)
      · rw [mem_singleton.1 hm', hv] at hw
        exact .inl (Option.some.inj hw).symm

/-- **The members a new set keeps**, in the order they are added. The first integers, until there
are 512 of them or another member comes, are spelled plainly, and so is the next one if it is a
number that was there before. All members are UTF-8, or they are few and short. -/
structure KeptInOrder (ms : List Bytes) : Prop where
  plain : ∀ pre m post, ms = pre ++ m :: post → (∀ x ∈ pre, (parseInteger x).isSome = true) →
    (parseInteger m).isSome = true →
    (pre.length < intsetMaxEntries ∨
      pre.length = intsetMaxEntries ∧ ∃ x ∈ pre, parseInteger x = parseInteger m) →
    plainSpelling m = true
  text : (∀ m ∈ ms, validUtf8 m = true) ∨ SmallMembers ms

theorem KeptInOrder.of_snoc (h : KeptInOrder (ms ++ [m])) : KeptInOrder ms where
  plain pre m' post hms := h.plain pre m' (post ++ [m]) (by rw [hms]; simp)
  text := h.text.imp (fun hvalid m' hm' => hvalid m' (by simp [hm'])) fun hsmall =>
    (smallMembers_snoc.1 hsmall).1

/-- What is true of a set that was filled without a loss. -/
structure Filled (ms : List Bytes) (z : SetObject) : Prop where
  wellFormed : z.inner.WellFormed
  perm : z.iter.Perm ms
  integers : ∀ s, z.inner = intset s → ms.length ≤ intsetMaxEntries
  table : ∀ t, z.inner = hashtable t → ¬ SmallMembers ms

theorem Filled.kept (place : Placement CompactString) (h : Filled ms z)
    (hkept : KeptInOrder (ms ++ [m])) :
    ∀ x ∈ m :: z.iter, (z.inner.ensureEncodingForInsert place m (parseInteger m)).Kept x := by
  have hchosen := chosen_ensureEncodingForInsert place h.wellFormed (m := m)
  generalize hinner' : z.inner.ensureEncodingForInsert place m (parseInteger m) = inner' at hchosen
  have hvalid : (∀ x ∈ ms ++ [m], validUtf8 x = true) → ∀ x ∈ m :: z.iter, validUtf8 x = true := by
    intro hvalid
    exact forall_mem_cons.2 ⟨hvalid m (by simp), fun x hx =>
      hvalid x (mem_append_left _ (h.perm.mem_iff.1 hx))⟩
  generalize hinner : z.inner = inner at hchosen
  have hiter : z.iter = inner.iter := by rw [← hinner]; rfl
  have hwf : inner.WellFormed := hinner ▸ h.wellFormed
  cases hchosen with
  | @integers s v hparse hroom =>
    intro x hx hint
    have hlen : s.len = ms.length := by
      rw [← h.perm.length_eq, hiter, SetEncoding.iter, length_map]
      rfl
    rcases mem_cons.1 hx with rfl | hx
    · -- the new member is one of the first integers
      refine hkept.plain ms x [] rfl (fun y hy => ?_) hint ?_
      · rw [← h.perm.mem_iff, hiter] at hy
        obtain ⟨-, w, -, hw⟩ := plainSpelling_of_mem_intset hwf hy
        rw [hw]
        rfl
      · rcases hroom with hv | hroom
        · refine (Nat.lt_or_eq_of_le (h.integers s hinner)).imp_right fun heq => ⟨heq, ?_⟩
          refine ⟨printI64 v, ?_, by rw [parseInteger_printI64 (hwf v hv), hparse]⟩
          rw [← h.perm.mem_iff, hiter]
          exact mem_map.2 ⟨v, hv, rfl⟩
        · exact .inl (by omega)
    · rw [hiter] at hx
      exact (plainSpelling_of_mem_intset hwf hx).1
  | toListpack | entries => exact fun _ _ => trivial
  | toTable hbig _ =>
    refine hvalid (hkept.text.resolve_right fun hsmall => hbig ?_)
    rw [← hiter]
    exact hsmall.perm (h.perm.symm.append_right [m])
  | table =>
    exact hvalid (hkept.text.resolve_right fun hsmall =>
      h.table _ hinner (smallMembers_snoc.1 hsmall).1)

theorem Filled.add (h : Filled ms z) (hkept : KeptInOrder (ms ++ [m]))
    (hnodup : (ms ++ [m]).Nodup) : Filled (ms ++ [m]) (z.add place m).1 := by
  have hms : ms.Nodup := (nodup_append.1 hnodup).1
  have hnew : m ∉ z.iter := by
    rw [h.perm.mem_iff]
    exact fun hm => (disjoint_of_nodup_append hnodup) hm (by simp)
  have hfits := h.kept place hkept
  obtain ⟨-, hwf, hperm, -⟩ := add_spec h.wellFormed (h.perm.nodup_iff.2 hms) hfits
  rw [if_neg hnew] at hperm
  have hperm' : (z.add place m).1.iter.Perm (ms ++ [m]) :=
    hperm.trans ((h.perm.cons m).trans (perm_append_singleton m ms).symm)
  have hchosen := chosen_ensureEncodingForInsert place h.wellFormed (m := m)
  have hinner := inner_add place z m
  generalize z.inner.ensureEncodingForInsert place m (parseInteger m) = inner'
    at hchosen hinner hfits
  generalize hold : z.inner = inner at hchosen
  have hiter : z.iter = inner.iter := by rw [← hold]; rfl
  have hwf' : inner.WellFormed := hold ▸ h.wellFormed
  refine ⟨hwf, hperm', fun s hs => ?_, fun t ht => ?_⟩
  · rw [hs] at hinner
    cases hchosen with
    | @integers s' v hparse hroom =>
      -- the number is new, because its plain spelling is the member
      have hv : v ∉ s'.data := by
        intro hv
        refine hnew (hiter ▸ (mem_iter_intset hwf' (hfits m (by simp))).2 ⟨v, hparse, hv⟩)
      have hlen := hroom.resolve_left hv
      rw [length_append, ← h.perm.length_eq, hiter, SetEncoding.iter, length_map]
      exact hlen
    | _ => cases hinner
  · rw [ht] at hinner
    cases hchosen with
    | integers hparse _ =>
      rw [hparse] at hinner
      cases hinner
    | toListpack | entries => cases hinner
    | toTable hbig _ =>
      intro hsmall
      rw [← hiter] at hbig
      exact hbig (hsmall.perm (h.perm.symm.append_right [m]))
    | table => exact fun hsmall => h.table _ hold (smallMembers_snoc.1 hsmall).1

theorem filled_addAll (hkept : KeptInOrder ms) (hnodup : ms.Nodup) :
    Filled ms (new.addAll place ms) := by
  induction ms using List.reverseRecOn with
  | nil => exact ⟨wellFormed_new, .nil, fun _ _ => Nat.zero_le _, fun t ht => by cases ht⟩
  | append_singleton ms m ih =>
    rw [addAll_snoc]
    exact (ih hkept.of_snoc (nodup_append.1 hnodup).1).add hkept hnodup

/-- A number among the first integers that is not spelled plainly is not among the members. -/
theorem notMem_iter_addAll (place : Placement CompactString) {pre post : List Bytes} {v : Int}
    (hints : ∀ x ∈ pre, (parseInteger x).isSome = true) (hparse : parseInteger m = some v)
    (hroom : pre.length < intsetMaxEntries ∨
      pre.length = intsetMaxEntries ∧ ∃ x ∈ pre, parseInteger x = parseInteger m)
    (hplain : plainSpelling m = false) (hpost : m ∉ post) :
    m ∉ (new.addAll place (pre ++ m :: post)).iter := by
  obtain ⟨s, hinner, hlen, hmem⟩ := addAll_integers place hints (by omega)
  have hadded : ((new.addAll place pre).add place m).1.inner = intset (s.insert v).1 := by
    refine add_integer hinner hparse ?_
    rcases hroom with hroom | ⟨-, x, hx, heq⟩
    · exact .inr (by omega)
    · exact .inl (hmem x hx v (heq.trans hparse))
  have hwf := (addAll_any place wellFormed_new (pre ++ [m])).1
  rw [addAll_snoc, hadded] at hwf
  have hascii : ∀ b ∈ m, b < 0x80 :=
    fun b hb => lt_of_mem_of_parseI64 (parseInteger_eq_some hparse) hb
  intro hm
  have hsplit : pre ++ m :: post = (pre ++ [m]) ++ post := by simp
  rw [hsplit, addAll_append, addAll_snoc] at hm
  obtain ⟨-, hback⟩ := addAll_any place
    (z := ((new.addAll place pre).add place m).1) (by rw [hadded]; exact hwf) post
  have hin := (hback m hplain hascii hm).resolve_right hpost
  rw [iter, hadded] at hin
  rw [(plainSpelling_of_mem_intset hwf hin).1] at hplain
  cases hplain

/-- **A new set has the members it is filled with** if and only if these are kept in order. -/
theorem perm_iter_addAll (hnodup : ms.Nodup) :
    (new.addAll place ms).iter.Perm ms ↔ KeptInOrder ms := by
  refine ⟨fun hperm => ⟨?_, ?_⟩, fun hkept => (filled_addAll hkept hnodup).perm⟩
  · rintro pre m post rfl hints hint hroom
    obtain ⟨v, hv⟩ := Option.isSome_iff_exists.1 hint
    by_contra hplain
    have hpost : m ∉ post := (nodup_cons.1 (nodup_append.1 hnodup).2.1).1
    refine notMem_iter_addAll place hints hv hroom ?_ hpost (hperm.mem_iff.2 (by simp))
    simpa using hplain
  · have hwf := (addAll_any place wellFormed_new ms).1
    rw [iter] at hperm
    cases hinner : (new.addAll place ms).inner with
    | intset s =>
      rw [hinner] at hperm
      refine .inl fun m hm => ?_
      obtain ⟨v, -, rfl⟩ := mem_map.1 (hperm.mem_iff.2 hm)
      exact (compactFromInt v).valid
    | listpack node =>
      rw [hinner] at hperm hwf
      obtain ⟨es, rfl, hsmall⟩ := hwf
      rw [iter_listpack hsmall] at hperm
      exact .inr (hsmall.perm hperm)
    | hashtable table =>
      rw [hinner] at hperm
      refine .inl fun m hm => ?_
      obtain ⟨c, -, rfl⟩ := mem_map.1 (hperm.mem_iff.2 hm)
      exact c.valid

end SetObject

end Senko
