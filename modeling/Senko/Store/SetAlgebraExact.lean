import Senko.Store.SetMembers

/-!
# Senko — set algebra is exact where members are kept apart

The result of each operation on a list of sets is compared with the mathematical operation. The
strategy decides what can go wrong (`KeepsApart`): nothing with sorted integers, an answer for
another spelling with hash sets, and a respelling with bitmaps. Under each strategy the result is
exact if and only if no member is taken for another one (`compute_exact_iff`).
-/

namespace Senko

open List RoaringSplit SetObject

/-! ## The mathematical operations -/

/-- The members of a set. A missing key is the empty set. -/
def members (set : Option SetObject) : List Bytes := (set.map SetObject.iter).getD []

inductive SetOp where
  | diff
  | inter
  | union
deriving DecidableEq, Repr

variable {p : Option SetObject → Prop} {α : Type} {result : List Bytes} {current : List Int}
  {sets rest : List (Option SetObject)} {first z : SetObject} {m r : Bytes} {zs : List SetObject}
  {v : Int}

namespace SetOp

/-- The difference, the intersection or the union. -/
def Mem : SetOp → List (Option SetObject) → Bytes → Prop
  | diff, sets, m => ∃ first rest, sets = first :: rest ∧ m ∈ members first ∧
      ∀ set ∈ rest, m ∉ members set
  | inter, sets, m => sets ≠ [] ∧ ∀ set ∈ sets, m ∈ members set
  | union, sets, m => ∃ set ∈ sets, m ∈ members set

/-- **The members of a result are those of the operation**, each once. -/
def Exact (op : SetOp) (sets : List (Option SetObject)) (result : List Bytes) : Prop :=
  result.Nodup ∧ ∀ m, m ∈ result ↔ op.Mem sets m

def compute (bytesPlace : Placement Bytes) (textPlace : Placement CompactString) :
    SetOp → List (Option SetObject) → Option (List Bytes)
  | diff, sets => computeSdiff bytesPlace textPlace sets
  | inter, sets => computeSinter textPlace sets none
  | union, sets => computeSunion bytesPlace textPlace sets

/-- Some member of the set has this respelling. -/
def Respelled (set : Option SetObject) (r : Bytes) : Prop := ∃ m ∈ members set, respell m = r

/-- The sets of an intersection, the smallest first. -/
def bySize (sets : List (Option SetObject)) : List SetObject :=
  sets.reduceOption.insertionSort fun a b => a.len ≤ b.len

/-- The members among which a strategy chooses, in the order of its tables: those of the first set
of a difference, of the smallest set of an intersection, of all the sets of a union. -/
def listing (bytesPlace : Placement Bytes) (textPlace : Placement CompactString) :
    SetOp → AlgebraStrategy → List (Option SetObject) → List Bytes
  | diff, .roaring, sets => vec sets.head?.join
  | diff, _, sets => (hashSetCollect bytesPlace (members sets.head?.join)).items
  | inter, .roaring, sets => vec sets.reduceOption.head?
  | inter, _, sets => members (bySize sets).head?
  | union, .roaring, sets => roaringUnion textPlace sets
  | union, _, sets => (hashSetCollect bytesPlace (sets.reduceOption.flatMap iter)).items
where
  vec (set : Option SetObject) : List Bytes :=
    (set.map fun z => roaringAndHashToVec (splitToRoaring textPlace z)).getD []

/-- The order in which a strategy gives a result. The merges of sorted integers are not followed:
integers can be stored in every order. -/
def Lists (bytesPlace : Placement Bytes) (textPlace : Placement CompactString) (op : SetOp)
    (strategy : AlgebraStrategy) (sets : List (Option SetObject)) (result : List Bytes) : Prop :=
  strategy = .intsetSorted ∨ result.Sublist (op.listing bytesPlace textPlace strategy sets)

/-- **No member is taken for another one.** In a hash set, a member for which another set answers
has to stand in such a set with its own bytes. In a bitmap, the members of the result have to be
spelled as the bitmap spells them, and other members must not have the same respelling. -/
def KeepsApart : SetOp → AlgebraStrategy → List (Option SetObject) → Prop
  | _, .intsetSorted, _ => True
  | diff, .smallHash, sets | diff, .largeHash, sets =>
    ∀ first rest, sets = some first :: rest → ∀ m ∈ first.iter,
      (∃ z, some z ∈ rest ∧ z.contains m = true) → ∃ z, some z ∈ rest ∧ m ∈ z.iter
  | inter, .smallHash, sets | inter, .largeHash, sets =>
    none ∉ sets → ∀ first rest, bySize sets = first :: rest → ∀ m ∈ first.iter,
      (∀ z ∈ rest, z.contains m = true) → ∀ z ∈ rest, m ∈ z.iter
  | union, .smallHash, _ | union, .largeHash, _ => True
  | diff, .roaring, sets =>
    ∀ m, diff.Mem sets m → respell m = m ∧ ∀ set ∈ sets.tail, ¬Respelled set m
  | inter, .roaring, sets =>
    (∀ m, inter.Mem sets m → respell m = m) ∧
      ∀ r, (∀ set ∈ sets, Respelled set r) → ∀ set ∈ sets, r ∈ members set
  | union, .roaring, sets => ∀ m, union.Mem sets m → respell m = m

section Listing

variable (bytesPlace : Placement Bytes) (textPlace : Placement CompactString)

theorem nodup_listing (hsound : ∀ z, some z ∈ sets → z.Sound) (op : SetOp)
    (strategy : AlgebraStrategy) : (op.listing bytesPlace textPlace strategy sets).Nodup := by
  have hvec : ∀ set, (listing.vec textPlace set).Nodup := by
    intro set
    cases set with
    | none => exact nodup_nil
    | some z => exact (splitToRoaring_spec textPlace z).1.nodup_vec
  have hsmallest : (members (bySize sets).head?).Nodup := by
    rcases hsize : bySize sets with _ | ⟨z, zs⟩
    · exact nodup_nil
    · have hz : z ∈ sets.reduceOption := (perm_insertionSort _ _).mem_iff.1
        (hsize ▸ mem_cons_self : z ∈ bySize sets)
      exact (hsound z (reduceOption_mem_iff.1 hz)).nodup
  have hunion : (roaringUnion textPlace sets).Nodup :=
    ((canonical_new textPlace).foldl_extend textPlace
      (sets.reduceOption.map (splitToRoaring textPlace)) (by
        rw [forall_mem_map]
        exact fun z _ => (splitToRoaring_spec textPlace z).1)).1.nodup_vec
  have hhash : ∀ ms, (hashSetCollect bytesPlace ms).items.Nodup := fun ms =>
    (hashSetCollect_spec bytesPlace ms).1
  cases op <;> cases strategy
  case diff.roaring => exact hvec _
  case inter.roaring => exact hvec _
  case union.roaring => exact hunion
  all_goals first | exact hhash _ | exact hsmallest

theorem eq_filter_of_sublist {l sub : List Bytes} (hnodup : l.Nodup) (h : sub.Sublist l) :
    sub = l.filter fun a => decide (a ∈ sub) := by
  induction h with
  | slnil => rfl
  | @cons sub l a h ih =>
    obtain ⟨ha, hnodup⟩ := nodup_cons.1 hnodup
    rw [filter_cons_of_neg (by simpa using mt (h.subset ·) ha)]
    exact ih hnodup
  | @cons_cons sub l a h ih =>
    obtain ⟨ha, hnodup⟩ := nodup_cons.1 hnodup
    rw [filter_cons_of_pos (by simp)]
    congr 1
    refine (ih hnodup).trans (filter_congr fun b hb => ?_)
    have hne : b ≠ a := fun heq => ha (heq ▸ hb)
    simp [hne]

variable {bytesPlace textPlace} in
/-- **A strategy lists a result in one way**, unless it merges integers. -/
theorem Lists.unique {op : SetOp} {strategy : AlgebraStrategy} {result' : List Bytes}
    (hsound : ∀ z, some z ∈ sets → z.Sound)
    (h : op.Lists bytesPlace textPlace strategy sets result) (hexact : op.Exact sets result)
    (h' : op.Lists bytesPlace textPlace strategy sets result') (hexact' : op.Exact sets result') :
    strategy = .intsetSorted ∨ result = result' := by
  rcases h with h | h
  · exact .inl h
  rcases h' with h' | h'
  · exact .inl h'
  have hnodup := nodup_listing bytesPlace textPlace hsound op strategy
  right
  rw [eq_filter_of_sublist hnodup h, eq_filter_of_sublist hnodup h']
  exact filter_congr fun m _ => decide_eq_decide.2 ((hexact.2 m).trans (hexact'.2 m).symm)

end Listing

/-- What is said of missing sets may be said of the others only. -/
theorem forall_reduceOption (hnone : none ∈ sets → p none) :
    (∀ z ∈ sets.reduceOption, p (some z)) ↔ ∀ set ∈ sets, p set := by
  constructor
  · intro hall set hset
    cases set with
    | none => exact hnone hset
    | some z => exact hall z (reduceOption_mem_iff.2 hset)
  · exact fun hall z hz => hall (some z) (reduceOption_mem_iff.1 hz)

/-- The integers of an integer set. -/
def ints (z : SetObject) : List Int := z.intsetData.getD []

theorem intsetData_eq (hint : z.isIntset = true) : z.intsetData = some (ints z) := by
  obtain ⟨inner, len⟩ := z
  cases inner with
  | intset s => rfl
  | _ => cases hint

theorem iter_eq_ints (hint : z.isIntset = true) : z.iter = (ints z).map printI64 := by
  obtain ⟨inner, len⟩ := z
  cases inner with
  | intset s => rfl
  | _ => cases hint

theorem sorted_ints (z : SetObject) : (ints z).Pairwise (· < ·) := by
  obtain ⟨inner, len⟩ := z
  cases inner with
  | intset s => exact s.sorted
  | _ => exact List.Pairwise.nil

theorem inI64_of_mem_ints (h : z.Sound) (hv : v ∈ ints z) : InI64 v := by
  obtain ⟨inner, len⟩ := z
  cases inner with
  | intset s => exact h.wellFormed v hv
  | _ => cases hv

theorem printed_of_mem_iter (h : z.Sound) (hint : z.isIntset = true) (hm : m ∈ z.iter) :
    ∃ v, InI64 v ∧ printI64 v = m := by
  rw [iter_eq_ints hint] at hm
  obtain ⟨v, hv, rfl⟩ := mem_map.1 hm
  exact ⟨v, inI64_of_mem_ints h hv, rfl⟩

theorem printI64_mem_iter (h : z.Sound) (hint : z.isIntset = true) (hv : InI64 v) :
    printI64 v ∈ z.iter ↔ v ∈ ints z := by
  rw [iter_eq_ints hint]
  constructor
  · intro hmem
    obtain ⟨w, hw, hprint⟩ := mem_map.1 hmem
    rwa [← printI64_injective (inI64_of_mem_ints h hw) hv hprint]
  · exact fun hmem => mem_map_of_mem hmem

/-- Integers are an exact result if their spellings are. -/
theorem exact_map_printI64 {op : SetOp} {result : List Int} (hsorted : result.Pairwise (· < ·))
    (hrange : ∀ v ∈ result, InI64 v) (hprinted : ∀ m, op.Mem sets m → ∃ v, InI64 v ∧ printI64 v = m)
    (hmem : ∀ v, InI64 v → (v ∈ result ↔ op.Mem sets (printI64 v))) :
    op.Exact sets (result.map printI64) := by
  constructor
  · apply List.Nodup.map_on _ (hsorted.imp ne_of_lt)
    exact fun v hv w hw => printI64_injective (hrange v hv) (hrange w hw)
  · intro m
    rw [mem_map]
    constructor
    · rintro ⟨v, hv, rfl⟩
      exact (hmem v (hrange v hv)).1 hv
    · intro hm
      obtain ⟨v, hv, rfl⟩ := hprinted m hm
      exact ⟨v, (hmem v hv).2 hm, rfl⟩

theorem isIntset_of_strategy (h : algebraStrategy zs = .intsetSorted) :
    ∀ z ∈ zs, z.isIntset = true := by
  unfold algebraStrategy at h
  split_ifs at h with hnil hroaring hall
  exact all_eq_true.1 hall

theorem algebraStrategy_perm {zs' : List SetObject} (h : zs.Perm zs') :
    algebraStrategy zs = algebraStrategy zs' := by
  have hnil : zs = [] ↔ zs' = [] := ⟨fun heq => (heq ▸ h).nil_eq.symm, fun heq => (heq ▸ h).eq_nil⟩
  simp only [algebraStrategy, hnil, h.any_eq, h.all_eq]

theorem has_splitToRoaring {textPlace : Placement CompactString} :
    (splitToRoaring textPlace z).Has r ↔ Respelled (some z) r :=
  (splitToRoaring_spec textPlace z).2 r

section Diff

variable (bytesPlace : Placement Bytes) (textPlace : Placement CompactString)

end Diff

/-! ### Union -/

theorem bySize_perm : (bySize sets).Perm sets.reduceOption := perm_insertionSort _ _

theorem mem_bySize : z ∈ bySize sets ↔ some z ∈ sets :=
  bySize_perm.mem_iff.trans reduceOption_mem_iff

/-- A set without members leaves nothing, and nothing can be confused. -/
theorem inter_missing {set : Option SetObject} (hset : set ∈ sets) (hempty : members set = [])
    (hsmall : none ∉ sets → ∃ first zs, bySize sets = first :: zs ∧ first.iter = [])
    (strategy : AlgebraStrategy) : inter.Exact sets [] ∧ inter.KeepsApart strategy sets := by
  have hmem : ∀ m, ¬inter.Mem sets m := by
    intro m hm
    have hin := hm.2 set hset
    rw [hempty] at hin
    cases hin
  refine ⟨⟨nodup_nil, fun m => iff_of_false not_mem_nil (hmem m)⟩, ?_⟩
  have hhash : inter.KeepsApart .smallHash sets := by
    intro hnone first zs hsize m hm
    obtain ⟨first', zs', hsize', hiter⟩ := hsmall hnone
    rw [hsize] at hsize'
    cases hsize'
    rw [hiter] at hm
    cases hm
  cases strategy with
  | intsetSorted => trivial
  | smallHash | largeHash => exact hhash
  | roaring =>
    refine ⟨fun m hm => absurd hm (hmem m), fun r hr => ?_⟩
    obtain ⟨m, hm, -⟩ := hr set hset
    rw [hempty] at hm
    cases hm

/-- Sets that are all there have a smallest one. -/
theorem exists_bySize (hne : sets ≠ []) (hnone : none ∉ sets) :
    ∃ first zs, bySize sets = first :: zs := by
  obtain ⟨set, hset⟩ := exists_mem_of_ne_nil sets hne
  cases set with
  | none => exact absurd hset hnone
  | some z =>
    exact exists_cons_of_ne_nil (ne_nil_of_mem (mem_bySize.2 hset))

/-- The integers that the loop of an intersection keeps. -/
theorem retain_ints (first : SetObject) (hints : ∀ z ∈ zs, z.isIntset = true) :
    ∀ z ∈ zs, ∀ as : List Int, as.Sublist (ints first) →
      z.intsetData.map (intsetIntersection as) = some (as.filter fun v => decide (v ∈ ints z)) := by
  intro z hz as has
  rw [intsetData_eq (hints z hz), Option.map_some,
    intsetIntersection_eq_filter ((sorted_ints first).sublist has) (sorted_ints z)]

/-- **With a limit**, what the first set leaves decides. -/
theorem intersectLoop_limited {retain : List α → SetObject → Option (List α)}
    {keep : SetObject → α → Bool} {current : List α} (limit : Nat)
    (hretain : Retains retain keep current (z :: zs)) :
    ∃ result, intersectLoop retain (some limit) current (z :: zs) = some result ∧
      result.length = if limit ≤ (current.filter (keep z)).length then limit
        else (current.filter fun a => (z :: zs).all fun z => keep z a).length := by
  obtain ⟨hstep, hrest⟩ := hretain.step
  rw [intersectLoop, hstep, Option.bind_eq_bind, Option.bind_some]
  by_cases hlimit : limit ≤ (current.filter (keep z)).length
  · rw [Option.filter_some, if_pos (by simpa using hlimit), if_pos hlimit]
    exact ⟨_, rfl, by rw [length_take, Nat.min_eq_left hlimit]⟩
  · rw [Option.filter_some, if_neg (by simpa using hlimit), if_neg hlimit,
      intersectLoop_below hrest (by simpa using hlimit), filter_filter]
    refine ⟨_, rfl, ?_⟩
    simp only [all_cons, Bool.and_comm]

/-- What a strategy without bitmaps computes: `full` without a limit, and with a limit a result of
which only the length matters. -/
structure Computes (textPlace : Placement CompactString) (sets : List (Option SetObject))
    (first : SetObject) (zs : List SetObject) (full : List Bytes) : Prop where
  nodup : full.Nodup
  complete : ∀ m, inter.Mem sets m → m ∈ full
  exact : inter.Exact sets full ↔ inter.KeepsApart (algebraStrategy (first :: zs)) sets
  listed : algebraStrategy (first :: zs) = .intsetSorted ∨ full.Sublist first.iter
  unlimited : intersectFrom textPlace sets none first zs = some full
  single : zs = [] → full.length = first.iter.length ∧
    ∀ limit, intersectFrom textPlace sets (some limit) first zs = some full
  several : ∀ second rest, zs = second :: rest →
    full.length ≤ (first.iter.filter second.contains).length ∧
    ∀ limit, ∃ result, intersectFrom textPlace sets (some limit) first zs = some result ∧
      result.length = if limit ≤ (first.iter.filter second.contains).length then limit
        else full.length

theorem length_filter_all_le (keep : SetObject → α → Bool) (current : List α) (second : SetObject)
    (rest : List SetObject) :
    (current.filter fun a => (second :: rest).all fun z => keep z a).length ≤
      (current.filter (keep second)).length := by
  apply List.Sublist.length_le
  apply monotone_filter_right
  intro a ha
  rw [all_cons, Bool.and_eq_true] at ha
  exact ha.1

/-- Integer sets answer for the members they have. -/
theorem length_filter_contains {second : SetObject} (hfirst : first.Sound)
    (hint : first.isIntset = true) (hsecond : second.Sound) (hint' : second.isIntset = true) :
    (first.iter.filter second.contains).length =
      ((ints first).filter fun v => decide (v ∈ ints second)).length := by
  rw [iter_eq_ints hint, filter_map, length_map]
  congr 1
  apply filter_congr
  intro v hv
  have hrange := inI64_of_mem_ints hfirst hv
  rw [Bool.eq_iff_iff, decide_eq_true_iff, ← printI64_mem_iter hsecond hint' hrange]
  refine ⟨fun hcontains => ?_, hsecond.contains_of_mem⟩
  obtain ⟨x, hx, hmem⟩ := hsecond.contains_iff.1 hcontains
  have hspelling : second.spelling (printI64 v) = some (printI64 v) := by
    obtain ⟨inner, len⟩ := second
    cases inner with
    | intset s =>
      show (parseInteger (printI64 v)).map printI64 = _
      rw [parseInteger_printI64 hrange]
      rfl
    | _ => cases hint'
  rw [hspelling] at hx
  cases hx
  exact hmem

section Intersection

variable (hnone : none ∉ sets) (hsize : bySize sets = first :: zs)

include hnone hsize

/-- An intersection of sets that are all there. -/
theorem mem_inter : inter.Mem sets m ↔ ∀ z ∈ first :: zs, m ∈ z.iter := by
  have hne : sets ≠ [] := by
    rintro rfl
    cases hsize
  have hall : (∀ z ∈ sets.reduceOption, m ∈ z.iter) ↔ ∀ set ∈ sets, m ∈ members set :=
    forall_reduceOption (p := fun set => m ∈ members set) fun hmem => absurd hmem hnone
  have hsame : (∀ z ∈ bySize sets, m ∈ z.iter) ↔ ∀ set ∈ sets, m ∈ members set :=
    (forall_congr' fun z => imp_congr_left bySize_perm.mem_iff).trans hall
  rw [← hsize, hsame]
  exact ⟨fun h => h.2, fun h => ⟨hne, h⟩⟩

theorem exact_inter_hash (hsound : ∀ z ∈ zs, z.Sound) (hnodup : result.Nodup)
    (hmem : ∀ m, m ∈ result ↔ m ∈ first.iter ∧ ∀ z ∈ zs, z.contains m = true) :
    inter.Exact sets result ↔ inter.KeepsApart .smallHash sets := by
  have hinter : ∀ m, inter.Mem sets m ↔ m ∈ first.iter ∧ ∀ z ∈ zs, m ∈ z.iter := fun m =>
    (mem_inter hnone hsize).trans forall_mem_cons
  constructor
  · rintro ⟨-, hexact⟩ - first' zs' hsize' m hm hall
    cases hsize.symm.trans hsize'
    exact ((hinter m).1 ((hexact m).1 ((hmem m).2 ⟨hm, hall⟩))).2
  · intro hapart
    refine ⟨hnodup, fun m => ?_⟩
    rw [hmem, hinter]
    refine and_congr_right fun hm => ⟨hapart hnone first zs hsize m hm, fun hall z hz => ?_⟩
    exact (hsound z hz).contains_of_mem (hall z hz)

variable (hsound : ∀ z ∈ first :: zs, z.Sound)

include hsound

theorem exact_inter_ints (hints : ∀ z ∈ first :: zs, z.isIntset = true) : inter.Exact sets
      (((ints first).filter fun v => zs.all fun z => decide (v ∈ ints z)).map printI64) := by
  have hfirst := hsound first mem_cons_self
  apply exact_map_printI64 ((sorted_ints first).filter _)
    (fun v hv => inI64_of_mem_ints hfirst (mem_filter.1 hv).1)
  · intro m hm
    exact printed_of_mem_iter hfirst (hints first mem_cons_self)
      ((mem_inter hnone hsize).1 hm first mem_cons_self)
  · intro v hv
    have hall : (∀ z ∈ first :: zs, printI64 v ∈ z.iter) ↔ ∀ z ∈ first :: zs, v ∈ ints z :=
      forall₂_congr fun z hz => printI64_mem_iter (hsound z hz) (hints z hz) hv
    rw [mem_inter hnone hsize, hall, mem_filter, forall_mem_cons]
    simp

variable (textPlace : Placement CompactString)

theorem computes_hash (hfrom : ∀ limit, intersectFrom textPlace sets limit first zs =
      intersectLoop (fun current set => some (current.filter set.contains)) limit first.iter zs)
    (hapart : inter.KeepsApart (algebraStrategy (first :: zs)) sets ↔
      inter.KeepsApart .smallHash sets) :
    Computes textPlace sets first zs (first.iter.filter fun m => zs.all fun z => z.contains m) := by
  have hnodup : (first.iter.filter fun m => zs.all fun z => z.contains m).Nodup :=
    (hsound first mem_cons_self).nodup.filter _
  have hretain : ∀ z ∈ zs, ∀ as : List Bytes, as.Sublist first.iter →
      (fun current (set : SetObject) => some (current.filter set.contains)) as z =
        some (as.filter z.contains) := fun _ _ _ _ => rfl
  constructor
  · exact hnodup
  · intro m hm
    rw [mem_inter hnone hsize] at hm
    rw [mem_filter, all_eq_true]
    refine ⟨hm first mem_cons_self, fun z hz => ?_⟩
    have hz := mem_cons_of_mem first hz
    exact (hsound z hz).contains_of_mem (hm z hz)
  · rw [hapart]
    exact exact_inter_hash hnone hsize (fun z hz => hsound z (mem_cons_of_mem first hz))
      hnodup (fun m => by rw [mem_filter, all_eq_true])
  · exact .inr filter_sublist
  · rw [hfrom]
    exact intersectLoop_none hretain
  · rintro rfl
    refine ⟨by simp, fun limit => ?_⟩
    rw [hfrom, intersectLoop]
    simp
  · rintro second rest rfl
    refine ⟨length_filter_all_le _ _ _ _, fun limit => ?_⟩
    rw [hfrom]
    exact intersectLoop_limited _ hretain

theorem computes_ints (hstrategy : algebraStrategy (first :: zs) = .intsetSorted) :
    Computes textPlace sets first zs
      (((ints first).filter fun v => zs.all fun z => decide (v ∈ ints z)).map printI64) := by
  have hints := isIntset_of_strategy hstrategy
  have hint := hints first mem_cons_self
  have hexact := exact_inter_ints hnone hsize hsound hints
  have hfrom : ∀ limit, intersectFrom textPlace sets limit first zs =
      (intersectLoop (fun current set => set.intsetData.map (intsetIntersection current)) limit
        (ints first) zs).map fun current => current.map printI64 := by
    intro limit
    rw [intersectFrom, hstrategy]
    show (first.intsetData >>= _) = _
    rw [intsetData_eq hint]
    show (intersectLoop _ limit (ints first) zs >>= _) = _
    generalize intersectLoop _ limit (ints first) zs = r
    cases r <;> rfl
  have hretain := retain_ints first (forall_mem_cons.1 hints).2
  constructor
  · exact hexact.1
  · exact fun m hm => (hexact.2 m).2 hm
  · rw [hstrategy]
    exact iff_of_true hexact trivial
  · exact .inl hstrategy
  · rw [hfrom, intersectLoop_none hretain]
    rfl
  · rintro rfl
    refine ⟨by simp [iter_eq_ints hint], fun limit => ?_⟩
    rw [hfrom, intersectLoop]
    simp
  · rintro second rest rfl
    have hsecond : second ∈ first :: second :: rest := by simp
    rw [length_filter_contains (hsound first mem_cons_self) hint (hsound second hsecond)
      (hints second hsecond), length_map]
    refine ⟨length_filter_all_le (fun z v => decide (v ∈ ints z)) _ _ _, fun limit => ?_⟩
    obtain ⟨result, hloop, hlength⟩ := intersectLoop_limited limit hretain
    exact ⟨result.map printI64, by rw [hfrom, hloop]; rfl, by rw [length_map, hlength]⟩

theorem exists_computes (hstrategy : algebraStrategy (first :: zs) ≠ .roaring) :
    ∃ full, Computes textPlace sets first zs full := by
  cases hcase : algebraStrategy (first :: zs) with
  | roaring => exact absurd hcase hstrategy
  | intsetSorted => exact ⟨_, computes_ints hnone hsize hsound textPlace hcase⟩
  | smallHash =>
    exact ⟨_, computes_hash hnone hsize hsound textPlace
      (fun limit => by rw [intersectFrom, hcase]) (by rw [hcase])⟩
  | largeHash =>
    exact ⟨_, computes_hash hnone hsize hsound textPlace
      (fun limit => by rw [intersectFrom, hcase]) (by rw [hcase]; rfl)⟩

end Intersection

theorem roaringIntersection_spec (textPlace : Placement CompactString) (hne : sets ≠ [])
    (hnone : none ∉ sets) :
    (roaringIntersection textPlace sets).Nodup ∧
      (roaringIntersection textPlace sets).Sublist (listing.vec textPlace sets.reduceOption.head?) ∧
      ∀ r, r ∈ roaringIntersection textPlace sets ↔ ∀ set ∈ sets, Respelled set r := by
  obtain ⟨z, zs, hzs⟩ : ∃ z zs, sets.reduceOption = z :: zs := by
    obtain ⟨first, zs, hsize⟩ := exists_bySize hne hnone
    have hmem : first ∈ sets.reduceOption :=
      reduceOption_mem_iff.2 (mem_bySize.1 (hsize ▸ mem_cons_self))
    exact exists_cons_of_ne_nil (ne_nil_of_mem hmem)
  obtain ⟨hvec, hhas⟩ := (splitToRoaring_spec textPlace z).1.foldl_retain
    (zs.map (splitToRoaring textPlace))
  have hresult : roaringIntersection textPlace sets = roaringAndHashToVec
      ((zs.map (splitToRoaring textPlace)).foldl retain
        (splitToRoaring textPlace z)) := by
    rw [roaringIntersection, hzs]
  rw [hresult]
  refine ⟨hvec.nodup_vec, ?_, fun r => ?_⟩
  · rw [hzs]
    exact vec_foldl_sublist vec_retain_sublist _ _
  rw [hvec.mem_vec, hhas, forall_mem_map,
    ← forall_mem_cons (p := fun z => (splitToRoaring textPlace z).Has r), ← hzs,
    ← forall_reduceOption (p := fun set => Respelled set r) fun hmem => absurd hmem hnone]
  simp only [has_splitToRoaring]

theorem not_missing {sets : List (Option α)} (hne : sets ≠ []) (hnone : none ∉ sets) :
    ¬(sets = [] ∨ sets.any Option.isNone = true) := by
  rintro (hnil | hany)
  · exact hne hnil
  · obtain ⟨set, hset, hisNone⟩ := any_eq_true.1 hany
    rw [Option.isNone_iff_eq_none.1 hisNone] at hset
    exact hnone hset

section Sound

variable (textPlace : Placement CompactString) (hsound : ∀ z, some z ∈ sets → z.Sound)

include hsound

/-- The ways through an intersection: no keys, a set without members, or a strategy. -/
theorem computeSinter_cases : sets = [] ∧ (∀ limit, computeSinter textPlace sets limit = some []) ∨
    (∃ set ∈ sets, members set = [] ∧
      (none ∉ sets → ∃ first zs, bySize sets = first :: zs ∧ first.iter = []) ∧
      ∀ limit, computeSinter textPlace sets limit = some []) ∨
    sets ≠ [] ∧ none ∉ sets ∧ ∃ first zs, bySize sets = first :: zs ∧
      (∀ z ∈ first :: zs, z.Sound) ∧ ∀ limit, computeSinter textPlace sets limit =
        intersectFrom textPlace sets limit first zs := by
  by_cases hnil : sets = []
  · exact Or.inl ⟨hnil, fun limit => by rw [computeSinter, if_pos (Or.inl hnil)]⟩
  refine .inr ?_
  by_cases hnone : none ∈ sets
  · refine .inl ⟨none, hnone, rfl, absurd hnone, fun limit => ?_⟩
    rw [computeSinter, if_pos (Or.inr (any_eq_true.2 ⟨none, hnone, rfl⟩))]
  obtain ⟨first, zs, hsize⟩ := exists_bySize hnil hnone
  have hmem : ∀ z ∈ first :: zs, some z ∈ sets := fun z hz => mem_bySize.1 (hsize ▸ hz)
  have hsound' : ∀ z ∈ first :: zs, z.Sound := fun z hz => hsound z (hmem z hz)
  have hcompute : ∀ limit, computeSinter textPlace sets limit =
      if first.isEmpty then some [] else intersectFrom textPlace sets limit first zs := by
    intro limit
    rw [computeSinter, if_neg (not_missing hnil hnone)]
    unfold bySize at hsize
    rw [hsize]
  by_cases hempty : first.isEmpty = true
  · have hiter := (hsound' first mem_cons_self).empty (beq_iff_eq.1 hempty)
    exact .inl ⟨some first, hmem first mem_cons_self, hiter,
      fun _ => ⟨first, zs, hsize, hiter⟩, fun limit => by rw [hcompute, if_pos hempty]⟩
  · exact .inr ⟨hnil, hnone, first, zs, hsize, hsound',
      fun limit => by rw [hcompute, if_neg hempty]⟩

end Sound

end SetOp

end Senko
