import Senko.Core.QuickListRefinement
import Senko.Core.SetRefinement
import Senko.Core.ZSet.ObjectRefinement
import Senko.Store.StoreRun

/-!
# Senko — cloned values

The store clones a value that overwrites a key of its primary table, and `copy_from_entry` clones
what it copies. The clone of a list, or of a set or sorted set in a listpack, is made by pushing
what the iterator yields into new nodes. So it has the contents of the value if these can be read
back from a node (`Clonable.clone`), and loses elements if they cannot.
-/

namespace Senko.SenkoValue

open List

/-- What can be seen of a value. -/
inductive View where
  | plain (value : SenkoValue)
  | hash (fields : Multiset (CompactString × HashField SenkoValue)) (fieldCount : Nat)
      (hasFieldExpiry : Bool)
  | list (elements : Option (List Bytes)) (len : Nat)
  | set (members : List Bytes) (len : Nat)
  /-- A stream, with a root in every map of pending entries that has any. -/
  | stream (stream : StreamObject)
  | zset (entries : FloatStd → Option (List ZSetEntry)) (len : Nat)

def view : SenkoValue → View
  | .hash h => .hash (Multiset.ofList h.fields.items) h.fieldCount h.hasFieldExpiry
  | .list q => .list q.iter q.len
  | .set z => .set z.iter z.len
  | .stream s => .stream s.clone
  | .zset z => .zset (fun std => z.allEntries std) z.len
  | value => .plain value

/-- Two values of one type with the same contents. -/
def Same (v v' : SenkoValue) : Prop := v.view = v'.view

/-- The contents can be read back from the nodes of a clone. -/
def Clonable : SenkoValue → Prop
  | .list q => ∃ l, q.iter = some l ∧ q.len = l.length ∧ q.fill ≤ 65534 ∧ FitList l
  | .set { inner := .listpack node, .. } => FitChunk (lpIter node)
  | .zset { inner := .listpack node, .. } => FitChunk (lpIter node)
  | _ => True

variable {env : Env}

theorem perm_foldl_insertUnique {α : Type} (place : Placement α) (items : List α)
    (t : HashTable α) : (items.foldl place.insertUnique t).items.Perm (items ++ t.items) := by
  induction items generalizing t with
  | nil => exact .refl _
  | cons a items ih =>
    refine (ih _).trans (((place.insertUnique_perm t a).append_left items).trans ?_)
    exact perm_middle

theorem view_clone_hash (h : HashObject SenkoValue) :
    (SenkoValue.hash (h.clone env.fieldPlace)).view = (SenkoValue.hash h).view := by
  refine congrArg (View.hash · h.fieldCount h.hasFieldExpiry) (Multiset.coe_eq_coe.2 ?_)
  have hperm := perm_foldl_insertUnique env.fieldPlace h.fields.items
    (env.fieldPlace.withCapacity h.fields.len)
  rw [env.fieldPlace.items_withCapacity, append_nil] at hperm
  exact hperm

theorem clone_clone_stream (s : StreamObject) : s.clone.clone = s.clone := by
  unfold StreamObject.clone
  congr 1
  apply AList.ext
  simp [mapValues, ConsumerGroup.clone]

/-- **The clone of a clonable value** has its contents, and is clonable again. -/
theorem Clonable.clone {v : SenkoValue} (h : v.Clonable) (env : Env) :
    v.Same (v.clone env) ∧ (v.clone env).Clonable := by
  cases v with
  | hash hash => exact ⟨(view_clone_hash hash).symm, trivial⟩
  | list q =>
    -- a list is cloned by pushing what its iterator yields on to a new one
    obtain ⟨l, hiter, hlen, hfill, hl⟩ := h
    obtain ⟨q', hpush, hinv, hfill'⟩ := QuickList.pushBackAll_new hfill hl
    have hclone : q.clone = some q' := by rw [QuickList.clone, hiter]; exact hpush
    have hvalue : (SenkoValue.list q).clone env = .list q' := by rw [SenkoValue.clone, hclone]; rfl
    rw [Same, hvalue, view, view, hiter, hinv.iter, hlen, hinv.len]
    exact ⟨rfl, l, hinv.iter, hinv.len, by omega, hl⟩
  | set z =>
    obtain ⟨inner, len⟩ := z
    cases inner with
    | listpack node =>
      have hnode : FitChunk (lpIter node) := h
      have hiter := hnode.iter_lpClone
      exact ⟨congrArg (View.set · len) hiter.symm, show FitChunk _ from hiter.symm ▸ hnode⟩
    | _ => exact ⟨rfl, trivial⟩
  | stream s => exact ⟨congrArg View.stream (clone_clone_stream s).symm, trivial⟩
  | zset z =>
    obtain ⟨inner, len, generation⟩ := z
    cases inner with
    | listpack node =>
      have hnode : FitChunk (lpIter node) := h
      have hiter := hnode.iter_lpClone
      refine ⟨congrArg (View.zset · len) (funext fun std => ?_),
        show FitChunk _ from hiter.symm ▸ hnode⟩
      exact congrArg (fun entries => some (pairEntries std entries)) hiter.symm
    | bpTree => exact ⟨rfl, trivial⟩
  | _ => exact ⟨rfl, trivial⟩

/-! ## Values that are their own clones -/

/-- A set that insertions and removals make is its own clone. -/
theorem clone_set {z : SetObject} (h : z.inner.WellFormed) :
    (SenkoValue.set z).clone env = .set z := by
  obtain ⟨inner, len⟩ := z
  cases inner with
  | listpack node =>
    obtain ⟨entries, rfl, hsmall⟩ := h
    simp [SenkoValue.clone, SetObject.clone, SetEncoding.clone,
      lpClone_encodeNodeEntries hsmall.shortChunk.fit]
  | _ => rfl

theorem clone_zset {z : ZSetObject} {S : SortedSet} (h : ZSetObject.Refines z S) :
    (SenkoValue.zset z).clone env = .zset z := by
  obtain ⟨inner, len, generation⟩ := z
  cases h.stores with
  | listpack hsmall =>
    simp [SenkoValue.clone, ZSetObject.clone, ZSetEncoding.clone, lpOf,
      lpClone_encodeNodeEntries (shortChunk_rawEntries hsmall.1 hsmall.2).fit]
  | bpTree => rfl

end Senko.SenkoValue
