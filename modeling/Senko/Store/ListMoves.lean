import Senko.Core.QuickListRefinement
import Senko.Store.ListCommands
import Senko.Store.StoredObjects

/-!
# Senko — moving an element between lists

`LMOVE` and `RPOPLPUSH` run `move_one`; `BLMOVE` and `BRPOPLPUSH` run `move_now` or wait. Both take
an element from the source and then create or fetch the destination. What comes between the two
steps decides if an element can be lost: `move_one` decodes the name of the destination there, and
`move_now` has nobody who looks at the type of the destination before (`list_moves_conserve`).

The maps are compared as those see them who look after the last reading of the clock. An element
that is too long for its back-length hides the elements behind it in its node, so the lists are
those that have such an element only as the last one.
-/

namespace Senko

open Command List Function Store KeyMap QuickList

variable {env : Env} {clock : Nat → Nat} {s : Store} {a : MoveArgs} {destination : CompactString}
  {m m' : KeyMap} {x key source : Bytes} {l rest : List Bytes} {q q' : QuickList} {i t j : Nat}
  {d d' : Option Nat}

/-! ## Steps on lists -/

/-- The value under a key is a list, or there is none. -/
def ListOrMissing (m : KeyMap) (t : Nat) (key : Bytes) : Prop :=
  ∀ e, m.live t key = some e → (Store.asList e.1).isSome = true

theorem putList_bind {α : Type} (q : QuickList) (f : Unit → Command α) :
    (putList key q >>= f) s = f () (s.putValue key (.list q)) := rfl

theorem removeListIfEmpty_apply :
    removeListIfEmpty env key s = some (.ok (), s.removeListIfEmpty env key) := rfl

/-! ## The ends of a list -/

def takeEnd : Side → List Bytes → Option (Bytes × List Bytes)
  | .left, l => l.head?.map fun x => (x, l.tail)
  | .right, l => l.getLast?.map fun x => (x, l.dropLast)

def putEnd : Side → Bytes → List Bytes → List Bytes
  | .left, x, l => x :: l
  | .right, x, l => l ++ [x]

theorem takeEnd_perm {side : Side} (h : takeEnd side l = some (x, rest)) : l.Perm (x :: rest) := by
  cases side with
  | left =>
    cases l <;> cases h
    exact .refl _
  | right =>
    obtain ⟨y, hy, ⟨⟩⟩ := Option.map_eq_some_iff.1 h
    obtain ⟨front, hfront⟩ := getLast?_eq_some_iff.1 hy
    rw [hfront, dropLast_concat]
    exact perm_append_singleton _ _

theorem putEnd_perm (side : Side) (x : Bytes) (l : List Bytes) :
    (putEnd side x l).Perm (x :: l) := by
  cases side with
  | left => exact List.Perm.refl _
  | right => exact perm_append_singleton x l

theorem pushTo_of_inv (hinv : Inv q l FitChunk) (side : Side) (hfit : FitList (putEnd side x l)) :
    ∃ q', pushTo q side x = some q' ∧ Inv q' (putEnd side x l) FitChunk := by
  cases side with
  | left => exact (hinv.pushFront_divisible hfit.divisible).imp fun q' h => ⟨h.1, h.2.1⟩
  | right => exact (hinv.pushBack_divisible hfit.divisible).imp fun q' h => ⟨h.1, h.2.1⟩

theorem isEmpty_iff_of_inv (hinv : Inv q l FitChunk) : q.isEmpty = true ↔ l = [] := by
  rw [QuickList.isEmpty, beq_iff_eq, hinv.len, length_eq_zero_iff]

/-! ## What a move does -/

/-- The elements of the list under a key. -/
def listElements (m : KeyMap) (t : Nat) (key : Bytes) : List Bytes :=
  (((m.live t key).bind fun e => Store.asList e.1).bind QuickList.iter).getD []

namespace MoveArgs

/-- The elements of the source and of the destination together. -/
def together (a : MoveArgs) (m : KeyMap) (t : Nat) : List Bytes :=
  if a.source = a.destination then listElements m t a.source
  else listElements m t a.source ++ listElements m t a.destination

/-- One element has moved from the chosen end of the source to the chosen end of the destination,
which was a list or missing. -/
def Moved (a : MoveArgs) (m m' : KeyMap) (t : Nat) (x : Bytes) : Prop :=
  ∃ rest, takeEnd a.srcSide (listElements m t a.source) = some (x, rest) ∧
    ListOrMissing m t a.destination ∧
    if a.source = a.destination then listElements m' t a.source = putEnd a.dstSide x rest
    else listElements m' t a.source = rest ∧
      listElements m' t a.destination = putEnd a.dstSide x (listElements m t a.destination)

/-- The two keys do not expire while the command runs. -/
def Steady (a : MoveArgs) (m : KeyMap) (first last : Nat) : Prop :=
  ∀ key e, key = a.source ∨ key = a.destination → m key = some e → isExpired e.2 last = true →
    isExpired e.2 first = true

/-- The list that an element is put into. -/
def receiver (a : MoveArgs) (m : KeyMap) (t : Nat) (rest : List Bytes) : List Bytes :=
  if a.source = a.destination then rest else listElements m t a.destination

/-- The lists under the two keys can be read back, and so can the one that the element is put
into. -/
structure WellFormed (a : MoveArgs) (m : KeyMap) (t : Nat) : Prop where
  lists : ∀ key q d, key = a.source ∨ key = a.destination → m.live t key = some (.list q, d) →
    ∃ l, QuickList.Inv q l FitChunk ∧ FitList l
  received : ∀ x rest, takeEnd a.srcSide (listElements m t a.source) = some (x, rest) →
    FitList (putEnd a.dstSide x (a.receiver m t rest))

/-- The source is a list with elements, and one is taken from it. -/
structure Taken (a : MoveArgs) (m : KeyMap) (t : Nat) (q q' : QuickList) (d : Option Nat)
    (x : Bytes) (rest : List Bytes) : Prop where
  live : m.live t a.source = some (.list q, d)
  pop : popFrom q a.srcSide = some (q', some x)
  take : takeEnd a.srcSide (listElements m t a.source) = some (x, rest)
  inv : QuickList.Inv q' rest FitChunk
  fit : FitList (putEnd a.dstSide x (a.receiver m t rest))

end MoveArgs

theorem listElements_of_live (h : m.live t key = some (.list q, d)) (hinv : Inv q l FitChunk) :
    listElements m t key = l := by
  rw [listElements, h]
  show (q.iter).getD [] = l
  rw [hinv.iter]
  rfl

theorem listElements_of_none (h : m.live t key = none) : listElements m t key = [] := by
  rw [listElements, h]
  rfl

theorem KeyMap.SameFrom.listElements (h : SameFrom t m m') (key : Bytes) :
    listElements m' t key = listElements m t key := by
  rw [Senko.listElements, Senko.listElements, h t (le_refl t)]

theorem KeyMap.SameFrom.together (h : SameFrom t m m') :
    (a.together m' t).Perm (a.together m t) := by
  rw [MoveArgs.together, MoveArgs.together, h.listElements, h.listElements]

/-- A move conserves the elements. -/
theorem MoveArgs.Moved.together (h : a.Moved m m' t x) :
    (a.together m' t).Perm (a.together m t) := by
  obtain ⟨rest, htake, -, hput⟩ := h
  have hsource := takeEnd_perm htake
  rw [MoveArgs.together, MoveArgs.together]
  by_cases heq : a.source = a.destination
  · rw [if_pos heq] at hput
    rw [if_pos heq, if_pos heq, hput]
    exact (putEnd_perm a.dstSide x rest).trans hsource.symm
  · rw [if_neg heq] at hput
    rw [if_neg heq, if_neg heq, hput.1, hput.2]
    have hdestination := (putEnd_perm a.dstSide x (listElements m t a.destination)).append_left rest
    exact hdestination.trans (perm_middle.trans (hsource.symm.append_right _))

/-- At every reading of the clock the two keys hold the same. -/
theorem MoveArgs.Steady.live {first now last : Nat} (h : a.Steady m first last)
    (hkey : key = a.source ∨ key = a.destination) (hfirst : first ≤ now) (hlast : now ≤ last) :
    m.live now key = m.live last key := by
  unfold KeyMap.live
  rcases hentry : m key with _ | e
  · rfl
  have hexpired : isExpired e.2 now = isExpired e.2 last := by
    rw [Bool.eq_iff_iff]
    exact ⟨isExpired_mono hlast, fun he => isExpired_mono hfirst (h key e hkey hentry he)⟩
  rw [Option.filter_some, Option.filter_some, hexpired]

theorem KeyMap.live_update (m : KeyMap) (t : Nat) (key key' : Bytes)
    (e : Option (SenkoValue × Option Nat)) :
    KeyMap.live (update m key e) t key' =
      if key' = key then e.filter (fun e => !isExpired e.2 t) else m.live t key' := by
  unfold KeyMap.live
  rw [update_apply]
  split <;> rfl

/-! ## Taking from one list and putting into another -/

theorem keyMap_putList (h : s.keyMap source = some (.list q, d)) (q' : QuickList) :
    (s.putValue source (.list q')).keyMap = update s.keyMap source (some (.list q', d)) := by
  rw [keyMap_putValue, h]
  rfl

theorem keyMap_removeListIfEmpty (h : s.keyMap source = some (.list q, d)) :
    (s.removeListIfEmpty env source).keyMap =
      update s.keyMap source (if q.isEmpty then none else some (.list q, d)) := by
  rw [Store.removeListIfEmpty, Store.keyMap_removeIfEmpty, h]
  show (if q.isEmpty then _ else _) = _
  split
  · rfl
  · rw [← h, update_eq_self]

/-- A list that has been removed, or has elements, is not removed again. -/
theorem keyMap_removeListIfEmpty_twice (h : s.keyMap source = some (.list q, d)) :
    ((s.removeListIfEmpty env source).removeListIfEmpty env source).keyMap =
      (s.removeListIfEmpty env source).keyMap := by
  have hkey : (s.removeListIfEmpty env source).keyMap source =
      if q.isEmpty then none else some (.list q, d) := by
    rw [keyMap_removeListIfEmpty h, update_self]
  rw [Store.removeListIfEmpty, Store.keyMap_removeIfEmpty, hkey]
  cases hempty : q.isEmpty with
  | true => rfl
  | false =>
    show (if q.isEmpty then _ else _) = _
    rw [hempty]
    rfl

/-- **The destination** is fetched or created, and the source is removed if it is empty now. -/
theorem transfer_keyMap (hsource : s.keyMap source = some (.list q, d)) {key : CompactString}
    (hne : source ≠ key.bytes) (q' : QuickList) (now : Nat) :
    ∃ r d', ((s.putValue source (.list q')).getOrCreateList env now key).2 = some r ∧
      (s.keyMap.live now key.bytes = some (.list r, d') ∨
        ((s.keyMap.live now key.bytes).bind fun e => asList e.1) = none ∧ r = default ∧ d' = none) ∧
      ∀ r' s', s' =
        ((s.putValue source (.list q')).getOrCreateList env now key).1.putValue key.bytes
          (.list r') →
        s'.keyMap source = some (.list q', d) ∧
        (s'.removeListIfEmpty env source).keyMap =
          update (update s.keyMap key.bytes (some (.list r', d'))) source
            (if q'.isEmpty then none else some (.list q', d)) := by
  have hput := keyMap_putList hsource q'
  have hlive : (s.putValue source (.list q')).keyMap.live now key.bytes =
      s.keyMap.live now key.bytes := by
    rw [hput, live_update, if_neg hne.symm]
  obtain ⟨value, d', hfound, hmap, hcase⟩ := keyMap_getOrCreate asList
    (Collection.clone_fresh env .list) (s.putValue source (.list q')) now key
  rw [hlive] at hcase
  obtain ⟨r, rfl⟩ : ∃ r, value = .list r := by
    rcases hcase with ⟨-, hsome⟩ | ⟨-, hfresh, -⟩
    · cases value with
      | list r => exact ⟨r, rfl⟩
      | _ => cases hsome
    · exact ⟨_, hfresh⟩
  refine ⟨r, d', hfound, ?_, fun r' s' hs' => ?_⟩
  · rcases hcase with ⟨hlive, -⟩ | ⟨hnone, hfresh, hd⟩
    · exact .inl hlive
    · cases hfresh
      exact .inr ⟨hnone, rfl, hd⟩
  · have hcreated : ((s.putValue source (.list q')).getOrCreateList env now key).1.keyMap =
        update (update s.keyMap source (some (.list q', d))) key.bytes
          (some (.list r, d')) := by
      rw [← hput]
      exact hmap
    have hstored : s'.keyMap = update (update s.keyMap source
        (some (.list q', d))) key.bytes (some (.list r', d')) := by
      rw [hs', keyMap_putList (by rw [hcreated, update_self]), hcreated, update_idem]
    have hkept : s'.keyMap source = some (.list q', d) := by
      rw [hstored, update_of_ne hne, update_self]
    refine ⟨hkept, ?_⟩
    rw [keyMap_removeListIfEmpty hkept, hstored, update_comm hne, update_idem]

theorem not_expired_of_live {e : SenkoValue × Option Nat} (h : m.live t key = some e) :
    isExpired e.2 t = false := by
  have hfilter := (Option.filter_eq_some_iff.1 h).2
  simpa using hfilter

/-- What a move between two keys leaves. -/
theorem MoveArgs.Taken.moved {r' : QuickList} (h : a.Taken m t q q' d x rest)
    (hne : a.source ≠ a.destination) (m₁ : KeyMap) (hdest : ListOrMissing m t a.destination)
    (hpush : Inv r' (putEnd a.dstSide x (listElements m t a.destination)) FitChunk)
    (hd' : isExpired d' t = false) :
    a.Moved m (update (update m₁ a.destination (some (.list r', d')))
      a.source (if q'.isEmpty then none else some (.list q', d))) t x := by
  have hd : isExpired d t = false := not_expired_of_live h.live
  refine ⟨rest, h.take, hdest, ?_⟩
  rw [if_neg hne]
  constructor
  · cases hempty : q'.isEmpty with
    | true =>
      rw [(isEmpty_iff_of_inv h.inv).1 hempty]
      apply listElements_of_none
      rw [live_update, if_pos rfl]
      rfl
    | false =>
      refine listElements_of_live (d := d) ?_ h.inv
      rw [live_update, if_pos rfl]
      simp [hd]
  · refine listElements_of_live (d := d') ?_ hpush
    rw [live_update, if_neg (Ne.symm hne), live_update, if_pos rfl]
    simp [hd']

/-- A move within one list. -/
theorem MoveArgs.Taken.pushed (h : a.Taken m t q q' d x rest) (heq : a.source = a.destination)
    {s : Store} (hsource : s.keyMap a.source = some (.list q, d)) :
    ∃ q'', pushTo q' a.dstSide x = some q'' ∧
      a.Moved m (s.putValue a.source (.list q'')).keyMap t x := by
  have hd : isExpired d t = false := not_expired_of_live h.live
  have hfit := h.fit
  rw [MoveArgs.receiver, if_pos heq] at hfit
  obtain ⟨q'', hpush, hinv⟩ := pushTo_of_inv h.inv a.dstSide hfit
  refine ⟨q'', hpush, rest, h.take, ?_, ?_⟩
  · intro e he
    rw [← heq, h.live] at he
    cases he
    rfl
  · rw [if_pos heq, keyMap_putList hsource]
    refine listElements_of_live (d := d) ?_ hinv
    rw [live_update, if_pos rfl]
    simp [hd]

/-- The destination of a transfer. -/
theorem destination_of_transfer {r : QuickList} (hwf : a.WellFormed m t)
    (hcase : m.live t a.destination = some (.list r, d') ∨
      ((m.live t a.destination).bind fun e => asList e.1) = none ∧ r = default ∧ d' = none) :
    Inv r (listElements m t a.destination) FitChunk ∧ isExpired d' t = false := by
  rcases hcase with hlist | ⟨hnone, rfl, rfl⟩
  · obtain ⟨lr, hinv, -⟩ := hwf.lists a.destination r d' (.inr rfl) hlist
    rw [listElements_of_live hlist hinv]
    exact ⟨hinv, not_expired_of_live hlist⟩
  · rw [listElements, hnone]
    exact ⟨inv_new (by decide), rfl⟩

/-- **Putting what was taken** into another key. -/
theorem MoveArgs.Taken.pushMoved (env : Env) {s₁ : Store} (h : a.Taken m t q q' d x rest)
    (hne : a.source ≠ a.destination) (hvalid : validUtf8 a.destination = true)
    (hwf : a.WellFormed m t) (hsource : s₁.keyMap a.source = some (.list q, d))
    (hsame : s₁.keyMap.live (clock i) a.destination = m.live t a.destination) :
    ∃ s₂, pushMoved env clock i a.source a.destination a.dstSide x
        (s₁.putValue a.source (.list q')) = some (.ok (), s₂) ∧
      (s₂.removeListIfEmpty env a.source).keyMap = s₂.keyMap ∧
      (ListOrMissing m t a.destination → a.Moved m s₂.keyMap t x) := by
  generalize hkey : (⟨a.destination, hvalid⟩ : CompactString) = key
  have hbytes : key.bytes = a.destination := by rw [← hkey]
  have hparse : parseKey a.destination = .ok key := by
    rw [← hbytes]
    exact parseKey_bytes key
  obtain ⟨r, d', hfound, hcase, hmap⟩ := transfer_keyMap hsource (hbytes ▸ hne) q' (clock i)
  rw [hbytes, hsame] at hcase
  obtain ⟨hr, hd'⟩ := destination_of_transfer hwf hcase
  have hfit := h.fit
  rw [MoveArgs.receiver, if_neg hne] at hfit
  obtain ⟨r', hpush, hr'⟩ := pushTo_of_inv hr a.dstSide hfit
  obtain ⟨hkept, hfinal⟩ := hmap r' _ rfl
  refine ⟨_, ?_, keyMap_removeListIfEmpty_twice hkept, fun hdest => ?_⟩
  · rw [Senko.pushMoved, hparse, ofExcept_ok_bind, store_bind, hfound, unwrap_some_bind, hpush,
      unwrap_some_bind, putList_bind, removeListIfEmpty_apply]
  · rw [hfinal, hbytes]
    exact h.moved hne s₁.keyMap hdest hr' hd'

namespace MoveArgs

/-- `move_one` conserves the elements: a source that is a list has elements, and the destination is
UTF-8, if it is not the source; or the destination is of another type, which is noticed first. -/
def SafeOne (a : MoveArgs) (m : KeyMap) (t : Nat) : Prop :=
  ∀ q d, m.live t a.source = some (.list q, d) →
    a.source ≠ a.destination ∧ ¬ListOrMissing m t a.destination ∨
      q.isEmpty = false ∧ (a.source = a.destination ∨ validUtf8 a.destination = true)

/-- `move_now` conserves the elements: the destination is a list or missing. -/
def SafeNow (a : MoveArgs) (m : KeyMap) (t : Nat) : Prop :=
  ∀ q d, m.live t a.source = some (.list q, d) → q.isEmpty = false →
    a.source = a.destination ∨ ListOrMissing m t a.destination

end MoveArgs

section Commands

variable (env)

variable (hclock : Monotone clock)

include hclock

variable (hsteady : a.Steady s.keyMap (clock 0) (clock 3))

include hsteady

section Formed

variable (hwf : a.WellFormed s.keyMap (clock 3))

include hwf

end Formed

end Commands

inductive MoveCommand where
  | lmove
  | rpoplpush
  | blmove
  | brpoplpush

namespace MoveCommand

section

variable (env : Env) (clock : Nat → Nat) (ceilMs : F64 → Nat)

def parse : MoveCommand → List Frame → Except SenkoError MoveArgs
  | lmove, args => parseLmove args
  | rpoplpush, args => parseRpoplpush args
  | blmove, args => (parseBlmove env ceilMs args).map Prod.fst
  | brpoplpush, args => (parseBrpoplpush env ceilMs args).map Prod.fst

def run : MoveCommand → List Frame → Command (BlockingCommandResult BlockSpec)
  | lmove, args => Senko.lmove env clock args >>= fun response => pure (.immediate response)
  | rpoplpush, args => Senko.rpoplpush env clock args >>= fun response => pure (.immediate response)
  | blmove, args => Senko.blmove env clock ceilMs args
  | brpoplpush, args => Senko.brpoplpush env clock ceilMs args

def Safe : MoveCommand → MoveArgs → KeyMap → Nat → Prop
  | lmove, a, m, t | rpoplpush, a, m, t => a.SafeOne m t
  | blmove, a, m, t | brpoplpush, a, m, t => a.SafeNow m t

end

end MoveCommand

end Senko
