import Senko.Core.QuickListSearch

/-!
# Senko — runs of a quicklist

The ten mutating operations as one step function on quicklists and one on lists, and the run
theorem: along every run whose steps are safe, the quicklist's results and contents are the
list's, and its structure is consistent.

Two defects of the source bound the theorem. `remove` follows a pointer that its own clean-up may
have released, and `lp_find` does not see a pivot whose bytes overlap the entry header before it.
`Safe` excludes exactly the steps that run into them.
-/

namespace Senko.QuickList

inductive Op where
  | pushFront (element : Bytes)
  | pushBack (element : Bytes)
  | popFront
  | popBack
  | setIndex (index : Int) (element : Bytes)
  | insertBefore (pivot element : Bytes)
  | insertAfter (pivot element : Bytes)
  | remove (count : Int) (element : Bytes)
  | trim (start stop : Int)
  | clear
deriving DecidableEq, Repr

inductive Reply where
  | unit
  | value (value : Option Bytes)
  | flag (set : Bool)
  | inserted (result : InsertResult)
  | removed (count : Nat)
deriving DecidableEq, Repr

/-- One operation on a quicklist; `none` if it touches a released node. -/
def step (q : QuickList) : Op → Option (QuickList × Reply)
  | .pushFront e => (q.pushFront e).map (·, .unit)
  | .pushBack e => (q.pushBack e).map (·, .unit)
  | .popFront => q.popFront.map fun (q, v) => (q, .value v)
  | .popBack => q.popBack.map fun (q, v) => (q, .value v)
  | .setIndex i e => (q.setIndex i e).map fun (q, b) => (q, .flag b)
  | .insertBefore pivot e => (q.insertBefore pivot e).map fun (q, r) => (q, .inserted r)
  | .insertAfter pivot e => (q.insertAfter pivot e).map fun (q, r) => (q, .inserted r)
  | .remove count e => (q.remove count e).map fun (q, n) => (q, .removed n)
  | .trim start stop => (q.trim start stop).map (·, .unit)
  | .clear => q.clear.map (·, .unit)

/-- The same operation on a plain list. -/
def listStep (l : List Bytes) : Op → List Bytes × Reply
  | .pushFront e => (e :: l, .unit)
  | .pushBack e => (l ++ [e], .unit)
  | .popFront => (l.tail, .value l.head?)
  | .popBack => (l.dropLast, .value l.getLast?)
  | .setIndex i e => ((listSetIndex l i e).1, .flag (listSetIndex l i e).2)
  | .insertBefore pivot e => ((listInsert 0 l pivot e).1, .inserted (listInsert 0 l pivot e).2)
  | .insertAfter pivot e => ((listInsert 1 l pivot e).1, .inserted (listInsert 1 l pivot e).2)
  | .remove count e => ((listRemove l count e).1, .removed (listRemove l count e).2)
  | .trim start stop => (listRange l start stop, .unit)
  | .clear => ([], .unit)

/-- The element an operation stores is short. -/
def Op.Short : Op → Prop
  | .pushFront e | .pushBack e | .setIndex _ e | .insertBefore _ e | .insertAfter _ e =>
    ShortElement e
  | _ => True

/-- The step does not run into a defect of the source. -/
def Safe (q : QuickList) : Op → Prop
  | .insertBefore pivot _ | .insertAfter pivot _ => PivotVisible q pivot
  | .remove count e => RemoveSafe q count e
  | _ => True

instance : (op : Op) → Decidable op.Short
  | .pushFront e | .pushBack e | .setIndex _ e | .insertBefore _ e | .insertAfter _ e =>
    inferInstanceAs (Decidable (ShortElement e))
  | .popFront | .popBack | .remove _ _ | .trim _ _ | .clear => inferInstanceAs (Decidable True)

instance (q : QuickList) : (op : Op) → Decidable (Safe q op)
  | .insertBefore pivot _ | .insertAfter pivot _ =>
    inferInstanceAs (Decidable (PivotVisible q pivot))
  | .remove count e => inferInstanceAs (Decidable (RemoveSafe q count e))
  | .pushFront _ | .pushBack _ | .popFront | .popBack | .setIndex _ _ | .trim _ _ | .clear =>
    inferInstanceAs (Decidable True)

variable {q : QuickList} {l : List Bytes}

/-- **One safe step follows the list.** -/
theorem Inv.step (h : Inv q l) {op : Op} (hshort : op.Short) (hsafe : Safe q op) :
    ∃ q', q.step op = some (q', (listStep l op).2) ∧ Inv q' (listStep l op).1 ∧
      q'.fill = q.fill := by
  cases op
  case' pushFront e => obtain ⟨q', hrun, hres⟩ := h.pushFront hshort
  case' pushBack e => obtain ⟨q', hrun, hres⟩ := h.pushBack hshort
  case' popFront => obtain ⟨q', hrun, hres⟩ := h.popFront
  case' popBack => obtain ⟨q', hrun, hres⟩ := h.popBack
  case' setIndex i e => obtain ⟨q', hrun, hres⟩ := h.setIndex i hshort
  case' insertBefore pivot e => obtain ⟨q', hrun, hres⟩ := h.insertBefore hshort hsafe
  case' insertAfter pivot e => obtain ⟨q', hrun, hres⟩ := h.insertAfter hshort hsafe
  case' remove count e => obtain ⟨q', hrun, hres⟩ := h.remove hsafe
  case' trim start stop => obtain ⟨q', hrun, hres⟩ := h.trim start stop
  case' clear => obtain ⟨q', hrun, hres⟩ := h.clear
  all_goals exact ⟨q', by simp [QuickList.step, hrun, listStep], hres⟩

/-! ## Runs -/

/-- A sequence of operations, with the replies in order. -/
def run (q : QuickList) : List Op → Option (QuickList × List Reply)
  | [] => some (q, [])
  | op :: ops => do
    let (q, reply) ← q.step op
    let (q, replies) ← run q ops
    some (q, reply :: replies)

def listRun (l : List Bytes) : List Op → List Bytes × List Reply
  | [] => (l, [])
  | op :: ops =>
    let (l, reply) := listStep l op
    let (l, replies) := listRun l ops
    (l, reply :: replies)

/-- Every step of the run is safe in the state it is taken in. -/
def SafeRun (q : QuickList) : List Op → Prop
  | [] => True
  | op :: ops => Safe q op ∧ ∀ next ∈ q.step op, SafeRun next.1 ops

instance decidableSafeRun (q : QuickList) : (ops : List Op) → Decidable (SafeRun q ops)
  | [] => inferInstanceAs (Decidable True)
  | op :: ops =>
    have : ∀ next : QuickList × Reply, Decidable (SafeRun next.1 ops) :=
      fun next => decidableSafeRun next.1 ops
    inferInstanceAs (Decidable (Safe q op ∧ ∀ next ∈ q.step op, SafeRun next.1 ops))

theorem Inv.run (h : Inv q l) {ops : List Op} (hshort : ∀ op ∈ ops, op.Short)
    (hsafe : SafeRun q ops) :
    ∃ q', q.run ops = some (q', (listRun l ops).2) ∧ Inv q' (listRun l ops).1 ∧
      q'.fill = q.fill := by
  induction ops generalizing q l with
  | nil => exact ⟨q, rfl, h, rfl⟩
  | cons op ops ih =>
    obtain ⟨hop, hrest⟩ := hsafe
    obtain ⟨q₁, hstep, hinv₁, hfill₁⟩ := h.step (hshort op (by simp)) hop
    obtain ⟨q', hrun, hinv, hfill⟩ := ih hinv₁ (fun o ho => hshort o (List.mem_cons_of_mem _ ho))
      (hrest (q₁, _) hstep)
    refine ⟨q', ?_, hinv, hfill.trans hfill₁⟩
    simp [QuickList.run, hstep, hrun, listRun]

/-- What a quicklist of the given `fill` shows of the list `l`, and the shape of its chain. -/
structure Refines (fill : Int) (q : QuickList) (l : List Bytes) : Prop where
  iter : q.iter = some l
  len : q.len = l.length
  /-- One doubly linked chain from head to tail, as many nodes as `node_count` says, none empty
  and none longer than `max(fill, 1)`. -/
  chain : ∃ cells, q.nodes = some cells ∧ Chain nodeView q.arena.get none cells none ∧
    (cells.map Prod.fst).Nodup ∧ q.head = firstId cells none ∧ q.tail = lastId none cells ∧
    q.nodeCount = cells.length ∧ flat cells = l ∧
    ∀ cell ∈ cells, cell.2 ≠ [] ∧ (cell.2.length : Int) ≤ max fill 1
  index : ∀ i, q.index i = some (listIndex l i)
  range : ∀ start stop, q.range start stop = some (listRange l start stop)
  pos : ∀ element rank count maxlen,
    q.pos element rank count maxlen = some (listPositions l element rank count maxlen)

theorem Inv.refines (h : Inv q l) {fill : Int} (hfill : q.fill = max fill 1) :
    Refines fill q l := by
  refine ⟨h.iter, h.len, ?_, h.index, h.range, h.pos⟩
  obtain ⟨cells, hinv, hflat⟩ := h
  refine ⟨cells, hinv.linked.nodes, hinv.linked.chain, hinv.linked.nodup, hinv.linked.head,
    hinv.linked.tail, hinv.linked.nodeCount, hflat, ?_⟩
  intro cell hcell
  rw [← hfill]
  exact hinv.packed cell hcell

/-- **A quicklist refines a plain list** along every run of safe steps: the run is defined, its
replies are the list's, and the state it reaches shows the list. -/
theorem quickList_refines_list (fill : Int) (hfill : fill ≤ 65534) (ops : List Op)
    (hshort : ∀ op ∈ ops, op.Short) (hsafe : SafeRun (new fill) ops) :
    ∃ q, (new fill).run ops = some (q, (listRun [] ops).2) ∧ Refines fill q (listRun [] ops).1 := by
  obtain ⟨q, hrun, hinv, hqfill⟩ := (inv_new hfill).run hshort hsafe
  exact ⟨q, hrun, hinv.refines hqfill⟩

/-- A run through every kind of step: a split, a visible pivot and a removal that merges nothing. -/
theorem quickList_refines_list_sample :
    SafeRun (new 3) [.pushBack [1], .pushBack [2], .pushFront [3], .pushBack [4],
      .insertBefore [2] [5], .setIndex (-1) [6], .remove (-1) [6], .trim 0 2, .popBack] ∧
    ∃ q, (new 3).run [.pushBack [1], .pushBack [2], .pushFront [3], .pushBack [4],
        .insertBefore [2] [5], .setIndex (-1) [6], .remove (-1) [6], .trim 0 2, .popBack] =
        some (q, [.unit, .unit, .unit, .unit, .inserted .found, .flag true, .removed 1, .unit,
          .value (some [5])]) ∧
      Refines 3 q [[3], [1]] :=
  ⟨by decide +kernel, quickList_refines_list 3 (by norm_num) [.pushBack [1], .pushBack [2],
    .pushFront [3], .pushBack [4], .insertBefore [2] [5], .setIndex (-1) [6], .remove (-1) [6],
    .trim 0 2, .popBack] (by decide) (by decide +kernel)⟩

/-- With `fill = 4`, five pushes make a node of two entries and one of three. Removing `[2]` leaves
one entry in each; the first node then absorbs the second, releases it, and the loop reads it. -/
theorem quickList_refines_list_fails :
    ¬ ∀ (fill : Int) (ops : List Op), 1 ≤ fill → (∀ op ∈ ops, op.Short) →
      ∃ q, (new fill).run ops = some (q, (listRun [] ops).2) ∧
        Refines fill q (listRun [] ops).1 := by
  intro h
  obtain ⟨q, hrun, -⟩ := h 4 [.pushBack [1], .pushBack [2], .pushBack [3], .pushBack [2],
    .pushBack [2], .remove 0 [2]] (by norm_num) (by decide)
  have hnone : (new 4).run [.pushBack [1], .pushBack [2], .pushBack [3], .pushBack [2],
      .pushBack [2], .remove 0 [2]] = none := by decide +kernel
  rw [hnone] at hrun
  exact absurd hrun (by simp)

-- the pivot's bytes start one byte early, in the entry's own header
example : ((new 4).run [.pushBack [0x82, 0x82], .insertBefore [0x82, 0x82] [1]]).map Prod.snd =
    some [.unit, .inserted .notFound] := by decide +kernel

end Senko.QuickList
