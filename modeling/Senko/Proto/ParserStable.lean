import Senko.Proto.Parser

/-!
# Senko — the parser decides once

What the parser makes of the front of a stream, a frame, an error or a panic, it makes of every
longer front too. So it can be called on whatever has arrived, and the frames of a connection are
the same however its bytes were cut into reads.

The proof follows the parser: a line that ends in what has arrived ends there in every longer front,
a blob is looked at only when all of it has arrived, and the elements of an aggregate are parsed by
the parser itself, on shorter input. On the way it says when the parser panics (`Fatal`): the only
sums that wrap are those for the end of a blob.
-/

namespace Senko.Resp

open Framing List Option

/-! ## Lines -/

variable {input line : Bytes} {start consumed : Nat}

/-- **A line**: the bytes up to the first line break. -/
theorem findCrlf_eq_some : findCrlf input start = some (line, consumed) ↔
      ∃ pre rest, input = pre ++ (line ++ (crlf ++ rest)) ∧ pre.length = start ∧ cr ∉ line ∧
        consumed = start + line.length + 2 := by
  unfold findCrlf getFrom
  constructor
  · intro h
    obtain ⟨tail, htail, h⟩ := bind_eq_some_iff.1 h
    obtain ⟨rel, hrel, h⟩ := bind_eq_some_iff.1 h
    obtain ⟨front, back, rfl, hcr, rfl⟩ := idxOf?_eq_some_iff_append.1 hrel
    obtain ⟨hstart, hdrop⟩ : start ≤ input.length ∧ input.drop start = front ++ cr :: back := by
      simpa using htail
    have hinput : input = input.take start ++ (front ++ cr :: back) := by
      rw [← hdrop, take_append_drop]
    have hlen : (input.take start).length = start := by rw [length_take, min_eq_left hstart]
    have hnext : input[start + front.length + 1]? = back[0]? := by
      rw [hinput, getElem?_append_right (by omega), getElem?_append_right (by omega), hlen]
      have hindex : start + front.length + 1 - start - front.length = 1 := by omega
      rw [hindex]
      rfl
    dsimp only at h
    rw [hnext] at h
    by_cases hlf : back[0]? = some lf
    · rw [if_neg (not_not.2 hlf)] at h
      have hline : (input.take (start + front.length)).drop start = front := by
        rw [drop_take, Nat.add_sub_cancel_left, hdrop, take_left]
      rw [hline] at h
      cases h
      obtain ⟨rest, rfl⟩ : ∃ rest, back = lf :: rest := by
        cases back with
        | nil => cases hlf
        | cons b rest => exact ⟨rest, by cases hlf; rfl⟩
      exact ⟨input.take start, rest, hinput, hlen, hcr, rfl⟩
    · rw [if_pos hlf] at h
      cases h
  · rintro ⟨pre, rest, rfl, rfl, hcr, rfl⟩
    have hrel : (line ++ (crlf ++ rest)).idxOf? cr = some line.length :=
      idxOf?_eq_some_iff_append.2 ⟨line, lf :: rest, rfl, hcr, rfl⟩
    have hnext : (pre ++ (line ++ (crlf ++ rest)))[pre.length + line.length + 1]? = some lf := by
      rw [getElem?_append_right (by omega), getElem?_append_right (by omega)]
      have hindex : pre.length + line.length + 1 - pre.length - line.length = 1 := by omega
      rw [hindex]
      rfl
    rw [if_pos (by simp), drop_left]
    show ((line ++ (crlf ++ rest)).idxOf? cr).bind _ = _
    rw [hrel, bind_some, if_neg (not_not.2 hnext), drop_take, drop_left,
      Nat.add_sub_cancel_left, take_left]

theorem findCrlf_append (h : findCrlf input start = some (line, consumed)) (y : Bytes) :
    findCrlf (input ++ y) start = some (line, consumed) := by
  obtain ⟨pre, rest, rfl, hrest⟩ := findCrlf_eq_some.1 h
  exact findCrlf_eq_some.2 ⟨pre, rest ++ y, by simp, hrest⟩

theorem findCrlf_bounds (h : findCrlf input start = some (line, consumed)) :
    start < consumed ∧ consumed ≤ input.length := by
  obtain ⟨pre, rest, rfl, rfl, -, rfl⟩ := findCrlf_eq_some.1 h
  simp only [length_append]
  have hcrlf : crlf.length = 2 := rfl
  omega

/-- The first line break stands at the end of the line. -/
theorem crlf_at_iff (hline : findCrlf input 1 = some (line, consumed))
    (hfirst : input.head? ≠ some cr) {i : Nat} (hi : i < consumed) :
    (input.take (i + 2)).drop i = crlf ↔ i + 2 = consumed := by
  obtain ⟨pre, rest, rfl, hpre, hcr, rfl⟩ := findCrlf_eq_some.1 hline
  obtain ⟨first, rfl⟩ := length_eq_one_iff.1 hpre
  have hfront : cr ∉ first :: line := by
    rw [mem_cons, not_or]
    exact ⟨fun h => hfirst (by rw [h]; rfl), hcr⟩
  have hinput : [first] ++ (line ++ (crlf ++ rest)) = (first :: line) ++ (crlf ++ rest) := rfl
  rw [hinput]
  constructor
  · intro h
    have hget : ((first :: line) ++ (crlf ++ rest))[i]? = some cr := by
      have hhead := congrArg List.head? h
      rw [head?_drop, getElem?_take_of_lt (by omega)] at hhead
      exact hhead
    rw [getElem?_append] at hget
    split at hget
    · exact absurd (mem_of_getElem? hget) hfront
    rename_i hlow
    rw [length_cons] at hlow hget
    by_contra hne
    have hlast : i - (line.length + 1) = 1 := by omega
    rw [hlast] at hget
    cases hget
  · intro h
    have hi' : i = (first :: line).length := by
      rw [length_cons]
      omega
    rw [hi', take_length_add_append, drop_left]
    rfl

theorem parseText_eq_ok {α : Type} {parse : Bytes → Option α} {e : ParseError} {a : α}
    (h : parseText parse e line = .ok a) : parse line = some a := by
  unfold parseText at h
  split at h
  · cases hparse : parse line <;> rw [hparse] at h <;> cases h
    rfl
  · cases h

theorem parseIsize_lt {len : Int} (h : parseIsize line = .ok len) : len.toNat < 2 ^ 64 := by
  have hrange := (inI64_of_parseI64 (parseText_eq_ok h)).2
  omega

theorem parseUsize_lt {len : Nat} (h : parseUsize line = .ok len) : len < 2 ^ 64 := by
  have hrange : len ≤ u64Max := by simpa using (filter_eq_some_iff.1 (parseText_eq_ok h)).2
  unfold u64Max at hrange
  omega

/-! ## Panics -/

/-- The end of a blob is beyond the address space, and the slice of its line break or the slice of
its data would start behind its own end. -/
def Overruns (headerConsumed len : Nat) : Prop :=
  headerConsumed + len + 2 = 2 ^ 64 ∨ headerConsumed + len + 1 = 2 ^ 64 ∨ len + 2 = 2 ^ 64
deriving Decidable

/-- An element of an aggregate is fatal, and those before it are frames. -/
def FatalElements (parse : Bytes → Parsed) (fatal : Bytes → Prop) (input : Bytes) :
    Nat → Nat → Prop
  | 0, _ => False
  | left + 1, consumed =>
    fatal (input.drop consumed) ∨
      ∃ frame used, parse (input.drop consumed) = some (.ok (.complete frame used)) ∧
        FatalElements parse fatal input left (consumed + used)

def FatalLead (parse : Bytes → Parsed) (fatal : Bytes → Prop) (input : Bytes) : Lead → Prop
  | .bulkString => ∃ line headerConsumed, findCrlf input 1 = some (line, headerConsumed) ∧
      ∃ len, parseIsize line = .ok len ∧ 0 ≤ len ∧ Overruns headerConsumed len.toNat
  | .blobError | .verbatimString =>
    ∃ line headerConsumed, findCrlf input 1 = some (line, headerConsumed) ∧
      ∃ len, parseUsize line = .ok len ∧ Overruns headerConsumed len
  | .aggregate kind => ∃ line headerConsumed, findCrlf input 1 = some (line, headerConsumed) ∧
      ∃ len, parseIsize line = .ok len ∧ 0 ≤ len ∧
        FatalElements parse fatal input (kind.expected len.toNat) headerConsumed
  | _ => False

/-- **The parser meets a blob that overruns**, at the front or in an aggregate. -/
def Fatal (std : FloatStd) : Nat → Bytes → Prop
  | 0, _ => False
  | _ + 1, [] => False
  | fuel + 1, first :: rest =>
    FatalLead (fun x => parseFrame std fuel x false) (Fatal std fuel) (first :: rest)
      (.ofByte first)

/-! ## What is made of an input -/

/-- **A judgement on an input** is kept when more arrives, what it takes has at least `low` bytes
and lies in the input, what it finds is `good`, and it is a panic if something `fatal` was met. -/
structure Judged {φ : Type} (input : Bytes) (low : Nat) (good : φ → Prop) (fatal : Prop)
    (outcome later : Outcome φ ParseError) : Prop where
  keeps : Keeps outcome later
  within : ∀ x used, outcome = some (.ok (.complete x used)) → low ≤ used ∧ used ≤ input.length
  finds : ∀ x used, outcome = some (.ok (.complete x used)) → good x
  panics : input.length < 2 ^ 63 → (outcome = none ↔ fatal)

/-- The raw bytes of an aggregate stand in the input behind its header, and its elements fill them.
-/
def Filled (parse : Bytes → Parsed) (input : Bytes) (frame : Frame) : Prop :=
  ∀ a, frame.aggregate = some a → a.encoding = .resp → ∃ pre post left,
    input = pre ++ a.data ++ post ∧ 0 < pre.length ∧ a.len ≤ left ∧
      parseElements parse input left pre.length =
        some (.ok (.complete () (pre.length + a.data.length)))

section Judged

variable {φ : Type} {y : Bytes} {low : Nat} {good : φ → Prop} {fatal fatal' : Prop}
  {outcome later : Outcome φ ParseError}

theorem judged_complete {x : φ} {used : Nat} (hlow : low ≤ used) (hle : used ≤ input.length)
    (hgood : good x) (hsafe : input.length < 2 ^ 63 → ¬fatal) :
    Judged input low good fatal (some (.ok (.complete x used))) (some (.ok (.complete x used))) :=
  ⟨.refl _, by rintro _ _ ⟨⟩; exact ⟨hlow, hle⟩, by rintro _ _ ⟨⟩; exact hgood,
    fun h => by simp [hsafe h]⟩

theorem judged_incomplete (needed : Nat) (hsafe : input.length < 2 ^ 63 → ¬fatal) :
    Judged input low good fatal (some (.ok (.incomplete needed))) later :=
  ⟨keeps_of_incomplete _ _, by rintro _ _ ⟨⟩, by rintro _ _ ⟨⟩, fun h => by simp [hsafe h]⟩

theorem judged_error (e : ParseError) (hsafe : input.length < 2 ^ 63 → ¬fatal) :
    Judged input low good fatal (some (.error e)) (some (.error e) : Outcome φ ParseError) :=
  ⟨.refl _, by rintro _ _ ⟨⟩, by rintro _ _ ⟨⟩, fun h => by simp [hsafe h]⟩

theorem judged_none (hfatal : input.length < 2 ^ 63 → fatal) :
    Judged input low good fatal none (none : Outcome φ ParseError) :=
  ⟨.refl _, by rintro _ _ ⟨⟩, by rintro _ _ ⟨⟩, fun h => by simp [hfatal h]⟩

theorem Judged.congr (h : Judged input low good fatal outcome later)
    (hfatal : input.length < 2 ^ 63 → (fatal ↔ fatal')) :
    Judged input low good fatal' outcome later :=
  ⟨h.keeps, h.within, h.finds, fun hsmall => (h.panics hsmall).trans (hfatal hsmall)⟩

/-- A parser that waits for a number of bytes. -/
theorem judged_of_length {n needed : Nat} (hshort : input.length < n → ¬fatal)
    (h : n ≤ input.length → Judged input low good fatal outcome later) :
    Judged input low good fatal
      (if input.length < n then some (.ok (.incomplete needed)) else outcome)
      (if (input ++ y).length < n then some (.ok (.incomplete needed)) else later) := by
  by_cases hlen : input.length < n
  · rw [if_pos hlen]
    exact judged_incomplete needed fun _ => hshort hlen
  · rw [if_neg hlen, if_neg (by rw [length_append]; omega)]
    exact h (not_lt.1 hlen)

variable {good : Frame → Prop} {k k' : Bytes → Nat → Parsed} {headerConsumed len : Nat}

theorem onLine_judged {F : Bytes → Nat → Prop}
    (h : ∀ line consumed, findCrlf input start = some (line, consumed) →
      Judged input low good (F line consumed) (k line consumed) (k' line consumed)) :
    Judged input low good
      (∃ line consumed, findCrlf input start = some (line, consumed) ∧ F line consumed)
      (onLine input start k) (onLine (input ++ y) start k') := by
  unfold onLine
  cases hline : findCrlf input start with
  | none => exact judged_incomplete _ fun _ => by simp
  | some found =>
    obtain ⟨line, consumed⟩ := found
    rw [findCrlf_append hline]
    exact (h line consumed hline).congr fun _ => by simp

theorem attempt_judged {α : Type} (value : Except ParseError α) {k k' : α → Parsed}
    {F : α → Prop} (h : ∀ a, value = .ok a → Judged input low good (F a) (k a) (k' a)) :
    Judged input low good (∃ a, value = .ok a ∧ F a) (attempt value k) (attempt value k') := by
  cases value with
  | error e => exact judged_error e fun _ => by simp
  | ok a => exact (h a rfl).congr fun _ => by simp

/-- A line that is a frame. -/
theorem onLine_complete (h : ∀ line consumed, 1 ≤ consumed → consumed ≤ input.length →
      Judged input 1 good False (k line consumed) (k line consumed)) :
    Judged input 1 good False (onLine input start k) (onLine (input ++ y) start k) := by
  refine (onLine_judged (F := fun _ _ => False) fun line consumed hline => ?_).congr fun _ => by
    simp
  obtain ⟨hlow, hle⟩ := findCrlf_bounds hline
  exact h line consumed (by omega) hle

theorem not_overruns_of_lt (hline : findCrlf input 1 = some (line, headerConsumed))
    (hshort : input.length < usize (headerConsumed + len + 2)) : ¬Overruns headerConsumed len := by
  have hheader := findCrlf_bounds hline
  unfold usize Overruns at *
  omega

/-- **A blob** of which all has arrived. -/
theorem delimited_judged (missing : String) {k : Bytes → Parsed}
    (hline : findCrlf input 1 = some (line, headerConsumed)) (hfirst : input.head? ≠ some cr)
    (hlen : len < 2 ^ 64) (htotal : usize (headerConsumed + len + 2) ≤ input.length)
    (hk : ∀ data, 1 ≤ usize (headerConsumed + len + 2) →
      Judged input 1 good False (k data) (k data)) :
    Judged input 1 good (Overruns headerConsumed len) (delimited input headerConsumed len missing k)
      (delimited (input ++ y) headerConsumed len missing k) := by
  have hheader := findCrlf_bounds hline
  unfold delimited
  rw [getRange_append_left htotal]
  unfold Overruns getRange usize at *
  by_cases htail : (headerConsumed + len) % 2 ^ 64 ≤ (headerConsumed + len + 2) % 2 ^ 64
  · rw [if_pos ⟨htail, htotal⟩]
    dsimp only
    have hend : (headerConsumed + len) % 2 ^ 64 + 2 = (headerConsumed + len + 2) % 2 ^ 64 := by
      omega
    rw [← hend]
    split
    · rename_i hcrlf
      refine judged_error _ fun hsmall hover => hcrlf ?_
      exact (crlf_at_iff hline hfirst (by omega)).2 (by omega)
    rename_i hcrlf
    by_cases hdata : headerConsumed ≤ (headerConsumed + len) % 2 ^ 64
    · rw [if_pos ⟨hdata, by omega⟩, if_pos ⟨hdata, by rw [length_append]; omega⟩,
        take_append_of_le_length (by omega)]
      exact (hk _ (by omega)).congr fun _ => ⟨False.elim, fun hover => by omega⟩
    · rw [if_neg fun h => hdata h.1, if_neg fun h => hdata h.1]
      refine judged_none fun hsmall => ?_
      have hwhere := (crlf_at_iff hline hfirst (by omega)).1 (not_not.1 hcrlf)
      omega
  · rw [if_neg fun h => htail h.1]
    exact judged_none fun hsmall => by omega

variable {parse parse' : Bytes → Parsed} {good : Bytes → Frame → Prop} {F : Bytes → Prop}

section Elements

variable (hparse : ∀ x : Bytes, x.length < input.length →
  Judged x 1 (good x) (F x) (parse x) (parse' (x ++ y)))

include hparse

/-- The elements of an aggregate, if the parser of an element can be judged. -/
theorem parseElements_judged (left : Nat) (hpos : 0 < consumed) (hle : consumed ≤ input.length) :
    Judged input consumed (fun _ => True) (FatalElements parse F input left consumed)
      (parseElements parse input left consumed)
        (parseElements parse' (input ++ y) left consumed) := by
  induction left generalizing consumed with
  | zero => exact judged_complete le_rfl hle trivial fun _ h => h
  | succ left ih =>
    have hlen : (input.drop consumed).length = input.length - consumed := length_drop
    have hrest : getFrom input consumed = some (input.drop consumed) := if_pos hle
    have hrest' : getFrom (input ++ y) consumed = some (input.drop consumed ++ y) := by
      rw [getFrom, if_pos (by rw [length_append]; omega), drop_append_of_le_length hle]
    have hj := hparse (input.drop consumed) (by omega)
    have hpanics := fun hsmall : input.length < 2 ^ 63 => hj.panics (by omega)
    have hkeeps := hj.keeps
    unfold parseElements FatalElements
    rw [hrest, hrest']
    dsimp only
    rcases hresult : parse (input.drop consumed) with _ | result
    · rw [hkeeps (by simp [Waits, hresult]), hresult]
      exact judged_none fun hsmall => .inl ((hpanics hsmall).1 hresult)
    rw [hresult] at hpanics
    rcases result with e | (⟨frame, used⟩ | needed)
    · rw [hkeeps (by simp [Waits, hresult]), hresult]
      exact judged_error e fun hsmall => by simp [← hpanics hsmall]
    · rw [hkeeps (by rw [hresult]; exact not_waits_complete frame used), hresult]
      obtain ⟨-, hused⟩ := hj.within frame used hresult
      obtain ⟨hkeeps', hwithin, hfinds, hpanics'⟩ := @ih (consumed + used) (by omega) (by omega)
      refine ⟨hkeeps', fun x stop h => ?_, hfinds, fun hsmall => (hpanics' hsmall).trans ?_⟩
      · obtain ⟨hlow, hstop⟩ := hwithin x stop h
        exact ⟨by omega, hstop⟩
      · simp [← hpanics hsmall]
    · exact judged_incomplete _ fun hsmall => by simp [← hpanics hsmall]

theorem parseAggregate_judged (kind : AggregateKind) :
    Judged input 1 (Filled parse input) (FatalLead parse F input (.aggregate kind))
      (parseAggregate parse input kind) (parseAggregate parse' (input ++ y) kind) := by
  refine onLine_judged fun line headerConsumed hline => attempt_judged _ fun len hlen => ?_
  obtain ⟨hlow, hhigh⟩ := findCrlf_bounds hline
  by_cases hneg : len < 0
  · rw [if_pos hneg, if_pos hneg]
    exact judged_complete (by omega) hhigh nofun fun _ h => absurd h.1 (not_le.2 hneg)
  rw [if_neg hneg, if_neg hneg]
  refine Judged.congr ?_ fun _ => (and_iff_right (not_lt.1 hneg)).symm
  obtain ⟨hkeeps, hwithin, -, hpanics⟩ :=
    parseElements_judged hparse (kind.expected len.toNat) (by omega) hhigh
  rcases helements : parseElements parse input (kind.expected len.toNat) headerConsumed with
    _ | result
  · rw [hkeeps (by simp [Waits, helements]), helements]
    exact judged_none fun hsmall => (hpanics hsmall).1 helements
  rw [helements] at hpanics
  have hsafe := fun hsmall => mt (hpanics hsmall).2 (by simp)
  match result, helements with
  | .error e, helements =>
    rw [hkeeps (by simp [Waits, helements]), helements]
    exact judged_error e hsafe
  | .ok (.incomplete needed), _ => exact judged_incomplete _ hsafe
  | .ok (.complete () stop), helements =>
    obtain ⟨hfirst, hstop⟩ := hwithin () stop helements
    rw [hkeeps (by rw [helements]; exact not_waits_complete () stop), helements]
    dsimp only
    rw [getRange_append_left hstop, getRange, if_pos ⟨hfirst, hstop⟩]
    refine judged_complete (by omega) hstop ?_ hsafe
    intro a ha _
    obtain rfl : ⟨kind, len.toNat, (input.take stop).drop headerConsumed, .resp⟩ = a := by
      cases kind <;> exact Option.some.inj ha
    have hexpected : len.toNat ≤ kind.expected len.toNat := by
      have hlt := parseIsize_lt hlen
      cases kind <;> simp only [AggregateKind.expected, saturatingMul, u64Max] <;> omega
    have hpre : (input.take headerConsumed).length = headerConsumed :=
      length_take_of_le hhigh
    refine ⟨input.take headerConsumed, input.drop stop, _, ?_, by omega, hexpected, ?_⟩
    · have htake : input.take headerConsumed = (input.take stop).take headerConsumed := by
        rw [take_take, min_eq_left hfirst]
      rw [htake, take_append_drop, take_append_drop]
    · rw [hpre, length_drop, length_take_of_le hstop, Nat.add_sub_cancel' hfirst]
      exact helements

/-- **One lead**, given what holds of the elements of an aggregate. -/
theorem parseLead_judged (std : FloatStd) (inline : Bool) {first : UInt8}
    (hfirst : input.head? = some first) :
    Judged input 1 (Filled parse input) (FatalLead parse F input (.ofByte first))
      (parseLead std parse input inline (.ofByte first))
      (parseLead std parse' (input ++ y) inline (.ofByte first)) := by
  have hcr : Lead.ofByte first ≠ .lineBreak → input.head? ≠ some cr := by
    rw [hfirst]
    rintro hlead ⟨⟩
    exact hlead rfl
  have hbuild : ∀ build, Lead.ofByte first = .line build → ∀ v, (build v).aggregate = none := by
    intro build hlead v
    unfold Lead.ofByte at hlead
    split at hlead <;> cases hlead <;> rfl
  generalize Lead.ofByte first = lead at hcr hbuild ⊢
  have hno : input.length < 2 ^ 63 → ¬False := fun _ h => h
  cases lead with
  | line build =>
    refine onLine_complete fun line consumed hlow hle =>
      judged_complete hlow hle (fun a ha => ?_) hno
    cases (hbuild build rfl line).symm.trans ha
  | integer | double =>
    refine onLine_complete fun line consumed hlow hle => ?_
    exact (attempt_judged _ fun _ _ => judged_complete hlow hle nofun hno).congr fun _ => by simp
  | bulkString =>
    refine onLine_judged fun line headerConsumed hline => attempt_judged _ fun len hlen => ?_
    by_cases hneg : len < 0
    · rw [if_pos hneg, if_pos hneg]
      obtain ⟨hlow, hle⟩ := findCrlf_bounds hline
      exact judged_complete (by omega) hle nofun fun _ h => absurd h.1 (not_le.2 hneg)
    · rw [if_neg hneg, if_neg hneg]
      refine .congr ?_ fun _ => (and_iff_right (not_lt.1 hneg)).symm
      refine judged_of_length (not_overruns_of_lt hline) fun htotal => ?_
      exact delimited_judged _ hline (hcr nofun) (parseIsize_lt hlen) htotal
        fun _ hpos => judged_complete hpos htotal nofun hno
  | aggregate kind => exact parseAggregate_judged hparse kind
  | null =>
    refine judged_of_length (fun _ h => h) fun hlen => ?_
    rw [take_append_of_le_length hlen]
    split
    · exact judged_error _ hno
    · exact judged_complete (by omega) hlen nofun hno
  | boolean =>
    refine judged_of_length (fun _ h => h) fun hlen => ?_
    rw [take_append_of_le_length hlen]
    split
    · exact judged_complete (by omega) hlen nofun hno
    split
    · exact judged_complete (by omega) hlen nofun hno
    · exact judged_error _ hno
  | blobError =>
    refine onLine_judged fun line headerConsumed hline => attempt_judged _ fun len hlen => ?_
    refine judged_of_length (not_overruns_of_lt hline) fun htotal => ?_
    exact delimited_judged _ hline (hcr nofun) (parseUsize_lt hlen) htotal
      fun _ hpos => judged_complete hpos htotal nofun hno
  | verbatimString =>
    refine onLine_judged fun line headerConsumed hline => attempt_judged _ fun len hlen => ?_
    refine judged_of_length (not_overruns_of_lt hline) fun htotal => ?_
    by_cases hshort : len < 4
    · rw [if_pos hshort, if_pos hshort]
      have hle := (findCrlf_bounds hline).2
      exact judged_error _ fun _ hover => by unfold Overruns at hover; omega
    · rw [if_neg hshort, if_neg hshort]
      refine delimited_judged _ hline (hcr nofun) (parseUsize_lt hlen) htotal fun payload hpos => ?_
      split
      · exact judged_error _ hno
      · exact judged_complete hpos htotal nofun hno
  | lineBreak => exact judged_error _ hno
  | other =>
    rcases inline with _ | _
    · exact judged_error _ hno
    refine onLine_complete fun line consumed hlow hle => ?_
    dsimp only
    split
    · exact judged_error _ hno
    · exact judged_complete hlow hle nofun hno

end Elements

end Judged

/-! ## The parser -/

section Parser

variable (std : FloatStd)

/-- **The parser can be judged** when more arrives and with more fuel, if there was fuel enough. -/
theorem parseFrame_judged {fuel fuel' : Nat} {x : Bytes} (y : Bytes) (inline : Bool)
    (hfuel : x.length < fuel) (hle : fuel ≤ fuel') :
    Judged x 1 (Filled (fun rest => parseFrame std (fuel - 1) rest false) x) (Fatal std fuel x)
      (parseFrame std fuel x inline) (parseFrame std fuel' (x ++ y) inline) := by
  induction fuel generalizing fuel' x inline with
  | zero => exact absurd hfuel (Nat.not_lt_zero _)
  | succ fuel ih =>
    obtain ⟨fuel', rfl⟩ : ∃ n, fuel' = n + 1 := ⟨fuel' - 1, by omega⟩
    cases x with
    | nil => exact judged_incomplete 1 fun _ h => h
    | cons first rest =>
      exact parseLead_judged (fun x hx => ih false (by omega) (by omega)) std inline rfl

theorem parse_judged (x y : Bytes) :
    Judged x 1 (Filled (fun rest => parseFrame std x.length rest false) x)
      (Fatal std (x.length + 1) x) (parse std x) (parse std (x ++ y)) := by
  refine parseFrame_judged std y true (Nat.lt_succ_self _) ?_
  rw [length_append]
  omega

theorem stable_parse : Stable (parse std) := fun x y => (parse_judged std x y).keeps

theorem progresses_parse : Progresses (parse std) := fun x => (parse_judged std x []).within

/-- **RESP framing is stream-safe.** A frame that was found is found again at the same place when
more arrives, an error stays an error, and a front of a single frame is waited on. The frames that a
connection extracts do not depend on how its bytes are cut into reads. -/
theorem resp_stream_safe (std : FloatStd) :
    (∀ x frame n, parse std x = some (.ok (.complete frame n)) →
      0 < n ∧ n ≤ x.length ∧ ∀ y, parse std (x ++ y) = some (.ok (.complete frame n))) ∧
    (∀ x e, parse std x = some (.error e) → ∀ y, ∃ e', parse std (x ++ y) = some (.error e')) ∧
    (∀ x x' frame, x <+: x' → x ≠ x' → parse std x' = some (.ok (.complete frame x'.length)) →
      ∃ needed, parse std x = some (.ok (.incomplete needed))) ∧
    ∀ pieces : List Bytes,
      pieces.foldl (feed (parse std)) ([], .waiting []) = drain (parse std) pieces.flatten := by
  refine ⟨fun x frame n h => ?_, fun x e h y => ⟨e, ?_⟩, fun x x' frame hbefore hne h => ?_, ?_⟩
  · obtain ⟨hpos, hle⟩ := progresses_parse std x frame n h
    refine ⟨hpos, hle, fun y => ?_⟩
    rw [stable_parse std x y (by rw [h]; exact not_waits_complete frame n), h]
  · rw [stable_parse std x y (by simp [Waits, h]), h]
  · exact waits_of_isPrefix (stable_parse std) (progresses_parse std) hbefore hne h
  · exact foldl_feed (stable_parse std) (progresses_parse std) ⟨1, rfl⟩

/-- `+OK` of which the line break is still to come. -/
theorem resp_stream_safe_ok : let std : FloatStd := ⟨fun x _ => x, fun _ => none, fun _ => []⟩
    (∃ needed, parse std [0x2b, 0x4f, 0x4b] = some (.ok (.incomplete needed))) ∧
      ∀ y, parse std ([0x2b, 0x4f, 0x4b] ++ crlf ++ y) =
        some (.ok (.complete (.simpleString [0x4f, 0x4b]) 5)) := by
  intro std
  have hok : parse std ([0x2b, 0x4f, 0x4b] ++ crlf) =
      some (.ok (.complete (.simpleString [0x4f, 0x4b]) 5)) := by decide +kernel
  obtain ⟨hcomplete, -, hbefore, -⟩ := resp_stream_safe std
  exact ⟨hbefore _ _ _ (prefix_append _ _) (by decide) hok, (hcomplete _ _ _ hok).2.2⟩

end Parser

end Senko.Resp
