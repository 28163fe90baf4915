import Senko.Proto.ParserStable

/-!
# Senko — where the parser panics

A length line may announce nearly all of the address space. The sum for the end of such a blob
wraps, passes the check of the length of the input, and then a slice ends before it starts. Nothing
else panics: an iterator over an aggregate parses again what has been parsed.
-/

namespace Senko.Resp

open Framing List

variable {std : FloatStd}

/-- An element of an aggregate is the same frame on its own. -/
theorem parseFrame_inline {fuel used : Nat} {x : Bytes} {frame : Frame}
    (h : parseFrame std fuel x false = some (.ok (.complete frame used))) :
    parseFrame std fuel x true = some (.ok (.complete frame used)) := by
  rcases fuel with _ | fuel
  · cases h
  rcases x with _ | ⟨first, rest⟩
  · cases h
  rw [parseFrame] at h ⊢
  generalize Lead.ofByte first = lead at h ⊢
  cases lead with
  | other => cases h
  | _ => exact h

theorem parseElements_succ {parse : Bytes → Parsed} {input : Bytes} {left consumed stop : Nat}
    (h : parseElements parse input (left + 1) consumed = some (.ok (.complete () stop))) :
    ∃ frame used, parse (input.drop consumed) = some (.ok (.complete frame used)) ∧
      parseElements parse input left (consumed + used) = some (.ok (.complete () stop)) := by
  unfold parseElements getFrom at h
  split at h
  · cases h
  rename_i hrest
  split at hrest <;> cases hrest
  split at h
  · cases h
  · cases h
  · exact ⟨_, _, ‹_›, h⟩
  · cases h

/-- A word of an inline command and the blanks behind it. -/
theorem word_le (rest : Bytes) : rest.findIdx isBlank +
    ((rest.drop (rest.findIdx isBlank)).takeWhile isBlank).length ≤ rest.length := by
  have hnext : rest.findIdx isBlank ≤ rest.length := findIdx_le_length
  have hblanks := ((rest.drop (rest.findIdx isBlank)).takeWhile_sublist isBlank).length_le
  rw [length_drop] at hblanks
  omega

/-- **An iterator between two calls**: what it still has to yield has been parsed before. -/
structure FrameIter.Ready (std : FloatStd) (it : FrameIter) : Prop where
  consumed : it.consumed ≤ it.aggregate.data.length
  emitted : it.emitted ≤ it.aggregate.len
  elements : it.aggregate.encoding = .resp → ∃ pre post left fuel,
    (pre ++ it.aggregate.data ++ post).length ≤ fuel ∧ 0 < pre.length ∧
      it.aggregate.len ≤ it.emitted + left ∧
      parseElements (fun rest => parseFrame std fuel rest false) (pre ++ it.aggregate.data ++ post)
        left (pre.length + it.consumed) =
          some (.ok (.complete () (pre.length + it.aggregate.data.length)))

theorem ready_of_parse {x : Bytes} {frame : Frame} {used : Nat} {a : Aggregate}
    (h : parse std x = some (.ok (.complete frame used))) (ha : frame.aggregate = some a) :
    a.iter.Ready std := by
  refine ⟨Nat.zero_le _, Nat.zero_le _, fun hresp => ?_⟩
  obtain ⟨pre, post, left, rfl, hpre, hleft, helements⟩ :=
    (parse_judged std x []).finds frame used h a ha hresp
  exact ⟨pre, post, left, _, le_rfl, hpre, (Nat.zero_add left).symm ▸ hleft, helements⟩

/-- **A call of `next`** ends, and leaves an iterator between two calls; the item may be an
aggregate that is gone over in turn. -/
theorem FrameIter.Ready.next {it : FrameIter} (h : it.Ready std) :
    ∃ item it', it.next std = some (item, it') ∧ it'.Ready std ∧
      ∀ frame a, item = some (.ok frame) → frame.aggregate = some a → a.iter.Ready std := by
  unfold FrameIter.next
  split
  · exact ⟨none, it, rfl, h, fun _ _ hitem => by cases hitem⟩
  have hemitted : it.emitted + 1 ≤ it.aggregate.len := by
    have hle := h.emitted
    omega
  have hremaining : getFrom it.aggregate.data it.consumed =
      some (it.aggregate.data.drop it.consumed) := if_pos h.consumed
  rw [hremaining]
  dsimp only
  cases hencoding : it.aggregate.encoding with
  | inline =>
    refine ⟨_, _, rfl, ⟨?_, hemitted, fun hresp => by cases hencoding.symm.trans hresp⟩,
      fun _ _ hitem ha => by cases hitem; cases ha⟩
    have hword := word_le (it.aggregate.data.drop it.consumed)
    rw [length_drop] at hword
    have hle := h.consumed
    dsimp only
    omega
  | resp =>
    obtain ⟨pre, post, left, fuel, hfuel, hpre, hleft, helements⟩ := h.elements hencoding
    obtain ⟨left, rfl⟩ : ∃ n, left = n + 1 := ⟨left - 1, by omega⟩
    obtain ⟨frame, used, hframe, hrest⟩ := parseElements_succ helements
    have hdrop : (pre ++ it.aggregate.data ++ post).drop (pre.length + it.consumed) =
        it.aggregate.data.drop it.consumed ++ post := by
      rw [append_assoc, drop_length_add_append, drop_append_of_le_length h.consumed]
    rw [hdrop] at hframe
    have hj := parseFrame_judged std post true
      (Nat.lt_succ_self (it.aggregate.data.drop it.consumed).length)
      (show _ ≤ fuel by simp only [length_append, length_drop] at *; omega)
    have hkept : ¬Waits (parse std (it.aggregate.data.drop it.consumed)) →
        parse std (it.aggregate.data.drop it.consumed) = some (.ok (.complete frame used)) :=
      fun hdecided => (hj.keeps hdecided).symm.trans (parseFrame_inline hframe)
    rcases hparse : parse std (it.aggregate.data.drop it.consumed) with _ | result
    · cases (hkept (by simp [Waits, hparse])).symm.trans hparse
    rcases result with e | (⟨frame', used'⟩ | needed)
    · exact ⟨_, it, rfl, h, fun _ _ hitem => by cases hitem⟩
    · cases (hkept (by rw [hparse]; exact not_waits_complete _ _)).symm.trans hparse
      have hused := (hj.within _ _ hparse).2
      have hle := h.consumed
      rw [length_drop] at hused
      refine ⟨_, _, rfl, ⟨?_, hemitted, fun _ => ⟨pre, post, left, fuel, hfuel, hpre, ?_, ?_⟩⟩, ?_⟩
      · dsimp only
        omega
      · dsimp only
        omega
      · rw [← Nat.add_assoc]
        exact hrest
      · rintro _ a ⟨⟩ ha
        exact ready_of_parse hparse ha
    · exact ⟨_, it, rfl, h, fun _ _ hitem => by cases hitem⟩

/-- The iterators over the aggregates that are returned for an input, nested ones included. -/
inductive Iterated (std : FloatStd) (input : Bytes) : FrameIter → Prop where
  | parse {frame : Frame} {used : Nat} {a : Aggregate}
    (h : parse std input = some (.ok (.complete frame used))) (ha : frame.aggregate = some a) :
    Iterated std input a.iter
  | next {it it' : FrameIter} {item : Option (Except ParseError Frame)}
    (h : Iterated std input it) (hnext : it.next std = some (item, it')) : Iterated std input it'
  | nested {it it' : FrameIter} {frame : Frame} {a : Aggregate} (h : Iterated std input it)
    (hnext : it.next std = some (some (.ok frame), it')) (ha : frame.aggregate = some a) :
    Iterated std input a.iter

theorem Iterated.ready {input : Bytes} {it : FrameIter} (h : Iterated std input it) :
    it.Ready std := by
  induction h with
  | parse h ha => exact ready_of_parse h ha
  | next _ hnext ih =>
    obtain ⟨item, it', heq, hready, -⟩ := ih.next
    cases heq.symm.trans hnext
    exact hready
  | nested _ hnext ha ih =>
    obtain ⟨item, it', heq, -, hitem⟩ := ih.next
    cases heq.symm.trans hnext
    exact hitem _ _ rfl ha

/-- Neither parsing an input nor going over what is returned for it panics. -/
def NeverPanics (std : FloatStd) (input : Bytes) : Prop :=
  parse std input ≠ none ∧ ∀ it, Iterated std input it → it.next std ≠ none

/-- **Parsing never panics**, for an input of any length that a slice can have, if and only if the
parser meets no blob that overruns. -/
theorem parse_never_panics (std : FloatStd) (input : Bytes) (hsmall : input.length < 2 ^ 63) :
    NeverPanics std input ↔ ¬Fatal std (input.length + 1) input := by
  have hpanics := (parse_judged std input []).panics hsmall
  refine ⟨fun h hfatal => h.1 (hpanics.2 hfatal), fun h => ⟨fun hnone => h (hpanics.1 hnone), ?_⟩⟩
  intro it hit hnone
  obtain ⟨item, it', heq, -⟩ := hit.ready.next
  cases heq.symm.trans hnone

def noFloats : FloatStd := ⟨fun x _ => x, fun _ => none, fun _ => []⟩

/-- An array of the blob error `ERR` and the bulk string `a`. -/
theorem parse_never_panics_blobs :
    NeverPanics noFloats
      ([0x2a, 0x32] ++ crlf ++ [0x21, 0x33] ++ crlf ++ [0x45, 0x52, 0x52] ++ crlf ++
      [0x24, 0x31] ++ crlf ++ [0x61] ++ crlf) := by
  refine (parse_never_panics noFloats _ (by decide)).2 ?_
  rintro ⟨line, consumed, hline, len, hlen, -, helements⟩
  cases hline
  cases hlen
  rcases helements with ⟨line, consumed, hline, len, hlen, hoverruns⟩ | ⟨_, _, herror, hbulk⟩
  · cases hline
    cases hlen
    exact absurd hoverruns (by decide)
  · cases herror
    rcases hbulk with ⟨line, consumed, hline, len, hlen, -, hoverruns⟩ | ⟨_, _, -, hend⟩
    · cases hline
      cases hlen
      exact absurd hoverruns (by decide)
    · exact hend

/-- `!18446744073709551614`: the blob ends where its header ends, and its data starts there. -/
theorem parse_never_panics_fails :
    ¬∀ (std : FloatStd) (input : Bytes), input.length < 2 ^ 63 → NeverPanics std input := by
  intro h
  exact (h noFloats (0x21 :: toDecimal (2 ^ 64 - 2) ++ crlf) (by decide +kernel)).1
    (by decide +kernel)

end Senko.Resp
