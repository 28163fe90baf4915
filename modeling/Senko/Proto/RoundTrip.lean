import Senko.Proto.ParserStable
import Senko.Proto.Serializer

/-!
# Senko — what is serialized is parsed back

A frame as a tree: its payloads at the leaves, its elements in order at the aggregates. The parser
gives back every tree that was serialized, with the raw bytes of its aggregates; iterating over an
aggregate parses them again and yields the elements. A map is the exception. Its length counts
pairs, but the iterator counts frames, and stops half way.

`Parses bytes frame` says that the bytes are one frame, and there is a lemma for each way to write
one.
-/

namespace Senko.Resp

open Framing List

section Parses

variable (std : FloatStd)

/-- **The bytes are exactly one frame**, in a command line or in an aggregate. -/
def Parses (bytes : Bytes) (frame : Frame) : Prop :=
  ∀ fuel inline, bytes.length < fuel →
    parseFrame std fuel bytes inline = some (.ok (.complete frame bytes.length))

variable {std} {bytes : Bytes} {frame : Frame}

theorem Parses.parse (h : Parses std bytes frame) :
    parse std bytes = some (.ok (.complete frame bytes.length)) :=
  h _ true (Nat.lt_succ_self _)

/-- A frame is found in front of others. -/
theorem Parses.append (h : Parses std bytes frame) (y : Bytes) {fuel : Nat} (inline : Bool)
    (hfuel : (bytes ++ y).length < fuel) :
    parseFrame std fuel (bytes ++ y) inline = some (.ok (.complete frame bytes.length)) := by
  rw [length_append] at hfuel
  have hbytes := h (bytes.length + 1) inline (Nat.lt_succ_self _)
  have hkeeps := (parseFrame_judged std y inline (Nat.lt_succ_self bytes.length)
    (show bytes.length + 1 ≤ fuel by omega)).keeps
  rw [hkeeps (by rw [hbytes]; exact not_waits_complete frame _), hbytes]

/-- The first byte decides. -/
theorem parses_of_lead {first : UInt8} {rest : Bytes} {frame : Frame}
    (h : ∀ fuel inline, rest.length < fuel →
      parseLead std (fun rest => parseFrame std fuel rest false) (first :: rest) inline
        (.ofByte first) = some (.ok (.complete frame (first :: rest).length))) :
    Parses std (first :: rest) frame := by
  intro fuel inline hfuel
  obtain ⟨fuel, rfl⟩ : ∃ n, fuel = n + 1 := ⟨fuel - 1, by omega⟩
  rw [length_cons] at hfuel
  exact h fuel inline (by omega)

/-! ## Lines -/

variable {line value : Bytes}

/-- A line behind the first byte. -/
theorem onLine_cons (first : UInt8) (hline : cr ∉ line) (rest : Bytes) (k : Bytes → Nat → Parsed) :
    onLine (first :: (line ++ crlf) ++ rest) 1 k = k line (1 + line.length + 2) := by
  have hfind : findCrlf (first :: (line ++ crlf) ++ rest) 1 = some (line, 1 + line.length + 2) :=
    findCrlf_eq_some.2 ⟨[first], rest, by simp, rfl, hline, rfl⟩
  rw [onLine, hfind]

theorem onLine_cons_nil (first : UInt8) (hline : cr ∉ line) (k : Bytes → Nat → Parsed) :
    onLine (first :: (line ++ crlf)) 1 k = k line (first :: (line ++ crlf)).length := by
  have honLine := onLine_cons first hline [] k
  rw [append_nil] at honLine
  rw [honLine, length_cons, length_append, length_crlf]
  congr 1
  omega

theorem parses_line {first : UInt8} {build : Bytes → Frame}
    (hlead : Lead.ofByte first = .line build) (hline : cr ∉ line) :
    Parses std (first :: (line ++ crlf)) (build line) := by
  apply parses_of_lead
  intro fuel inline _
  rw [hlead]
  exact onLine_cons_nil first hline _

theorem parses_simpleString (h : cr ∉ value) :
    Parses std (writeSimpleString value) (.simpleString value) := parses_line rfl h

theorem parses_error (h : cr ∉ value) :
    Parses std (writeError value) (.simpleError value) := parses_line rfl h

theorem cr_notMem_toDecimal (n : Nat) : cr ∉ toDecimal n := by
  intro hmem
  exact absurd (isDigit_of_mem_toDecimal hmem) (by decide)

theorem cr_notMem_printI64 (i : Int) : cr ∉ printI64 i := by
  unfold printI64
  split
  · rw [mem_cons, not_or]
    exact ⟨by decide, cr_notMem_toDecimal _⟩
  · exact cr_notMem_toDecimal _

theorem parseText_printI64 {i : Int} (h : InI64 i) :
    parseText parseI64 .parseInt (printI64 i) = .ok i := by
  rw [parseText, if_pos (validUtf8_of_ascii fun b => lt_of_mem_printI64), parseI64_printI64 h]

theorem parses_integer {value : Int} (h : InI64 value) :
    Parses std (writeInteger value) (.integer value) := by
  apply parses_of_lead
  intro fuel inline _
  show onLine (0x3a :: (printI64 value ++ crlf)) 1 _ = _
  rw [onLine_cons_nil 0x3a (cr_notMem_printI64 value), parseInt64, parseText_printI64 h]
  rfl

theorem parses_null : Parses std writeNull .null := by
  apply parses_of_lead
  intro fuel inline _
  rfl

theorem parses_boolean (value : Bool) :
    Parses std (0x23 :: (if value then 0x74 else 0x66) :: crlf) (.boolean value) := by
  apply parses_of_lead
  intro fuel inline _
  cases value <;> rfl

/-! ## Blobs -/

theorem parseIsize_toDecimal {n : Nat} (h : n < 2 ^ 63) :
    parseIsize (toDecimal n) = .ok (n : Int) := by
  have hprint : printI64 (n : Int) = toDecimal n := by
    rw [printI64, if_neg (by omega), Int.toNat_natCast]
  rw [← hprint]
  exact parseText_printI64 ⟨by omega, by omega⟩

theorem parseUsize_toDecimal {n : Nat} (h : n < 2 ^ 63) : parseUsize (toDecimal n) = .ok n := by
  have hhead : (toDecimal n).head? ≠ some 0x2b := by
    intro hhead
    exact absurd (isDigit_of_mem_toDecimal (mem_of_mem_head? hhead)) (by decide)
  have htext : parseUsizeText (toDecimal n) = some n := by
    rw [parseUsizeText, if_neg hhead, parseDigits_toDecimal, Option.filter_some,
      if_pos (decide_eq_true (by unfold u64Max; omega))]
  rw [parseUsize, parseText, if_pos (validUtf8_of_ascii fun b hb =>
    lt_of_isDigit (isDigit_of_mem_toDecimal hb)), htext]

/-- The blob behind a header. -/
theorem delimited_blob {header data : Bytes} (h : (header ++ (data ++ crlf)).length < 2 ^ 63)
    (missing : String) (k : Bytes → Parsed) :
    data.length < 2 ^ 63 ∧
      usize (header.length + data.length + 2) = (header ++ (data ++ crlf)).length ∧
      delimited (header ++ (data ++ crlf)) header.length data.length missing k = k data := by
  simp only [length_append, length_crlf] at h ⊢
  have hdata : usize (header.length + data.length) = header.length + data.length :=
    Nat.mod_eq_of_lt (by omega)
  have htotal : usize (header.length + data.length + 2) = header.length + data.length + 2 :=
    Nat.mod_eq_of_lt (by omega)
  refine ⟨by omega, by rw [htotal]; omega, ?_⟩
  have htail : getRange (header ++ (data ++ crlf)) (header.length + data.length)
      (header.length + data.length + 2) = some crlf := by
    have hrange := getRange_append (header ++ data) crlf [] rfl rfl
    rw [append_nil, append_assoc, length_append] at hrange
    exact hrange
  have hbody : getRange (header ++ (data ++ crlf)) header.length (header.length + data.length) =
      some data := by
    have hrange := getRange_append header data crlf rfl rfl
    rwa [append_assoc] at hrange
  unfold delimited
  rw [hdata, htotal, htail]
  dsimp only
  rw [if_neg (by simp), hbody]

theorem onLine_header (lead : UInt8) (len : Nat) (rest : Bytes) (k : Bytes → Nat → Parsed) :
    onLine (writeHeader lead len ++ rest) 1 k =
      k (toDecimal len) (writeHeader lead len).length := by
  have hline : onLine (writeHeader lead len ++ rest) 1 k = _ :=
    onLine_cons lead (cr_notMem_toDecimal len) rest k
  rw [hline, length_writeHeader, length_toDecimal]

theorem parses_bulkString (h : (writeBulkString value).length < 2 ^ 63) :
    Parses std (writeBulkString value) (.bulkString value) := by
  obtain ⟨hlen, htotal, hblob⟩ := delimited_blob h
    "bulk string missing trailing CRLF" fun data =>
      Parsed.complete (.bulkString data) (writeBulkString value).length
  apply parses_of_lead
  intro fuel inline _
  show parseBulkString (writeHeader 0x24 value.length ++ (value ++ crlf)) = _
  unfold parseBulkString
  rw [onLine_header, parseIsize_toDecimal hlen, attempt_ok, if_neg (by omega), Int.toNat_natCast]
  dsimp only
  rw [htotal, if_neg (lt_irrefl _)]
  exact hblob

theorem parses_blobError (h : (writeHeader 0x21 value.length ++ (value ++ crlf)).length < 2 ^ 63) :
    Parses std (writeHeader 0x21 value.length ++ (value ++ crlf)) (.blobError value) := by
  obtain ⟨hlen, htotal, hblob⟩ := delimited_blob h
    "blob error missing trailing CRLF" fun data =>
      Parsed.complete (.blobError data) (writeHeader 0x21 value.length ++ (value ++ crlf)).length
  apply parses_of_lead
  intro fuel inline _
  show parseBlobError (writeHeader 0x21 value.length ++ (value ++ crlf)) = _
  unfold parseBlobError
  rw [onLine_header, parseUsize_toDecimal hlen, attempt_ok]
  rw [htotal, if_neg (lt_irrefl _)]
  exact hblob

theorem parses_verbatimString {encoding data : Bytes} (hencoding : encoding.length = 3)
    (h : (writeHeader 0x3d (encoding.length + 1 + data.length) ++
      (encoding ++ 0x3a :: data ++ crlf)).length < 2 ^ 63) :
    Parses std (writeHeader 0x3d (encoding.length + 1 + data.length) ++
      (encoding ++ 0x3a :: data ++ crlf)) (.verbatimString encoding data) := by
  obtain ⟨payload, hpayload⟩ : ∃ payload, payload = encoding ++ 0x3a :: data := ⟨_, rfl⟩
  have hlength : encoding.length + 1 + data.length = payload.length := by
    rw [hpayload, length_append, length_cons]
    omega
  rw [hlength, ← hpayload] at h ⊢
  obtain ⟨hlen, htotal, hblob⟩ := delimited_blob h
    "verbatim string missing trailing CRLF" fun payload' =>
      if payload'[3]? ≠ some 0x3a then .protocol "verbatim string missing format separator"
      else Parsed.complete (.verbatimString (payload'.take 3) (payload'.drop 4))
        (writeHeader 0x3d payload.length ++ (payload ++ crlf)).length
  apply parses_of_lead
  intro fuel inline _
  show parseVerbatimString (writeHeader 0x3d payload.length ++ (payload ++ crlf)) = _
  unfold parseVerbatimString
  rw [onLine_header, parseUsize_toDecimal hlen, attempt_ok]
  rw [htotal, if_neg (lt_irrefl _), if_neg (by omega)]
  refine hblob.trans ?_
  have hsep : payload[3]? = some 0x3a := by
    rw [hpayload, getElem?_append_right (by omega), hencoding]
    rfl
  have htake : payload.take 3 = encoding := by rw [hpayload, take_left' hencoding]
  have hdrop : payload.drop 4 = data := by
    rw [hpayload, drop_append, hencoding, drop_eq_nil_of_le (by omega)]
    rfl
  rw [if_neg (not_not.2 hsep), htake, hdrop]
  rfl

/-! ## Aggregates -/

theorem Parses.length_pos (h : Parses std bytes frame) : 0 < bytes.length :=
  (progresses_parse std bytes frame _ h.parse).1

variable {elements : List (Bytes × Frame)}

section Wires

variable (h : ∀ e ∈ elements, Parses std e.1 e.2)

include h

theorem length_le_length_wires : elements.length ≤ (elements.flatMap Prod.fst).length := by
  induction elements with
  | nil => exact le_rfl
  | cons e elements ih =>
    obtain ⟨he, hrest⟩ := forall_mem_cons.1 h
    have hpos := he.length_pos
    have hle := ih hrest
    rw [flatMap_cons, length_append, length_cons]
    omega

/-- The loop over the elements runs to their end. -/
theorem parseElements_wires (pre : Bytes) {fuel : Nat}
    (hfuel : (elements.flatMap Prod.fst).length < fuel) :
    parseElements (fun rest => parseFrame std fuel rest false) (pre ++ elements.flatMap Prod.fst)
      elements.length pre.length =
        some (.ok (.complete () (pre ++ elements.flatMap Prod.fst).length)) := by
  induction elements generalizing pre with
  | nil => simp [parseElements]
  | cons e elements ih =>
    obtain ⟨he, hrest⟩ := forall_mem_cons.1 h
    have hparse := he.append (elements.flatMap Prod.fst) false hfuel
    rw [flatMap_cons, length_append] at hfuel
    have hloop := ih hrest (pre ++ e.1) (by omega)
    rw [append_assoc, length_append] at hloop
    rw [length_cons, parseElements, flatMap_cons, getFrom_append]
    dsimp only
    rw [hparse]
    exact hloop

/-- **An aggregate is parsed** if its elements are, and keeps their bytes. -/
theorem parses_aggregate (kind : AggregateKind) {len : Nat}
    (hcount : kind.expected len = elements.length)
    (hfits : (writeHeader kind.lead len ++ elements.flatMap Prod.fst).length < 2 ^ 63) :
    Parses std (writeHeader kind.lead len ++ elements.flatMap Prod.fst)
      (kind.frame ⟨kind, len, elements.flatMap Prod.fst, .resp⟩) := by
  have hlead : Lead.ofByte kind.lead = .aggregate kind := by cases kind <;> rfl
  have hwires := length_le_length_wires h
  have hlen : len < 2 ^ 63 := by
    rw [length_append] at hfits
    cases kind with
    | map =>
      simp only [AggregateKind.expected, saturatingMul, u64Max] at hcount
      omega
    | _ =>
      simp only [AggregateKind.expected] at hcount
      omega
  apply parses_of_lead
  intro fuel inline hfuel
  have hdataFuel : (elements.flatMap Prod.fst).length < fuel := by
    have happend : (List.append (toDecimal len ++ crlf) (elements.flatMap Prod.fst)).length =
      (toDecimal len ++ crlf).length + (elements.flatMap Prod.fst).length := length_append
    omega
  have helements := parseElements_wires h (writeHeader kind.lead len) hdataFuel
  show parseLead std _ (writeHeader kind.lead len ++ elements.flatMap Prod.fst) inline
    (.ofByte kind.lead) = _
  rw [hlead]
  show parseAggregate _ _ kind = _
  unfold parseAggregate
  rw [onLine_header, parseIsize_toDecimal hlen, attempt_ok, if_neg (by omega), Int.toNat_natCast,
    hcount, helements]
  dsimp only
  have hdata := getRange_append (writeHeader kind.lead len) (elements.flatMap Prod.fst) [] rfl rfl
  rw [append_nil, ← length_append] at hdata
  rw [hdata]
  rfl

/-- **The iterator** yields as many elements as its length has left to count. -/
theorem collect_elements (pre : Bytes) {it : FrameIter} (hencoding : it.aggregate.encoding = .resp)
    (hdata : it.aggregate.data = pre ++ elements.flatMap Prod.fst)
    (hconsumed : it.consumed = pre.length) {left : Nat}
    (hleft : it.emitted + left = it.aggregate.len) (hle : left ≤ elements.length) :
    it.collect std (left + 1) = some ((elements.take left).map fun e => .ok e.2) := by
  induction left generalizing it pre elements with
  | zero =>
    have hend : it.next std = some (none, it) := if_pos hleft
    rw [FrameIter.collect, hend]
    rfl
  | succ left ih =>
    rcases elements with _ | ⟨e, elements⟩
    · exact absurd hle (by simp)
    obtain ⟨he, helements⟩ := forall_mem_cons.1 h
    have hparse : parse std (e.1 ++ elements.flatMap Prod.fst) =
        some (.ok (.complete e.2 e.1.length)) :=
      he.append (elements.flatMap Prod.fst) true (Nat.lt_succ_self _)
    have hnext : it.next std = some (some (.ok e.2),
        { it with consumed := it.consumed + e.1.length, emitted := it.emitted + 1 }) := by
      rw [FrameIter.next, if_neg (by omega), hdata, hconsumed, getFrom_append, hencoding]
      dsimp only
      rw [flatMap_cons, hparse]
    have hrest : FrameIter.collect std (left + 1)
        { it with consumed := it.consumed + e.1.length, emitted := it.emitted + 1 } =
          some ((elements.take left).map fun e => .ok e.2) := by
      apply ih helements (pre ++ e.1)
      · exact hencoding
      · rw [hdata, flatMap_cons, append_assoc]
      · rw [length_append, hconsumed]
      · show it.emitted + 1 + left = it.aggregate.len
        omega
      · rw [length_cons] at hle
        omega
    rw [FrameIter.collect, hnext]
    dsimp only
    rw [hrest]
    rfl

end Wires

end Parses

/-! ## Trees -/

/-- A frame with its elements in place of their bytes. -/
inductive Tree where
  | simpleString (value : Bytes)
  | simpleError (value : Bytes)
  | integer (value : Int)
  | bulkString (value : Bytes)
  | null
  | boolean (value : Bool)
  | bigNumber (value : Bytes)
  | blobError (value : Bytes)
  | verbatimString (encoding data : Bytes)
  | aggregate (kind : AggregateKind) (items : List Tree)

/-- The length of an aggregate with so many elements: maps count pairs. -/
def AggregateKind.lenOf (kind : AggregateKind) (items : Nat) : Nat :=
  match kind with
  | .map => items / 2
  | .array | .set | .push => items

mutual

/-- The frame of a tree. -/
def Tree.frame (ryu : F64 → Bytes) : Tree → Frame
  | .simpleString value => .simpleString value
  | .simpleError value => .simpleError value
  | .integer value => .integer value
  | .bulkString value => .bulkString value
  | .null => .null
  | .boolean value => .boolean value
  | .bigNumber value => .bigNumber value
  | .blobError value => .blobError value
  | .verbatimString encoding data => .verbatimString encoding data
  | .aggregate kind items =>
    kind.frame ⟨kind, kind.lenOf items.length, Tree.dataOf ryu items, .resp⟩

/-- The bytes of the elements, one after the other. -/
def Tree.dataOf (ryu : F64 → Bytes) : List Tree → Bytes
  | [] => []
  | item :: items => serialize ryu (item.frame ryu) ++ Tree.dataOf ryu items

end

mutual

/-- Lines hold no carriage return, integers are `i64`, the encoding of a verbatim string has three
bytes, and a map has a value for every key. -/
def Tree.Valid : Tree → Prop
  | .simpleString value | .simpleError value | .bigNumber value => cr ∉ value
  | .integer value => InI64 value
  | .verbatimString encoding _ => encoding.length = 3
  | .bulkString _ | .null | .boolean _ | .blobError _ => True
  | .aggregate kind items => (kind = .map → items.length % 2 = 0) ∧ Tree.AllValid items

def Tree.AllValid : List Tree → Prop
  | [] => True
  | item :: items => item.Valid ∧ Tree.AllValid items

end

namespace Tree

variable {std : FloatStd} {ryu : F64 → Bytes}

def items : Tree → List Tree
  | .aggregate _ items => items
  | _ => []

/-- The bytes and the frame of an element. -/
def element (ryu : F64 → Bytes) (t : Tree) : Bytes × Frame :=
  (serialize ryu (t.frame ryu), t.frame ryu)

theorem dataOf_eq (items : List Tree) :
    dataOf ryu items = (items.map (element ryu)).flatMap Prod.fst := by
  induction items with
  | nil => rfl
  | cons item items ih => rw [dataOf, ih, map_cons, flatMap_cons, element]

theorem serialize_aggregate (kind : AggregateKind) (items : List Tree) :
    serialize ryu ((aggregate kind items).frame ryu) =
      writeHeader kind.lead (kind.lenOf items.length) ++
        (items.map (element ryu)).flatMap Prod.fst := by
  rw [frame, dataOf_eq]
  cases kind <;> rfl

theorem expected_lenOf {kind : AggregateKind} {n : Nat} (heven : kind = .map → n % 2 = 0)
    (hn : n < 2 ^ 63) : kind.expected (kind.lenOf n) = n := by
  cases kind with
  | map =>
    have hmod := heven rfl
    simp only [AggregateKind.expected, AggregateKind.lenOf, saturatingMul, u64Max]
    omega
  | _ => rfl

mutual

/-- **What is serialized is parsed back.** -/
theorem parses : ∀ t : Tree, t.Valid → (serialize ryu (t.frame ryu)).length < 2 ^ 63 →
    Parses std (serialize ryu (t.frame ryu)) (t.frame ryu)
  | .simpleString _, hvalid, _ => parses_simpleString hvalid
  | .simpleError _, hvalid, _ => parses_error hvalid
  | .integer _, hvalid, _ => parses_integer hvalid
  | .bulkString _, _, hfits => parses_bulkString hfits
  | .null, _, _ => parses_null
  | .boolean value, _, _ => parses_boolean value
  | .bigNumber _, hvalid, _ => parses_line rfl hvalid
  | .blobError _, _, hfits => parses_blobError hfits
  | .verbatimString _ _, hvalid, hfits => parses_verbatimString hvalid hfits
  | .aggregate kind items, ⟨heven, hvalid⟩, hfits => by
    rw [serialize_aggregate] at hfits ⊢
    have hdata : (dataOf ryu items).length < 2 ^ 63 := by
      rw [dataOf_eq]
      rw [length_append] at hfits
      omega
    have helements := allParses items hvalid hdata
    have hcount := length_le_length_wires helements
    rw [length_map] at hcount
    rw [frame, dataOf_eq]
    refine parses_aggregate helements kind ?_ hfits
    rw [expected_lenOf heven (by rw [length_append] at hfits; omega), length_map]

theorem allParses : ∀ items : List Tree, AllValid items → (dataOf ryu items).length < 2 ^ 63 →
    ∀ e ∈ items.map (element ryu), Parses std e.1 e.2
  | [], _, _ => by simp
  | item :: items, ⟨hitem, hitems⟩, hfits => by
    rw [dataOf, length_append] at hfits
    exact forall_mem_cons.2
      ⟨parses item hitem (by omega), allParses items hitems (by omega)⟩

end

/-- A serialized tree is parsed back, the iterator of an aggregate yields its elements, and the
reserved capacity is what was written. -/
def RoundTrips (std : FloatStd) (ryu : F64 → Bytes) (t : Tree) : Prop :=
  parse std (serialize ryu (t.frame ryu)) =
      some (.ok (.complete (t.frame ryu) (serialize ryu (t.frame ryu)).length)) ∧
    (∀ aggregate, (t.frame ryu).aggregate = some aggregate →
      aggregate.frames std = some (t.items.map fun item => .ok (item.frame ryu))) ∧
    encodedLen ryu (t.frame ryu) = (serialize ryu (t.frame ryu)).length

/-- What the iterator yields: as many elements as the length says. -/
theorem frames_aggregate {kind : AggregateKind} {items : List Tree} (hvalid : AllValid items)
    (hfits : (dataOf ryu items).length < 2 ^ 63) {aggregate : Aggregate}
    (haggregate : ((Tree.aggregate kind items).frame ryu).aggregate = some aggregate) :
    aggregate.frames std =
      some ((items.take (kind.lenOf items.length)).map fun item => .ok (item.frame ryu)) := by
  have hframe : aggregate = ⟨kind, kind.lenOf items.length, dataOf ryu items, .resp⟩ := by
    rw [frame] at haggregate
    cases kind <;> cases haggregate <;> rfl
  have hle : kind.lenOf items.length ≤ items.length := by
    cases kind with
    | map => exact Nat.div_le_self _ _
    | _ => exact le_rfl
  subst hframe
  have helements : ∀ e ∈ items.map (element ryu), Parses std e.1 e.2 := allParses items hvalid hfits
  have hcollect : FrameIter.collect std (kind.lenOf items.length + 1)
      (Aggregate.iter ⟨kind, kind.lenOf items.length, dataOf ryu items, .resp⟩) = _ :=
    collect_elements helements [] rfl (dataOf_eq items) rfl (Nat.zero_add _)
      (by rw [length_map]; exact hle)
  rw [← map_take, map_map] at hcollect
  exact hcollect

/-- **The round trip** succeeds for every tree but a map that is not empty: of its keys and values
the iterator yields the first half. -/
theorem serialize_parse_roundTrip (std : FloatStd) (ryu : F64 → Bytes) (t : Tree) (hvalid : t.Valid)
    (hfits : (serialize ryu (t.frame ryu)).length < 2 ^ 63) :
    t.RoundTrips std ryu ↔ ∀ items, t = .aggregate .map items → items = [] := by
  have hparses : Parses std _ (t.frame ryu) := parses t hvalid hfits
  have hparse := hparses.parse
  have hlen := (length_serialize ryu (t.frame ryu)).symm
  unfold RoundTrips
  rw [and_iff_right hparse, and_iff_left hlen]
  cases t with
  | aggregate kind items =>
    obtain ⟨heven, hitems⟩ := hvalid
    have hdata : (dataOf ryu items).length < 2 ^ 63 := by
      rw [serialize_aggregate, ← dataOf_eq, length_append] at hfits
      omega
    have hiff : (∀ aggregate, ((Tree.aggregate kind items).frame ryu).aggregate = some aggregate →
        aggregate.frames std = some (items.map fun item => .ok (item.frame ryu))) ↔
        items.take (kind.lenOf items.length) = items := by
      obtain ⟨aggregate, haggregate⟩ :
          ∃ aggregate, ((Tree.aggregate kind items).frame ryu).aggregate = some aggregate := by
        rw [frame]
        cases kind <;> exact ⟨_, rfl⟩
      have hframes : aggregate.frames std = _ := frames_aggregate hitems hdata haggregate
      constructor
      · intro hall
        have heq := hframes.symm.trans (hall aggregate haggregate)
        have hlength := congrArg (Option.map List.length) heq
        simp only [Option.map_some, length_map, Option.some.injEq] at hlength
        exact take_of_length_le (by rw [length_take] at hlength; omega)
      · intro htake aggregate' haggregate'
        rw [frames_aggregate hitems hdata haggregate', htake]
    refine hiff.trans ?_
    cases kind with
    | map =>
      show items.take (items.length / 2) = items ↔ _
      rw [take_eq_self_iff]
      constructor
      · rintro hle items' ⟨⟩
        exact eq_nil_of_length_eq_zero (by omega)
      · intro hnil
        rw [hnil items rfl]
        rfl
    | _ => exact iff_of_true take_length (by rintro _ ⟨⟩)
  | _ => exact iff_of_true (by rintro _ ⟨⟩) (by rintro _ ⟨⟩)

/-- A nested array, and a map with one key. -/
theorem serialize_parse_roundTrip_nested :
    (aggregate .array [.bulkString [0x61], .aggregate .set [.integer (-7), .null]]).RoundTrips
      ⟨fun x _ => x, fun _ => none, fun _ => []⟩ (fun _ => []) := by
  apply (serialize_parse_roundTrip _ _ _ ?_ ?_).2
  · rintro _ ⟨⟩
  · simp [Valid, AllValid, InI64]
  · decide +kernel

theorem serialize_parse_roundTrip_fails :
    ¬ ∀ (std : FloatStd) (ryu : F64 → Bytes) (t : Tree), t.Valid →
      (serialize ryu (t.frame ryu)).length < 2 ^ 63 → t.RoundTrips std ryu := by
  intro h
  have hmap := h ⟨fun x _ => x, fun _ => none, fun _ => []⟩ (fun _ => [])
    (aggregate .map [.simpleString [0x6b], .integer 1]) (by simp [Valid, AllValid, InI64, cr])
    (by decide +kernel)
  have hframes := hmap.2.1 _ rfl
  -- the key is all that the iterator yields
  revert hframes
  decide +kernel

/-! ## Pipelines -/

/-- **A pipeline arrives as it was sent.** However its bytes are cut into reads, the reader takes
the frames of the trees from them, in order, and keeps nothing back. -/
theorem pipeline_roundTrip (std : FloatStd) (ryu : F64 → Bytes) (trees : List Tree)
    (hvalid : AllValid trees) (hfits : (dataOf ryu trees).length < 2 ^ 63) (pieces : List Bytes)
    (hpieces : pieces.flatten = dataOf ryu trees) :
    pieces.foldl (feed (parse std)) ([], .waiting []) =
      (trees.map (Tree.frame ryu), .waiting []) := by
  rw [foldl_feed (stable_parse std) (progresses_parse std) ⟨1, rfl⟩, hpieces]
  clear hpieces
  induction trees with
  | nil => rfl
  | cons t trees ih =>
    obtain ⟨hhead, htail⟩ := hvalid
    rw [dataOf, length_append] at hfits
    have hparses : Parses std _ (t.frame ryu) := parses t hhead (by omega)
    -- what follows the first frame does not change it
    have hparse := hparses.append (dataOf ryu trees) true (Nat.lt_succ_self _)
    rw [dataOf, drain_of_complete (progresses_parse std) hparse, drop_left, ih htail (by omega)]
    rfl

/-- Two frames in three reads. -/
theorem pipeline_roundTrip_two :
    [[0x3a, 0x31], [0x0d, 0x0a, 0x24, 0x31, 0x0d], [0x0a, 0x61, 0x0d, 0x0a]].foldl
        (feed (parse ⟨fun x _ => x, fun _ => none, fun _ => []⟩)) ([], .waiting []) =
      ([.integer 1, .bulkString [0x61]], .waiting []) :=
  pipeline_roundTrip _ (fun _ => []) [.integer 1, .bulkString [0x61]]
    (by simp [AllValid, Valid, InI64]) (by decide +kernel) _ (by decide +kernel)

end Tree

end Senko.Resp
