import Senko.Net.CrossShard

/-!
# Senko — one frame for every command

A client can tell replies apart only if each of them is exactly one frame. Every plan over shards
answers with one frame unless a shard answers a sub-command with an error: the readers hand the text
of such an error on without framing it (`cross_shard_replies_framed`). An error message is one frame
unless its text has a carriage return, which it may have from the client.
-/

namespace Senko.Net

open Resp Plan List

/-- **The bytes are exactly one frame**, with nothing left over. -/
def OneFrame (std : FloatStd) (bytes : Bytes) : Prop :=
  ∃ frame, parse std bytes = some (.ok (.complete frame bytes.length))

/-! ## Lines -/

/-- A text of the program. Its characters are read off without decoding the string. -/
def oneLine (text : List Char) : Bool := text.all fun char => UInt8.ofNat char.toNat != cr

theorem cr_notMem_ascii {text : List Char} (h : oneLine text = true) :
    cr ∉ ascii (String.ofList text) := by
  rw [ascii, String.toList_ofList]
  intro hmem
  obtain ⟨char, hchar, heq⟩ := mem_map.1 hmem
  have hne := all_eq_true.1 h char hchar
  simp [heq] at hne

variable {response : Response} {args : List Bytes} {command input text : Bytes} {std : FloatStd}

theorem findCrlf_of_notMem (h : cr ∉ input) (start : Nat) : findCrlf input start = none := by
  rw [Option.eq_none_iff_forall_ne_some]
  rintro ⟨line, consumed⟩ hfind
  obtain ⟨pre, rest, rfl, -, -, -⟩ := findCrlf_eq_some.1 hfind
  exact h (by simp [crlf])

theorem onLine_of_notMem (h : cr ∉ input) (start : Nat) (k : Bytes → Nat → Parsed) :
    onLine input start k = .incomplete (input.length + 2) := by
  rw [onLine, findCrlf_of_notMem h]

/-- Every frame ends with a line break. -/
theorem parseLead_of_notMem (h : cr ∉ input) (nested : Bytes → Parsed) (inline : Bool) (lead : Lead)
    (frame : Resp.Frame) (used : Nat) :
    parseLead std nested input inline lead ≠ some (.ok (.complete frame used)) := by
  have htake : ∀ n, cr ∉ input.take n := fun n hmem => h (mem_of_mem_take hmem)
  have hwait : ∀ needed, Parsed.incomplete needed ≠ some (.ok (.complete frame used)) := by
    rintro needed ⟨⟩
  have hrefuse : ∀ message, Parsed.protocol message ≠ some (.ok (.complete frame used)) := by
    rintro message ⟨⟩
  have hline : ∀ start k, onLine input start k ≠ some (.ok (.complete frame used)) := by
    intro start k
    rw [onLine_of_notMem h]
    exact hwait _
  cases lead with
  | line _ | integer | bulkString | aggregate _ | double | blobError | verbatimString =>
    exact hline 1 _
  | null =>
    show parseNull input ≠ _
    unfold parseNull
    have hne : input.take 3 ≠ 0x5f :: crlf := fun heq => htake 3 (by rw [heq]; decide)
    rw [if_pos hne]
    split
    · exact hwait _
    · exact hrefuse _
  | boolean =>
    show parseBoolean input ≠ _
    unfold parseBoolean
    have htrue : input.take 4 ≠ 0x23 :: 0x74 :: crlf := fun heq => htake 4 (by rw [heq]; decide)
    have hfalse : input.take 4 ≠ 0x23 :: 0x66 :: crlf := fun heq => htake 4 (by rw [heq]; decide)
    rw [if_neg htrue, if_neg hfalse]
    split
    · exact hwait _
    · exact hrefuse _
  | lineBreak => exact hrefuse _
  | other =>
    show (if inline then parseInline input else _) ≠ _
    split
    · exact hline 0 _
    · exact hrefuse _

theorem not_oneFrame_of_notMem (h : cr ∉ input) : ¬OneFrame std input := by
  rintro ⟨frame, hparse⟩
  cases input with
  | nil => cases hparse
  | cons first rest => exact parseLead_of_notMem h _ true _ frame _ hparse

theorem parse_errorMessage (text : Bytes) : parse std (errorMessage text) =
      onLine (errorMessage text) 1 fun line consumed => .complete (.simpleError line) consumed :=
        rfl

/-- A carriage return in an error ends the line too early. -/
theorem parse_errorMessage_of_mem (std : FloatStd) (h : cr ∈ text) :
    (∃ needed, parse std (errorMessage text) = some (.ok (.incomplete needed))) ∨
      ∃ frame used, used ≠ (errorMessage text).length ∧
        parse std (errorMessage text) = some (.ok (.complete frame used)) := by
  rw [parse_errorMessage, onLine]
  rcases hfind : findCrlf (errorMessage text) 1 with _ | found
  · exact .inl ⟨_, rfl⟩
  obtain ⟨line, consumed⟩ := found
  refine .inr ⟨.simpleError line, consumed, ?_, rfl⟩
  obtain ⟨pre, rest, hinput, hpre, hline, hconsumed⟩ := findCrlf_eq_some.1 hfind
  intro hall
  -- a line of the length of the text is the text, which has a carriage return
  have hlength : line.length = text.length := by
    simp only [errorMessage, writeError, length_cons, length_append, length_crlf] at hall
    omega
  have hbytes : text ++ crlf = line ++ (crlf ++ rest) := by
    obtain ⟨first, rfl⟩ := length_eq_one_iff.1 hpre
    exact (List.cons.inj hinput).2
  have htext : text = line := (append_inj hbytes hlength.symm).1
  exact hline (htext ▸ h)

/-- **An error message is one frame** unless its text has a carriage return. -/
theorem oneFrame_errorMessage : OneFrame std (errorMessage text) ↔ cr ∉ text := by
  constructor
  · rintro ⟨frame, hparse⟩ hmem
    rcases parse_errorMessage_of_mem std hmem with ⟨needed, hwait⟩ | ⟨_, used, hused, hshort⟩
    · rw [hwait] at hparse
      cases hparse
    · rw [hshort] at hparse
      cases hparse
      exact hused rfl
  · intro h
    exact ⟨_, (parses_error h).parse⟩

theorem oneFrame_serializeResponse {resp3 : Bool} (hsound : ResponseSound response)
    (hfits : (serializeResponse std resp3 response).length < 2 ^ 63) :
    OneFrame std (serializeResponse std resp3 response) :=
  ⟨_, (parses_response response hsound hfits).parse⟩

/-! ## The contract -/

namespace Coordinator

variable (c : Coordinator)

/-- A response of a shard is sound and fits in memory. -/
def Fits (response : Response) : Prop :=
  ResponseSound response ∧ (serializeResponse c.std c.resp3 response).length < 2 ^ 63

def AnswerSound : (request : Request) → request.Answer → Prop
  | .execute _ _ _, .response response => c.Fits response
  | .tempDispatch _ _, .ok response => ResponseSound response
  | _, _ => True

/-- No error of a sub-command is read, and no error of the temporary store has a carriage return.
An error of a sub-command that has one is harmless: it is not recognized. -/
def AnswerClean : (request : Request) → request.Answer → Prop
  | .execute _ _ _, .error text => cr ∈ text
  | .tempDispatch _ _, .error text => cr ∉ text
  | _, _ => True

instance : ∀ (request : Request) (answer : request.Answer), Decidable (AnswerClean request answer)
  | .execute _ _ _, .error text => inferInstanceAs (Decidable (cr ∈ text))
  | .execute _ _ _, .response _ | .execute _ _ _, .timeout => .isTrue trivial
  | .tempDispatch _ _, .error text => inferInstanceAs (Decidable (cr ∉ text))
  | .tempDispatch _ _, .ok _ => .isTrue trivial
  | .discard _ _ _, _ | .tempNew, _ | .tempEntry _, _ | .randomIndex _, _ => .isTrue trivial

def framing : Contract Request Request.Answer Bytes where
  Sound := c.AnswerSound
  Clean := AnswerClean
  Good e := ∃ text, cr ∉ text ∧ e = errorMessage text
  Bad e := ¬OneFrame c.std e

/-- The bytes of a sound response. -/
def Serialized (bytes : Bytes) : Prop :=
  ∃ response, ResponseSound response ∧ bytes = serializeResponse c.std c.resp3 response

variable {c} {α β : Type} {Q : α → Prop} {R : β → Prop}

theorem holds_fail (h : cr ∉ text) :
    (fail (errorMessage text) : Routed α).Holds c.framing Q := ⟨text, h, rfl⟩

theorem holds_failWith {text : List Char} (h : oneLine text = true) :
    (failWith (String.ofList text) : Routed α).Holds c.framing Q := holds_fail (cr_notMem_ascii h)

theorem holds_syntaxFailure : (syntaxFailure : Routed α).Holds c.framing Q := holds_failWith rfl

theorem holds_protocolError : (fail protocolError : Routed α).Holds c.framing Q :=
  holds_fail (by exact cr_notMem_ascii rfl)

theorem holds_reply (h : ResponseSound response) :
    (c.reply response).Holds c.framing c.Serialized := ⟨response, h, rfl⟩

theorem inI64_wrapI64 (n : Int) : InI64 (wrapI64 n) := by
  have hlow := Int.le_bmod (x := n) (m := 2 ^ 64) (by norm_num)
  have hhigh := Int.bmod_lt (x := n) (m := 2 ^ 64) (by norm_num)
  unfold wrapI64 InI64
  constructor <;> omega

/-! ## Readers -/

/-- A reader hands the text of an error on as it is. -/
structure Reads (read : Bytes → Routed α) : Prop where
  error : ∀ text, cr ∉ text → read (errorMessage text) = fail text
  broken : ∀ text, cr ∈ text → read (errorMessage text) = fail protocolError

theorem parseSingleResponseFrame_serialize (h : c.Fits response) :
    (c.parseSingleResponseFrame (serializeResponse c.std c.resp3 response) : Routed Resp.Frame) =
      done (responseFrame c.std c.resp3 response) := by
  have hparse : parse c.std (serializeResponse c.std c.resp3 response) = _ :=
    (parses_response response h.1 h.2).parse
  rw [parseSingleResponseFrame, hparse]
  exact if_pos rfl

/-- Every reader looks at the frame of the reply. -/
theorem reads_of_frame {k : Resp.Frame → Routed α} (h : ∀ text, k (.simpleError text) = fail text) :
    Reads fun bytes => c.parseSingleResponseFrame bytes >>= k where
  error text htext := by
    have hparse : parse c.std (errorMessage text) = _ := (parses_error htext).parse
    rw [parseSingleResponseFrame, hparse]
    dsimp only
    rw [if_pos (show (writeError text).length = (errorMessage text).length from rfl)]
    exact h text
  broken text htext := by
    rw [parseSingleResponseFrame]
    rcases parse_errorMessage_of_mem c.std htext with ⟨needed, hwait⟩ | ⟨_, used, hused, hshort⟩
    · rw [hwait]
      rfl
    · rw [hshort]
      dsimp only
      rw [if_neg hused, fail_bind]

theorem holds_executeOnly {shard : Nat} :
    (executeOnly shard command args).Holds c.framing fun _ => True := by
  intro answer _
  refine ⟨fun _ => ?_, fun hbad => absurd trivial hbad⟩
  cases answer with
  | response _ => trivial
  | error _ => trivial
  | timeout => exact holds_failWith rfl

variable (c Q) in
/-- What is done with the frames of responses holds. They are not errors, and the items of an array
are sound. -/
structure HoldsOnFrames (k : Resp.Frame → Routed α) : Prop where
  simpleString : ∀ value, (k (.simpleString value)).Holds c.framing Q
  bulkString : ∀ value, (k (.bulkString value)).Holds c.framing Q
  null : (k .null).Holds c.framing Q
  integer : ∀ value, InI64 value → (k (.integer value)).Holds c.framing Q
  array : ∀ items, AllResponsesSound items →
    (writeResponses c.std c.resp3 items).length < 2 ^ 63 →
      (k (.array ⟨.array, items.length, writeResponses c.std c.resp3 items, .resp⟩)).Holds
        c.framing Q
  map : ∀ aggregate, (k (.map aggregate)).Holds c.framing Q

theorem HoldsOnFrames.holds {k : Resp.Frame → Routed α} (hk : HoldsOnFrames c Q k)
    (h : c.Fits response) : (k (responseFrame c.std c.resp3 response)).Holds c.framing Q := by
  obtain ⟨hsound, hfits⟩ := h
  rw [serializeResponse] at hfits
  match response with
  | .simple value => exact hk.simpleString value
  | .value (some value) => exact hk.bulkString _
  | .value none => exact hk.null
  | .nullArray => exact hk.null
  | .integer value => exact hk.integer value hsound
  | .array items =>
    rw [writeResponse, length_append] at hfits
    exact hk.array items hsound (by omega)
  | .map items =>
    rw [writeResponse, length_append] at hfits
    rw [responseFrame]
    split
    · exact hk.map _
    · exact hk.array items hsound.2 (by omega)

variable (c Q) in
/-- A reader that does well on every response, too. -/
structure ReadsAs (read : Bytes → Routed α) : Prop extends Reads read where
  response : ∀ response, c.Fits response →
    (read (serializeResponse c.std c.resp3 response)).Holds c.framing Q

/-- A reader is judged by what it does with the frame. -/
theorem readsAs_of_frame {k : Resp.Frame → Routed α} (h : ∀ text, k (.simpleError text) = fail text)
    (hk : HoldsOnFrames c Q k) :
    ReadsAs c Q fun bytes => c.parseSingleResponseFrame bytes >>= k where
  toReads := reads_of_frame h
  response response hfits := by
    rw [parseSingleResponseFrame_serialize hfits]
    exact hk.holds hfits

theorem ReadsAs.bind {read : Bytes → Routed α} (h : ReadsAs c Q read) {f : α → Routed β}
    (hf : ∀ a, Q a → (f a).Holds c.framing R) : ReadsAs c R fun bytes => read bytes >>= f where
  error text htext := by rw [h.error text htext, fail_bind]
  broken text htext := by rw [h.broken text htext, fail_bind]
  response response hfits := (h.response response hfits).bind hf

/-- **A sub-command whose reply is read**: the plan goes on with a response, and stops at an
error. -/
theorem holds_execute {read : Bytes → Routed α} {k : Bytes → α → Routed β} {shard : Nat}
    (hread : ReadsAs c Q read) (hk : ∀ response a, c.Fits response → Q a →
      (k (serializeResponse c.std c.resp3 response) a).Holds c.framing R) :
    (c.execute shard command args >>= fun bytes => read bytes >>= k bytes).Holds c.framing R := by
  intro answer hsound
  cases answer with
  | response response =>
    refine ⟨fun _ => ?_, fun hbad => absurd trivial hbad⟩
    exact (hread.response response hsound).bind fun a ha => hk response a hsound ha
  | error text =>
    constructor
    · intro hmem
      show (read (errorMessage text) >>= k (errorMessage text)).Holds c.framing R
      rw [hread.broken text hmem, fail_bind]
      exact holds_protocolError
    · intro htext
      refine ⟨text, ?_, not_oneFrame_of_notMem htext⟩
      show (read (errorMessage text) >>= k (errorMessage text)) = fail text
      rw [hread.error text htext, fail_bind]
  | timeout =>
    exact ⟨fun _ => holds_failWith rfl, fun hbad => absurd trivial hbad⟩

theorem frames_writeResponses {items : List Response} (hsound : AllResponsesSound items)
    (hfits : (writeResponses c.std c.resp3 items).length < 2 ^ 63) :
    Aggregate.frames c.std ⟨.array, items.length, writeResponses c.std c.resp3 items, .resp⟩ =
      some (items.map fun item => .ok (responseFrame c.std c.resp3 item)) := by
  have helements : ∀ e ∈ items.map (responseElement c.std c.resp3), Parses c.std e.1 e.2 :=
    parses_responses items hsound hfits
  have hcollect : FrameIter.collect c.std (items.length + 1)
      (Aggregate.iter ⟨.array, items.length, writeResponses c.std c.resp3 items, .resp⟩) = _ :=
    collect_elements helements [] rfl (writeResponses_eq items) rfl (Nat.zero_add _)
      (by rw [length_map])
  rw [← map_take, map_map, take_length] at hcollect
  exact hcollect

theorem collectItems_bulkString {item : Resp.Frame → Routed Bytes}
    (hitem : ∀ bytes, item (.bulkString bytes) = done bytes) (members : List Bytes) :
    c.collectItems item (members.map fun member => .ok (.bulkString member)) = done members := by
  induction members with
  | nil => rfl
  | cons member members ih =>
    show (item (.bulkString member) >>= fun value =>
      c.collectItems item _ >>= fun values => done (value :: values)) = _
    rw [hitem, done_bind, ih]
    rfl

/-- A list of texts is read back. -/
theorem parseBulkArrayResponse_raw {members : List Bytes} (h : c.Fits (rawArrayResponse members)) :
    (c.parseBulkArrayResponse (serializeResponse c.std c.resp3 (rawArrayResponse members)) :
      Routed (List Bytes)) = done members := by
  have hfits : (writeResponses c.std c.resp3
      (members.map fun member => .value (some (.raw member)))).length < 2 ^ 63 := by
    have hlength := h.2
    rw [serializeResponse, rawArrayResponse, writeResponse, length_append] at hlength
    omega
  have hframes := frames_writeResponses (show AllResponsesSound _ from h.1) hfits
  rw [map_map] at hframes
  rw [parseBulkArrayResponse, parseArrayResponse, parseSingleResponseFrame_serialize h, done_bind]
  show (unwrap (Aggregate.frames c.std _) >>= c.collectItems _) = _
  rw [hframes]
  exact collectItems_bulkString (fun _ => rfl) members

theorem parseTypeNameResponse_simple {name : Bytes} (h : c.Fits (.simple name)) :
    (c.parseTypeNameResponse (serializeResponse c.std c.resp3 (.simple name)) : Routed Bytes) =
      done name := by
  rw [parseTypeNameResponse, parseSingleResponseFrame_serialize h]
  rfl

theorem reads_parseIntegerResponse : ReadsAs c InI64 c.parseIntegerResponse := by
  apply readsAs_of_frame fun _ => rfl
  constructor
  case integer => exact fun _ hvalue => hvalue
  all_goals intros; exact holds_protocolError

theorem reads_ensureOk : ReadsAs c (fun _ => True) c.ensureOk := by
  have hok : ReadsAs c (fun _ => True) c.parseOkResponse := by
    apply readsAs_of_frame fun _ => rfl
    constructor
    case simpleString => exact fun _ => trivial
    all_goals intros; exact holds_protocolError
  apply hok.bind
  intro ok _
  cases ok with
  | true => trivial
  | false => exact holds_protocolError

theorem reads_isNullResponse : ReadsAs c (fun _ => True) c.isNullResponse := by
  apply readsAs_of_frame fun _ => rfl
  constructor
  all_goals intros; trivial

theorem reads_parseTypeNameResponse : ReadsAs c (fun _ => True) c.parseTypeNameResponse := by
  apply readsAs_of_frame fun _ => rfl
  constructor
  case simpleString => exact fun _ => trivial
  case bulkString => exact fun _ => trivial
  all_goals intros; exact holds_protocolError

theorem reads_parseOptionalBytesResponse :
    ReadsAs c (fun _ => True) c.parseOptionalBytesResponse := by
  apply readsAs_of_frame fun _ => rfl
  constructor
  case simpleString => exact fun _ => trivial
  case bulkString => exact fun _ => trivial
  case null => trivial
  all_goals intros; exact holds_protocolError

/-- The items of an array are read one by one, and none of them is an error. -/
theorem reads_parseArrayResponse {item : Resp.Frame → Routed α} (hitem : HoldsOnFrames c Q item) :
    ReadsAs c (fun values => ∀ value ∈ values, Q value) (c.parseArrayResponse item) := by
  apply readsAs_of_frame fun _ => rfl
  constructor
  case array =>
    intro items hsound hfits
    show (unwrap (Aggregate.frames c.std _) >>= c.collectItems item).Holds _ _
    rw [frames_writeResponses hsound hfits]
    show (c.collectItems item _).Holds _ _
    induction items with
    | nil => exact fun _ hmem => absurd hmem not_mem_nil
    | cons first items ih =>
      rw [writeResponses, length_append] at hfits
      apply (hitem.holds ⟨hsound.1, show (writeResponse _ _ _).length < _ by omega⟩).bind
      intro value hvalue
      apply (ih hsound.2 (by omega)).bind
      intro values hvalues
      exact forall_mem_cons.2 ⟨hvalue, hvalues⟩
  all_goals intros; exact holds_protocolError

theorem reads_parseBulkArrayResponse :
    ReadsAs c (fun values => ∀ value ∈ values, True) c.parseBulkArrayResponse := by
  apply reads_parseArrayResponse
  constructor
  case simpleString => exact fun _ => trivial
  case bulkString => exact fun _ => trivial
  case null => trivial
  all_goals intros; exact holds_protocolError

theorem reads_parseMgetResponse :
    ReadsAs c (fun values => ∀ value ∈ values, ResponseSound value) c.parseMgetResponse := by
  apply reads_parseArrayResponse
  constructor
  case simpleString => exact fun _ => trivial
  case bulkString => exact fun _ => trivial
  case null => trivial
  all_goals intros; exact holds_protocolError

end Coordinator

end Senko.Net
