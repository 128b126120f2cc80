import Rikitiki.Incoming.HeadLines
import Rikitiki.RoundTrip

/-!
# What header values can do to a response

`WriteHeader` sends a name and a value as they are, and a reader takes what it finds between two line ends
for a line. So a response is read back as it was written when its names and values are text on one line, and
when what they say about the body is true of it; otherwise it is not.
-/

namespace Rikitiki

namespace IResponseMemory

open BufferedReader (Loop)

/-! ### Bodies that are read to their last byte -/

theorem Transition.length_body_le {m m' : IResponseMemory} {data : Str} (h : Transition m data m') :
    m'.derived.body.length ≤ m.derived.body.length + data.length := by
  cases h with
  | chunk hstate hbody hexpected hsize =>
      simp only [afterChunk_derived_body, writeBody_derived_body, List.length_append,
        List.length_take_of_le hsize]
      omega
  | knownSize hstate hbody hdata =>
      simp only [finishBody_derived_body, afterBody_derived, writeBody_derived_body, List.length_append]
      omega
  | stream hstate hbody =>
      rw [writeBody_derived_body, List.length_append]
  | _ => exact Nat.le_add_right _ _

theorem Loop.length_body_le {m m' : IResponseMemory} {data : Str} {calls : List (IResponseMemory × Str)}
    {outcome : Outcome IResponseMemory} {value : Bool} (h : Loop onBufferedData [nul] m data calls outcome)
    (houtcome : outcome = .returns value m') :
    m'.derived.body.length ≤ m.derived.body.length + (calls.map fun call => call.2.length).sum := by
  induction h with
  | idle reader =>
      obtain ⟨-, rfl⟩ := Outcome.returns.inj houtcome
      exact Nat.le_add_right _ _
  | cantProcess hdata hpass =>
      obtain ⟨-, rfl⟩ := Outcome.returns.inj houtcome
      rcases BufferedReader.pass_eq_cantProcess hpass with ⟨-, hreader⟩ | ⟨-, rfl, -⟩
      · rw [hreader]
        exact Nat.le_add_right _ _
      · exact Nat.le_add_right _ _
  | handOver hdata hpass => simpa using (transition_of_returns houtcome).1.length_body_le
  | finishes hdata hpass hcall =>
      obtain ⟨-, rfl⟩ := Outcome.returns.inj houtcome
      have hle := (transition_of_returns hcall).1.length_body_le
      rw [BufferedReader.derived_of_deliver hpass] at hle
      simpa using hle
  | fails hdata hpass hcall hfails => exact absurd houtcome (hfails value m')
  | goesOn hdata hpass hcall hrest ih =>
      have hle := (transition_of_returns hcall).1.length_body_le
      have hlast := ih houtcome
      rw [BufferedReader.derived_of_deliver hpass] at hle
      rw [BufferedReader.clear_derived] at hlast
      simp only [List.map_cons, List.sum_cons]
      omega

/-- A line of a chunked body is not written whole. -/
theorem Chunking.length_body_lt {m block next : IResponseMemory} {data rest : Str} {value : Bool}
    (hm : Chunking m) (hpass : m.pass data [nul] = .deliver block rest)
    (hcall : block.onBufferedData block.buffer = .returns value next) :
    next.derived.body.length < m.derived.body.length + block.buffer.length := by
  obtain ⟨hsize, hderived, hmode, -, hstays⟩ := expectedSize_of_deliver hm.framed hpass
  have hpos : 0 < block.buffer.length := by
    rcases BufferedReader.pass_eq_deliver hpass with ⟨length, -, hline, hle, -, rfl⟩ | ⟨hlength, -⟩
    · have hpos := (lineLength_nul hline).1
      rw [List.length_append, List.length_take_of_le hle]
      omega
    · rw [hm.mode] at hlength
      cases hlength
  have hstate : block.derived.streamState = .body := by rw [hderived, hm.state]
  have htype : block.derived.bodyType = .chunked := by rw [hderived, hm.type]
  rw [← hderived]
  cases (transition_of_returns hcall).1 with
  | chunkSize => exact Nat.lt_add_of_pos_right hpos
  | chunk _ _ _ hfits =>
      rw [afterChunk_derived_body, writeBody_derived_body, List.length_append,
        List.length_take_of_le hfits]
      rw [hsize] at hfits ⊢
      by_cases htwo : 2 ≤ block.buffer.length
      · rw [sizeSub_of_le htwo]
        omega
      · rw [sizeSub, if_neg htwo] at hfits
        omega
  | _ => simp_all

theorem completes_chunkReader_lt {status status' : HttpStatus} {data body : Str} {n : Nat}
    (h : (chunkReader status).completes data = some (n, status', body)) : body.length < n := by
  have hm : Chunking (chunkReader status) := ⟨rfl, rfl, rfl⟩
  rw [completes] at h
  split at h
  · rename_i next hdata
    obtain ⟨rfl, -, rfl⟩ : taken (chunkReader status) data = n ∧ next.derived.status = status' ∧
        next.derived.body = body := by simpa using h
    have hloop := loop_onData hm.framed data
    rw [hdata] at hloop
    rw [taken]
    generalize (chunkReader status).onDataCalls data = calls at hloop
    cases hloop with
    | finishes hne hpass hcall => simpa [chunkReader] using hm.length_body_lt hpass hcall
    | fails hne hpass hcall hfails => exact absurd rfl (hfails true next)
    | goesOn hne hpass hcall hrest =>
        have hlt := hm.length_body_lt hpass hcall
        have hle := Loop.length_body_le hrest rfl
        simp only [BufferedReader.clear_derived, chunkReader, List.length_nil, List.map_cons,
          List.sum_cons] at hlt hle ⊢
        omega
  · cases h

/-- What the headers say about a body is true of it. -/
def Extent.Fits (body : Str) : Extent → Prop
  | .empty => body = []
  | .length n => n ≤ body.length
  | .line => BufferedReader.lineLength (body ++ [nul]) = some body.length
  | .chunks => False
  | .unbounded => False

instance (body : Str) (extent : Extent) : Decidable (extent.Fits body) :=
  match extent with
  | .empty => inferInstanceAs (Decidable (body = []))
  | .length n => inferInstanceAs (Decidable (n ≤ body.length))
  | .line => inferInstanceAs (Decidable (BufferedReader.lineLength (body ++ [nul]) = some body.length))
  | .chunks => .isFalse id
  | .unbounded => .isFalse id

/-- **A body is read to its last byte**, and as it is, when what the headers say is true of it. -/
theorem Extent.completes_all_iff {status : HttpStatus} {body : Str} {extent : Extent} :
    extent.completes status body = some (body.length, status, body) ↔ extent.Fits body := by
  cases extent with
  | empty =>
      rw [Extent.completes, Fits]
      constructor
      · intro h
        exact (Prod.mk.inj (Prod.mk.inj (Option.some.inj h)).2).2.symm
      · rintro rfl
        rfl
  | length n => simp [Extent.completes, Fits]
  | line =>
      rw [Extent.completes, Fits, Option.map_eq_some_iff]
      constructor
      · rintro ⟨n, hline, h⟩
        rw [hline, (Prod.mk.inj h).1]
      · intro hline
        exact ⟨body.length, hline, by rw [List.take_length]⟩
  | chunks => exact iff_of_false (fun h => (completes_chunkReader_lt h).false) id
  | unbounded => simp [Extent.completes, Fits]

end IResponseMemory

/-! ### Headers on lines -/

theorem newlines_headerLine (header : Header) :
    newlines (headerLine header) = newlines header.name + newlines header.value + 2 := by
  have hcolon : newlines (lit ": ") = 0 := by decide
  simp only [headerLine, newlines_append, newlines_crlf, hcolon, Nat.add_zero]

theorem fieldLines_cons (field : Header) (fields : List Header) :
    fieldLines (field :: fields) = headerLine field ++ fieldLines fields := rfl

theorem le_newlines_fieldLines (fields : List Header) : 2 * fields.length ≤ newlines (fieldLines fields) := by
  induction fields with
  | nil => exact Nat.zero_le _
  | cons field fields ih =>
      rw [fieldLines_cons, newlines_append, newlines_headerLine, List.length_cons]
      omega

/-- **Headers that are sent with two newline characters each are plain.** -/
theorem plain_of_newlines_fieldLines {fields : List Header}
    (hle : newlines (fieldLines fields) ≤ 2 * fields.length) (hnul : nul ∉ fieldLines fields) :
    ∀ field ∈ fields, Plain field.name ∧ Plain field.value := by
  induction fields with
  | nil => simp
  | cons field fields ih =>
      have hrest := le_newlines_fieldLines fields
      rw [fieldLines_cons, newlines_append, newlines_headerLine, List.length_cons] at hle
      rw [fieldLines_cons, List.mem_append, not_or] at hnul
      obtain ⟨hfield, hfields⟩ := hnul
      have hname : nul ∉ field.name := fun h => hfield (by simp [headerLine, h])
      have hvalue : nul ∉ field.value := fun h => hfield (by simp [headerLine, h])
      rw [List.forall_mem_cons, plain_iff_newlines, plain_iff_newlines]
      exact ⟨⟨⟨by omega, hname⟩, by omega, hvalue⟩, ih (by omega) hfields⟩

/-- What the head of a response says once it is read: the lines that are sent for its headers, and the one
with the length of the payload. -/
def headersReadBack (headers : List Header) (size : Nat) : HeaderCollection :=
  .addAll ∅ ((headers ++ [lengthField size]).map fun header => readHeader (headerLine header))

theorem statusLine_ok : statusLine .ok = lit "HTTP/1.1 200 OK" ++ crlf := by decide

theorem exists_plain_head {headers : List Header}
    (hplain : ∀ header ∈ headers, Plain header.name ∧ Plain header.value) (body : Str) :
    ∃ head : ResponseHead, setStartline (head.startLine ++ crlf) = some .ok ∧
      render .ok headers body = head.bytes ++ body ∧ head.lines.length = headers.length + 1 ∧
      head.headers = headersReadBack headers body.length := by
  have hall : ∀ line ∈ (headers ++ [lengthField body.length]).map Header.line, Plain line ∧ line ≠ [] := by
    intro line hline
    obtain ⟨field, hfield, rfl⟩ := List.mem_map.mp hline
    rcases List.mem_append.mp hfield with hfield | hfield
    · exact Header.line_plain (hplain field hfield)
    · rw [List.mem_singleton.mp hfield]
      exact Header.line_plain ⟨(sendable_lengthField _).plain_name, plain_decimal body.length⟩
  refine ⟨⟨lit "HTTP/1.1 200 OK", (headers ++ [lengthField body.length]).map Header.line, plain_ok, hall⟩,
    ?_, ?_, ?_, ?_⟩
  · exact statusLine_ok ▸ setStartline_statusLine sendable_ok
  · rw [render, statusLine_ok]
    simp only [ResponseHead.bytes, linesBytes_map_line, List.append_assoc]
  · simp only [List.length_map, List.length_append, List.length_singleton]
  · rw [ResponseHead.headers, linesHeaders, List.map_map]
    rfl

/-! ### Responses -/

def writes (headers : List Header) (payload : List Str) : List Op :=
  headers.map (fun header => .field (.header header)) ++ payload.map .payload

/-- What is sent for the headers and the payload. -/
def sentBytes (headers : List Header) (payload : List Str) : Str :=
  (OResponseWriter.closed (writes headers payload)).wire

theorem acceptedFields_writes (headers : List Header) (payload : List Str) :
    acceptedFields (writes headers payload) = headers := by
  induction headers with
  | nil =>
      cases payload with
      | nil => rfl
      | cons data payload => rfl
  | cons header headers ih => exact congrArg (header :: ·) ih

theorem statusInEffect_writes (headers : List Header) (payload : List Str) :
    statusInEffect .ok (writes headers payload) = .ok := by
  cases headers with
  | nil =>
      cases payload with
      | nil => rfl
      | cons data payload => rfl
  | cons header headers => rfl

theorem payloadOf_writes (headers : List Header) (payload : List Str) :
    payloadOf (writes headers payload) = payload.flatten := by
  have hheaders : payloadOf (headers.map fun header => .field (.header header)) = [] := by
    simp [payloadOf, Op.data]
  have hpayload : payloadOf (payload.map .payload) = payload.flatten := by
    rw [payloadOf, List.flatMap_map]
    simp [Op.data]
  rw [writes, payloadOf, List.flatMap_append]
  exact (congrArg₂ (· ++ ·) hheaders hpayload).trans (List.nil_append _)

theorem sentBytes_eq (headers : List Header) (payload : List Str) :
    sentBytes headers payload = render .ok headers payload.flatten := by
  rw [sentBytes, OResponseWriter.closed_wire, acceptedFields_writes, statusInEffect_writes, payloadOf_writes]

open IResponseMemory in
/-- **What is sent is read back as one response**: one call on all of it finishes the message with the
payload for a body, no more header lines are read than were written, and the head ends where the payload
begins. -/
structure ReadsBack (headers : List Header) (payload : List Str) : Prop where
  completes : fresh.completes (sentBytes headers payload)
    = some ((sentBytes headers payload).length, .ok, payload.flatten)
  lines : (headerLines (fresh.onDataCalls (sentBytes headers payload))).length ≤ headers.length + 1
  head : (headBlocks (fresh.onDataCalls (sentBytes headers payload))).flatten ++ payload.flatten
    = sentBytes headers payload

section Reading

open IResponseMemory

variable {headers : List Header} {payload : List Str}

theorem ReadsBack.plain (h : ReadsBack headers payload) :
    ∀ header ∈ headers, Plain header.name ∧ Plain header.value := by
  have hloop := loop_onData framed_fresh (sentBytes headers payload)
  obtain ⟨hle, hnul⟩ := Loop.newlines_headBlocks hloop heading_fresh
  have hhead : (headBlocks (fresh.onDataCalls (sentBytes headers payload))).flatten = statusLine .ok
      ++ (fieldLines (headers ++ [lengthField payload.flatten.length]) ++ crlf) := by
    have hall := h.head
    conv_rhs at hall => rw [sentBytes_eq, render, ← List.append_assoc, ← List.append_assoc]
    rw [List.append_cancel_right hall, List.append_assoc]
  have hlines := h.lines
  have hstart : newlines (statusLine .ok) = 2 := by decide
  rw [hhead, newlines_append, newlines_append, newlines_crlf, hstart,
    if_pos (show fresh.derived.streamState = .startLine from rfl)] at hle
  rw [hhead] at hnul
  have hplain : ∀ field ∈ headers ++ [lengthField payload.flatten.length],
      Plain field.name ∧ Plain field.value := by
    apply plain_of_newlines_fieldLines
    · rw [List.length_append, List.length_singleton]
      omega
    · intro hmem
      exact hnul (List.mem_append_right _ (List.mem_append_left _ hmem))
  intro field hfield
  exact hplain field (List.mem_append_left _ hfield)

theorem readsBack_of_plain (hplain : ∀ header ∈ headers, Plain header.name ∧ Plain header.value) :
    ReadsBack headers payload ↔
      (extent (headersReadBack headers payload.flatten.length)).Fits payload.flatten := by
  obtain ⟨head, hstatus, hrender, hlines, hheaders⟩ := exists_plain_head hplain payload.flatten
  have hsent : sentBytes headers payload = head.bytes ++ payload.flatten :=
    (sentBytes_eq headers payload).trans hrender
  have hcompletes : fresh.completes (sentBytes headers payload)
        = some ((sentBytes headers payload).length, .ok, payload.flatten) ↔
      (extent (headersReadBack headers payload.flatten.length)).Fits payload.flatten := by
    rw [hsent, completes_head hstatus, hheaders, List.length_append, ← behind_some,
      (behind_injective _).eq_iff, Extent.completes_all_iff]
  constructor
  · exact fun h => hcompletes.mp h.completes
  · intro hfits
    obtain ⟨hblocks, hcount⟩ := headBlocks_head hstatus payload.flatten
    refine ⟨hcompletes.mpr hfits, ?_, ?_⟩
    · rw [hsent, hcount, hlines]
    · rw [hsent, hblocks]

end Reading

open IResponseMemory in
/-- **When header values do no harm.** A response is read back as it was written if and only if each name
and value is plain, and what the lines then say about the body is true of the payload. -/
theorem readsBack_iff (headers : List Header) (payload : List Str) :
    ReadsBack headers payload ↔ (∀ header ∈ headers, Plain header.name ∧ Plain header.value) ∧
      (extent (headersReadBack headers payload.flatten.length)).Fits payload.flatten := by
  constructor
  · intro h
    exact ⟨h.plain, (readsBack_of_plain h.plain).mp h⟩
  · rintro ⟨hplain, hfits⟩
    exact (readsBack_of_plain hplain).mpr hfits

/-- A value with a line end in it is read as two headers. -/
theorem not_forall_readsBack : ¬ ∀ (headers : List Header) (payload : List Str), ReadsBack headers payload := by
  intro h
  have hlines := (h [⟨lit "Set-Cookie", lit "a=b\r\nX: y"⟩] [lit "hi"]).lines
  exact absurd hlines (by decide)

end Rikitiki
