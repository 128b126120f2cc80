import Rikitiki.HeaderInjection
import Rikitiki.Incoming.CloseDelimited

/-!
# The text of a message

`operator<<` writes a message to a stream and `MakeRequest` sends one. Both end a line with a single newline
character, and a reader takes two that follow each other for one line end. So the last line of a head takes
the newline character behind it, and the head is ended by what comes then: by the second empty line that
`operator<<` writes, and the first byte of the body if this is a newline character too. `MakeRequest` writes
no second one, and what it sends for the body is read as headers.
-/

namespace Rikitiki

structure Message where
  startline : Str
  headers : HeaderCollection
  body : Str

/-- `operator<<(std::ostream&, const Message&)` -/
def Message.text (message : Message) : Str :=
  message.startline ++ [lf]
    ++ message.headers.fields.flatMap (fun header => header.name ++ lit ": " ++ header.value ++ [lf])
    ++ [lf] ++ [lf]
    ++ message.body

/-- `SimpleRequestClient::MakeRequest`: what is sent, `host` being the text of the name. The strings of the
request go through an `operator<<` that takes them for C strings. -/
def SimpleRequestClient.makeRequest (host : Str) (request : Message) : Str :=
  cstr request.startline ++ [lf]
    ++ (lit "Host: " ++ host ++ [lf])
    ++ request.headers.fields.flatMap
      (fun header => cstr header.name ++ lit ": " ++ cstr header.value ++ [lf])
    ++ [lf]
    ++ cstr request.body

/-- The start line is one line, the headers can be sent, and their length is that of the body. -/
structure Message.Sendable (message : Message) : Prop where
  startline : Plain message.startline
  headers : ∀ header ∈ message.headers.fields, header.Sendable
  contentLength : contentLength message.headers = message.body.length
  size : message.body.length < npos

def fieldText (fields : List Header) : Str := fields.flatMap fun header => header.line ++ [lf]

theorem Message.text_eq (message : Message) :
    message.text = message.startline
      ++ lf :: (fieldText message.headers.fields ++ lf :: (lf :: message.body)) := by
  simp [text, fieldText, Header.line]

theorem SimpleRequestClient.makeRequest_eq {host : Str} {request : Message} (h : request.Sendable) :
    makeRequest host request = request.startline
      ++ lf :: (fieldText (⟨lit "Host", host⟩ :: request.headers.fields) ++ lf :: cstr request.body) := by
  have hfields : request.headers.fields.flatMap
        (fun header => cstr header.name ++ lit ": " ++ cstr header.value ++ [lf])
      = fieldText request.headers.fields := by
    refine List.flatMap_congr fun header hheader => ?_
    have hheader := h.headers header hheader
    rw [cstr_eq_self hheader.plain_name.nul_notMem, cstr_eq_self hheader.value_plain.nul_notMem,
      Header.line]
  rw [makeRequest, hfields, cstr_eq_self h.startline.nul_notMem]
  simp [fieldText, Header.line, lit]

namespace IResponseMemory

open BufferedReader (Loop)

/-- One call on all of the data finishes a message with these headers and this body. -/
def ReadsWhole (m : IResponseMemory) (data : Str) (headers : HeaderCollection) (body : Str) : Prop :=
  ∃ next, m.onData data = .returns true next ∧ m.taken data = data.length ∧
    next.derived.headers = headers ∧ next.derived.body = body

/-! ### Reading a head -/

/-- A call on some data goes on as a call of another reader on the rest of it. -/
structure Continues (m : IResponseMemory) (data : Str) (next : IResponseMemory) (rest : Str) : Prop where
  onData : m.onData data = next.onData rest
  taken : m.taken data + rest.length = next.taken rest + data.length

theorem Continues.trans {m next last : IResponseMemory} {data rest final : Str}
    (h : Continues m data next rest) (hrest : Continues next rest last final) :
    Continues m data last final where
  onData := h.onData.trans hrest.onData
  taken := by
    have := h.taken
    have := hrest.taken
    omega

theorem Continues.readsWhole_iff {m next : IResponseMemory} {data rest : Str}
    (h : Continues m data next rest) {headers : HeaderCollection} {body : Str} :
    m.ReadsWhole data headers body ↔ next.ReadsWhole rest headers body := by
  have htaken : m.taken data = data.length ↔ next.taken rest = rest.length := by
    have := h.taken
    omega
  rw [ReadsWhole, ReadsWhole, h.onData, htaken]

def withBlock (m : IResponseMemory) (block : Str) : IResponseMemory :=
  { m with expectedSize := block.length, buffer := block }

theorem pass_block {m : IResponseMemory} (hmode : m.bufferMode = .newline) (hbuffer : m.buffer = [])
    {block rest : Str}
    (hfound : BufferedReader.lineLength (block ++ rest ++ [nul]) = some block.length) :
    m.pass (block ++ rest) [nul] = .deliver (m.withBlock block) rest := by
  rw [pass_of_found_line hmode block rest hfound, hbuffer, withBlock, List.nil_append, List.length_nil,
    Nat.zero_add]

theorem continues_block {m next : IResponseMemory} (hmode : m.bufferMode = .newline)
    (hbuffer : m.buffer = []) {block rest : Str} (hblock : block ≠ [])
    (hfound : BufferedReader.lineLength (block ++ rest ++ [nul]) = some block.length)
    (hcall : (m.withBlock block).onBufferedData block = .returns false next) :
    Continues m (block ++ rest) next.clear rest := by
  have hm : Framed m := .of_newline hmode
  have hdata : block ++ rest ≠ [] := by simp [hblock]
  have hpass := pass_block hmode hbuffer hfound
  refine ⟨onData_of_goesOn hm hdata hpass hcall, ?_⟩
  have htaken : m.taken (block ++ rest) = block.length + taken next.clear rest :=
    taken_of_goesOn hm hdata hpass hcall
  rw [htaken, List.length_append]
  omega

/-- What a reader leaves of the text behind the newline character of a line. -/
def behindNewline (text : Str) : Str := if (text.head?).any isNewline then text.tail else text

theorem exists_ending {line : Str} (hline : Plain line) (text : Str) :
    ∃ ending, line ++ lf :: text = line ++ ending ++ behindNewline text ∧ LineEnding ending ∧
      BufferedReader.lineLength (line ++ ending ++ behindNewline text ++ [nul])
        = some (line ++ ending).length := by
  have hlf : isNewline lf = true := by decide
  have hnul : isNewline nul = false := by decide
  have hlength := lineLength_of_plain hline hlf text
  cases text with
  | nil =>
      refine ⟨[lf], by simp [behindNewline], ⟨by simp, by simp [hlf]⟩, ?_⟩
      simpa [behindNewline, hnul] using hlength
  | cons b text =>
      cases hb : isNewline b with
      | true =>
          refine ⟨[lf, b], by simp [behindNewline, hb], ⟨by simp, by simp [hlf, hb]⟩, ?_⟩
          simpa [behindNewline, hb] using hlength
      | false =>
          refine ⟨[lf], by simp [behindNewline, hb], ⟨by simp, by simp [hlf]⟩, ?_⟩
          simpa [behindNewline, hb] using hlength

structure InHeaders (m : IResponseMemory) (status : HttpStatus) (headers : HeaderCollection) : Prop where
  mode : m.bufferMode = .newline
  buffer : m.buffer = []
  derived : m.derived = inHeaders status headers

/-- A line is taken, whatever ends it, and leads to some headers. -/
def TakesLine (m : IResponseMemory) (line : Str) (status : HttpStatus) (headers : HeaderCollection) : Prop :=
  ∀ ending, LineEnding ending → ∃ next,
    (m.withBlock (line ++ ending)).onBufferedData (line ++ ending) = .returns false next ∧
      InHeaders next.clear status headers

theorem takesLine_startline {startline : Str} {status : HttpStatus} (hplain : Plain startline)
    (hstatus : setStartline (startline ++ crlf) = some status) : TakesLine fresh startline status ∅ := by
  intro ending hending
  refine ⟨((fresh.withBlock (startline ++ ending)).setStatus status).setState .headers, ?_, rfl, rfl, rfl⟩
  apply onBufferedData_startline rfl
  exact (setStartline_of_ending hplain hending).trans hstatus

theorem takesLine_header {m : IResponseMemory} {status : HttpStatus} {headers : HeaderCollection}
    (hm : InHeaders m status headers) {header : Header} (hheader : header.Sendable) :
    TakesLine m header.line status (headers.add header.name header.value) := by
  intro ending hending
  have hread : readHeader (header.line ++ ending) = header :=
    readHeader_line hheader fun b hb => hending.newline b (List.mem_of_mem_head? hb)
  obtain ⟨hplain, hne⟩ := Header.line_plain ⟨hheader.plain_name, hheader.value_plain⟩
  have hstate : (m.withBlock (header.line ++ ending)).derived.streamState = .headers :=
    congrArg IResponse.streamState hm.derived
  refine ⟨(m.withBlock (header.line ++ ending)).onHeader header, ?_, hm.mode, rfl, ?_⟩
  · rw [onBufferedData_field hstate (hplain.head_append hne ending), hread]
  · simp [withBlock, BufferedReader.clear, onHeader, hm.derived, inHeaders]

/-- **A head is read line by line.** The last line takes the newline character behind it. -/
theorem continues_head {fields : List Header} (hfields : ∀ field ∈ fields, field.Sendable)
    {m : IResponseMemory} (hmode : m.bufferMode = .newline) (hbuffer : m.buffer = []) {line : Str}
    (hline : Plain line) {status : HttpStatus} {headers : HeaderCollection}
    (htakes : TakesLine m line status headers) (rest : Str) :
    ∃ next, Continues m (line ++ lf :: (fieldText fields ++ lf :: rest)) next rest ∧
      InHeaders next status (headers.addAll fields) := by
  induction fields generalizing m line headers with
  | nil =>
      obtain ⟨ending, hsplit, hending, hfound⟩ := exists_ending hline (lf :: rest)
      obtain ⟨next, hcall, hnext⟩ := htakes ending hending
      have hcontinues := continues_block hmode hbuffer (by simp [hending.ne_nil]) hfound hcall
      rw [← hsplit] at hcontinues
      exact ⟨next.clear, hcontinues, hnext⟩
  | cons field fields ih =>
      have hfield := hfields field (by simp)
      obtain ⟨hplain, hne⟩ := Header.line_plain ⟨hfield.plain_name, hfield.value_plain⟩
      have htext : fieldText (field :: fields) ++ lf :: rest
          = field.line ++ lf :: (fieldText fields ++ lf :: rest) := by
        simp [fieldText]
      have hbehind : behindNewline (field.line ++ lf :: (fieldText fields ++ lf :: rest))
          = field.line ++ lf :: (fieldText fields ++ lf :: rest) := by
        rw [behindNewline, hplain.head_append hne, if_neg (by simp)]
      obtain ⟨ending, hsplit, hending, hfound⟩ := exists_ending hline
        (fieldText (field :: fields) ++ lf :: rest)
      obtain ⟨next, hcall, hnext⟩ := htakes ending hending
      have hcontinues := continues_block hmode hbuffer (by simp [hending.ne_nil]) hfound hcall
      rw [← hsplit, htext, hbehind] at hcontinues
      have htakes' := takesLine_header hnext hfield
      obtain ⟨last, hlast, hheaders⟩ := ih (fun f hf => hfields f (by simp [hf])) hnext.mode hnext.buffer
        hplain htakes'
      rw [htext]
      exact ⟨last, hcontinues.trans hlast, hheaders⟩

theorem onData_bad_startline {startline : Str} (hplain : Plain startline)
    (hstatus : setStartline (startline ++ crlf) = none) (text : Str) :
    fresh.onData (startline ++ lf :: text) = .undefined := by
  obtain ⟨ending, hsplit, hending, hfound⟩ := exists_ending hplain text
  rw [hsplit]
  apply onData_of_undefined (by simp [hending.ne_nil]) (pass_block rfl rfl hfound)
  apply onBufferedData_no_startline rfl
  exact (setStartline_of_ending hplain hending).trans hstatus

/-! ### The end of the head -/

theorem onBufferedData_ending {m : IResponseMemory} {status : HttpStatus} {headers : HeaderCollection}
    (hm : InHeaders m status headers) {ending : Str} (hending : LineEnding ending) :
    (m.withBlock ending).onBufferedData ending
        = .returns (decide (contentLength headers = 0)) (m.withBlock ending).endHeaders ∧
      (m.withBlock ending).endHeaders.clear = afterHead status headers := by
  have hderived : (m.withBlock ending).derived = inHeaders status headers := hm.derived
  exact ⟨onBufferedData_end hderived hending.head, clear_endHeaders hderived⟩

theorem readsWhole_empty_line {m : IResponseMemory} {status : HttpStatus} {headers : HeaderCollection}
    (hm : InHeaders m status headers) (hzero : contentLength headers = 0) :
    m.ReadsWhole [lf] headers [] := by
  obtain ⟨ending, hsplit, hending, hfound⟩ := exists_ending .nil []
  obtain ⟨hcall, hclear⟩ := onBufferedData_ending hm hending
  simp only [List.nil_append] at hsplit hfound
  rw [decide_eq_true hzero] at hcall
  have hpass := pass_block hm.mode hm.buffer hfound
  rw [← hsplit] at hpass
  refine ⟨afterHead status headers, ?_, ?_, rfl, rfl⟩
  · rw [onData_of_finishes (by simp) hpass hcall, hclear]
  · have hlength := congrArg List.length hsplit
    simp only [behindNewline, List.head?_nil, Option.any_none, Bool.false_eq_true, if_false,
      List.append_nil] at hlength
    rw [taken_of_finishes (by simp) hpass hcall]
    exact hlength.symm

theorem continues_empty_line {m : IResponseMemory} {status : HttpStatus} {headers : HeaderCollection}
    (hm : InHeaders m status headers) (hlength : contentLength headers ≠ 0) (body : Str) :
    Continues m (lf :: body) (afterHead status headers) (behindNewline body) := by
  obtain ⟨ending, hsplit, hending, hfound⟩ := exists_ending .nil body
  obtain ⟨hcall, hclear⟩ := onBufferedData_ending hm hending
  simp only [List.nil_append] at hsplit hfound
  rw [decide_eq_false hlength] at hcall
  have hcontinues := continues_block hm.mode hm.buffer hending.ne_nil hfound hcall
  rw [← hclear]
  rwa [← hsplit] at hcontinues

/-! ### The body -/

theorem readsWhole_iff_completes {m : IResponseMemory} (hstate : m.derived.streamState = .body)
    (data body : Str) :
    m.ReadsWhole data m.derived.headers body ↔
      ∃ status, m.completes data = some (data.length, status, body) := by
  rw [ReadsWhole, completes]
  constructor
  · rintro ⟨next, hdata, htaken, -, rfl⟩
    exact ⟨next.derived.status, by rw [hdata, htaken]⟩
  · rintro ⟨status, hcompletes⟩
    split at hcompletes
    · rename_i next hdata
      simp only [Option.some.injEq, Prod.mk.injEq] at hcompletes
      exact ⟨next, hdata, hcompletes.1, headers_of_body hstate hdata, hcompletes.2.2⟩
    · cases hcompletes

theorem Extent.eq_of_completes_all {extent : Extent} {status status' : HttpStatus} {rest body : Str}
    (hle : rest.length ≤ body.length)
    (h : extent.completes status rest = some (rest.length, status', body)) :
    rest = body ∧ status = status' := by
  cases extent with
  | empty =>
      obtain ⟨hsize, rfl, rfl⟩ : 0 = rest.length ∧ status = status' ∧ [] = body := by
        simpa [completes] using h
      exact ⟨List.eq_nil_of_length_eq_zero hsize.symm, rfl⟩
  | length n =>
      rw [completes] at h
      split at h
      · obtain ⟨-, hstatus, hbody⟩ : True ∧ status = status' ∧ rest = body := by simpa using h
        exact ⟨hbody, hstatus⟩
      · cases h
  | line =>
      obtain ⟨n, -, hn⟩ := Option.map_eq_some_iff.mp h
      obtain ⟨rfl, rfl, rfl⟩ : n = rest.length ∧ status = status' ∧ rest.take n = body := by simpa using hn
      exact ⟨List.take_length.symm, rfl⟩
  | chunks => exact absurd (completes_chunkReader_lt h) (Nat.not_lt.mpr hle)
  | unbounded => cases h

theorem behindNewline_eq_self_iff {body : Str} :
    behindNewline body = body ↔ (body.head?).any isNewline = false := by
  cases body with
  | nil => simp [behindNewline]
  | cons b body =>
      cases hb : isNewline b with
      | true => simp [behindNewline, hb]
      | false => simp [behindNewline, hb]

theorem length_behindNewline_le (body : Str) : (behindNewline body).length ≤ body.length := by
  rw [behindNewline]
  split
  · rw [List.length_tail]
    omega
  · exact Nat.le_refl _

theorem readsWhole_behindNewline_iff {status : HttpStatus} {headers : HeaderCollection} {body : Str}
    (hlength : contentLength headers ≠ 0) :
    (afterHead status headers).ReadsWhole (behindNewline body) headers body ↔
      (body.head?).any isNewline = false ∧ (extent headers).Fits body := by
  have hstate : (afterHead status headers).derived.streamState = .body := by
    simp [afterHead, inHeaders, hlength]
  have hread := readsWhole_iff_completes hstate (behindNewline body) body
  rw [show (afterHead status headers).derived.headers = headers from rfl] at hread
  simp only [hread, completes_afterHead hlength, ← behindNewline_eq_self_iff]
  constructor
  · rintro ⟨status', h⟩
    obtain ⟨hself, rfl⟩ := Extent.eq_of_completes_all (length_behindNewline_le body) h
    rw [hself] at h
    exact ⟨hself, Extent.completes_all_iff.mp h⟩
  · rintro ⟨hself, hfits⟩
    exact ⟨status, by rw [hself]; exact Extent.completes_all_iff.mpr hfits⟩

/-! ### A head that is not ended -/

theorem Loop.length_calls_le {m : IResponseMemory} {data : Str} {calls : List (IResponseMemory × Str)}
    {outcome : Outcome IResponseMemory} (h : Loop onBufferedData [nul] m data calls outcome) :
    (calls.map fun call => call.2.length).sum ≤ m.buffer.length + data.length := by
  induction h with
  | idle reader => exact Nat.zero_le _
  | cantProcess hdata hpass => exact Nat.zero_le _
  | handOver hdata hpass => simp
  | finishes hdata hpass hcall =>
      have := BufferedReader.length_of_deliver hpass
      simp only [List.map_singleton, List.sum_singleton]
      omega
  | fails hdata hpass hcall hfails =>
      have := BufferedReader.length_of_deliver hpass
      simp only [List.map_singleton, List.sum_singleton]
      omega
  | goesOn hdata hpass hcall hrest ih =>
      have := BufferedReader.length_of_deliver hpass
      simp only [List.map_cons, List.sum_cons, BufferedReader.clear_buffer, List.length_nil] at ih ⊢
      omega

theorem body_of_headers {m next : IResponseMemory} {data : Str} {value : Bool}
    (hstate : m.derived.streamState = .headers) (hcall : m.onBufferedData data = .returns value next) :
    next.derived.body = m.derived.body := by
  cases (transition_of_returns hcall).1 with
  | endHeaders => rfl
  | header => rfl
  | _ => simp_all

/-- **A reader that is still in the head stores less than it is given**: the line that ends the head is not
part of the body. -/
theorem Loop.length_body_lt {m m' : IResponseMemory} {data : Str} {calls : List (IResponseMemory × Str)}
    {outcome : Outcome IResponseMemory} (h : Loop onBufferedData [nul] m data calls outcome)
    (hm : Heading m) (hstate : m.derived.streamState = .headers) (hbody : m.derived.body = [])
    (houtcome : outcome = .returns true m') : m'.derived.body.length < data.length := by
  induction h with
  | idle reader => cases houtcome
  | cantProcess hdata hpass => cases houtcome
  | handOver hdata hpass =>
      have hnone := BufferedReader.pass_eq_handOver hpass
      rw [hm.mode] at hnone
      cases hnone
  | finishes hdata hpass hcall =>
      obtain ⟨-, rfl⟩ := Outcome.returns.inj houtcome
      rw [← BufferedReader.derived_of_deliver hpass] at hstate hbody
      rw [BufferedReader.clear_derived, body_of_headers hstate hcall, hbody]
      exact List.length_pos_of_ne_nil hdata
  | fails hdata hpass hcall hfails => exact absurd houtcome (hfails true m')
  | goesOn hdata hpass hcall hrest ih =>
      obtain ⟨hderived, hmode, -⟩ := hm.block hpass
      have hlt := length_lt_of_returns (.of_newline hm.mode) hpass hcall
      rw [← hderived] at hstate hbody
      have hnext := (body_of_headers hstate hcall).trans hbody
      cases headStep_of_returns hmode (.inr hstate) hcall with
      | startLine hstart => simp [hstart] at hstate
      | header _ _ hheading hnextState => exact (ih hheading hnextState hnext houtcome).trans hlt
      | empty _ _ hbehind =>
          have hle := Loop.length_body_le hrest houtcome
          have hcalls := Loop.length_calls_le hrest
          rw [BufferedReader.clear_derived, hnext] at hle
          rw [BufferedReader.clear_buffer] at hcalls
          simp only [List.length_nil, Nat.zero_add] at hle hcalls
          exact (hle.trans hcalls).trans_lt hlt

theorem length_body_lt_of_inHeaders {m next : IResponseMemory} {status : HttpStatus}
    {headers : HeaderCollection} (hm : InHeaders m status headers) {data : Str}
    (hdata : m.onData data = .returns true next) : next.derived.body.length < data.length := by
  have hstate : m.derived.streamState = .headers := congrArg IResponse.streamState hm.derived
  have hbody : m.derived.body = [] := congrArg IResponse.body hm.derived
  have hloop := loop_onData (.of_newline hm.mode) data
  exact Loop.length_body_lt hloop ⟨hm.mode, hm.buffer, .inr hstate⟩ hstate hbody hdata

end IResponseMemory

/-! ### The two texts -/

section Texts

open IResponseMemory

/-- The text of a message can be read: its start line is one, its body does not begin with a newline
character, and a body that is said to be chunked is empty or one line. -/
structure Message.Readable (message : Message) : Prop where
  startline : setStartline (message.startline ++ crlf) ≠ none
  body : (message.body.head?).any isNewline = false
  chunked : transferEncoding message.headers = .chunked →
    message.body = [] ∨
      BufferedReader.lineLength (message.body ++ [nul]) = some message.body.length

theorem fits_extent_iff {message : Message} (h : message.Sendable) :
    (extent message.headers).Fits message.body ↔ (transferEncoding message.headers = .chunked →
      message.body = [] ∨
        BufferedReader.lineLength (message.body ++ [nul]) = some message.body.length) := by
  rw [extent, h.contentLength]
  split_ifs with hzero hnpos hencoding hencoding
  · have hnil := List.eq_nil_of_length_eq_zero hzero
    exact iff_of_true hnil fun _ => .inl hnil
  · exact absurd hnpos h.size.ne
  · exact absurd hnpos h.size.ne
  · have hne : message.body ≠ [] := fun hnil => hzero (by simp [hnil])
    simp [Extent.Fits, hencoding, hne]
  · simp [Extent.Fits, hencoding]

theorem readsWhole_text_iff {message : Message} (h : message.Sendable) :
    fresh.ReadsWhole message.text message.headers message.body ↔ message.Readable := by
  rw [Message.text_eq]
  cases hstatus : setStartline (message.startline ++ crlf) with
  | none =>
      refine iff_of_false ?_ fun hreadable => hreadable.startline hstatus
      rintro ⟨next, hdata, -⟩
      rw [onData_bad_startline h.startline hstatus] at hdata
      cases hdata
  | some status =>
      obtain ⟨next, hcontinues, hnext⟩ := continues_head h.headers rfl rfl h.startline
        (takesLine_startline h.startline hstatus) (lf :: message.body)
      rw [HeaderCollection.addAll_fields] at hnext
      rw [hcontinues.readsWhole_iff]
      by_cases hzero : contentLength message.headers = 0
      · have hbody : message.body = [] := List.eq_nil_of_length_eq_zero (h.contentLength ▸ hzero)
        rw [hbody]
        refine iff_of_true (readsWhole_empty_line hnext hzero) ⟨?_, ?_, fun _ => .inl hbody⟩
        · simp [hstatus]
        · simp [hbody]
      · rw [(continues_empty_line hnext hzero message.body).readsWhole_iff,
          readsWhole_behindNewline_iff hzero, fits_extent_iff h]
        constructor
        · rintro ⟨hhead, hchunked⟩
          exact ⟨by simp [hstatus], hhead, hchunked⟩
        · intro hreadable
          exact ⟨hreadable.body, hreadable.chunked⟩

theorem not_readsWhole_makeRequest {host : Str} (hhost : Header.Sendable ⟨lit "Host", host⟩)
    {request : Message} (h : request.Sendable) (headers : HeaderCollection) :
    ¬ fresh.ReadsWhole (SimpleRequestClient.makeRequest host request) headers request.body := by
  rw [SimpleRequestClient.makeRequest_eq h]
  cases hstatus : setStartline (request.startline ++ crlf) with
  | none =>
      rintro ⟨next, hdata, -⟩
      rw [onData_bad_startline h.startline hstatus] at hdata
      cases hdata
  | some status =>
      obtain ⟨next, hcontinues, hnext⟩ := continues_head (List.forall_mem_cons.mpr ⟨hhost, h.headers⟩) rfl rfl
        h.startline (takesLine_startline h.startline hstatus) (cstr request.body)
      rw [hcontinues.readsWhole_iff]
      rintro ⟨last, hdata, -, -, hbody⟩
      have hlt := length_body_lt_of_inHeaders hnext hdata
      have hle : (cstr request.body).length ≤ request.body.length :=
        (List.takeWhile_prefix _).length_le
      rw [hbody] at hlt
      omega

/-- **Which of the two texts is read back**, by one call on all of it, to the headers and the body of the
message: what `operator<<` writes for a message that is readable, and nothing that `MakeRequest` sends. -/
theorem readsWhole_serialised_iff {message : Message} (h : message.Sendable) {host : Str}
    (hhost : Header.Sendable ⟨lit "Host", host⟩) :
    (fresh.ReadsWhole message.text message.headers message.body ↔ message.Readable) ∧
      ¬ fresh.ReadsWhole (SimpleRequestClient.makeRequest host message)
        (message.headers.add (lit "Host") host) message.body :=
  ⟨readsWhole_text_iff h, not_readsWhole_makeRequest hhost h _⟩

def bodyMessage (body : Str) : Message where
  startline := lit "HTTP/1.1 200 OK"
  headers := HeaderCollection.add ∅ (lit "Content-Length") (decimal body.length)
  body

theorem readsWhole_serialised_hi :
    fresh.ReadsWhole (bodyMessage (lit "hi")).text (bodyMessage (lit "hi")).headers (lit "hi") ∧
      ¬ fresh.ReadsWhole (SimpleRequestClient.makeRequest (lit "h") (bodyMessage (lit "hi")))
        ((bodyMessage (lit "hi")).headers.add (lit "Host") (lit "h")) (lit "hi") := by
  have hsendable : (bodyMessage (lit "hi")).Sendable :=
    ⟨plain_ok, by decide +kernel, by decide +kernel, by decide⟩
  obtain ⟨htext, hrequest⟩ := readsWhole_serialised_iff hsendable (by decide : Header.Sendable ⟨_, lit "h"⟩)
  exact ⟨htext.mpr ⟨by decide, by decide, by decide +kernel⟩, hrequest⟩

/-- A newline character in front of the body is taken for a part of the empty line, in the text of a message,
and for the empty line itself, in what is sent for one. -/
theorem not_forall_readsWhole :
    ¬ ∀ (message : Message) (host : Str), message.Sendable → Header.Sendable ⟨lit "Host", host⟩ →
      fresh.ReadsWhole message.text message.headers message.body ∧
        fresh.ReadsWhole (SimpleRequestClient.makeRequest host message)
          (message.headers.add (lit "Host") host) message.body := by
  intro h
  have hsendable : (bodyMessage (lit "\nhi")).Sendable :=
    ⟨plain_ok, by decide +kernel, by decide +kernel, by decide⟩
  have hreadable := (readsWhole_text_iff hsendable).mp (h _ (lit "h") hsendable (by decide)).1
  exact absurd hreadable.body (by decide)

end Texts

end Rikitiki
