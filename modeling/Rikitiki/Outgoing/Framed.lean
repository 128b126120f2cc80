import Rikitiki.Library.ChunkedCoding
import Rikitiki.Outgoing.Draft

/-!
# Writers that are told their framing

A writer whose size or encoding is set keeps nothing back: the first payload ends the head, and each
payload goes out as it is or as a chunk of its own. `Done` then adds the last chunk, or throws: it has no
way to end a body of known size.
-/

namespace Rikitiki

open ChunkedCoding (chunk chunks decode)

def headBlock (ops : List Op) : Str :=
  statusLine (statusInEffect .ok ops) ++ fieldLines (acceptedFields ops)

def BodyType.frame : BodyType → Str → Str
  | .chunked, data => chunk data
  | _, data => data

/-- A framing that is known when the head ends. -/
def BodyType.Streams (type : BodyType) : Prop := type = .knownSize ∨ type = .chunked

theorem BodyType.from_cases (contentSize : Nat) (encoding : Encoding) :
    (BodyType.from contentSize encoding).Streams ∨
      contentSize = npos ∧ encoding ≠ .chunked ∧ BodyType.from contentSize encoding = .none := by
  rw [BodyType.from]
  split_ifs with hsize hchunked
  · exact .inl (.inl rfl)
  · exact .inl (.inr rfl)
  · exact .inr ⟨not_not.mp hsize, hchunked, rfl⟩

namespace OResponseWriter

def framed (contentSize : Nat) (encoding : Encoding) : OResponseWriter :=
  { fresh with contentSize := contentSize, encoding := encoding }

/-- A writer with its framing set takes a head, payloads and `Done`: what becomes of each operation, and
how `Done` ends. -/
def send (contentSize : Nat) (encoding : Encoding) (head : List Op) (payloads : List Str) :
    List (Option Exception) × Result OResponseWriter Unit :=
  let (outcomes, w) := Machine.run step (framed contentSize encoding) (head ++ payloads.map .payload)
  (outcomes, w.done)

/-- Nothing throws, and `body` stands behind the head and a blank line. -/
structure Sends (contentSize : Nat) (encoding : Encoding) (head : List Op) (payloads : List Str)
    (body : Str) : Prop where
  accepted : ∀ outcome ∈ (send contentSize encoding head payloads).1, outcome = none
  completes : (send contentSize encoding head payloads).2.error = none
  wire : (send contentSize encoding head payloads).2.state.wire = headBlock head ++ (crlf ++ body)

/-- What is sent behind the head is a chunked body, to its end, of all payload. -/
def SendsChunked (head : List Op) (payloads : List Str) : Prop :=
  ∃ body, Sends npos .chunked head payloads body ∧ decode body = some (payloads.flatten, [])

end OResponseWriter

/-! ### The head -/

namespace Draft

variable {contentSize : Nat} {encoding : Encoding}

def head (d : Draft) : Str := statusLine d.sent ++ fieldLines d.fields

def writerWith (contentSize : Nat) (encoding : Encoding) (d : Draft) : OResponseWriter :=
  { d.writer with contentSize := contentSize, encoding := encoding }

theorem step_writerWith {d : Draft} (hd : d.written = false) {op : Op} (hop : op.isPayload = false) :
    (d.writerWith contentSize encoding).step op
      = ((d.step op).1, (d.step op).2.writerWith contentSize encoding) := by
  obtain ⟨current, phase⟩ := d
  cases op with
  | status status => cases phase <;> rfl
  | field field =>
      cases phase with
      | opening => simp [writerWith, writer, step, sent, fields, OResponseWriter.step,
          OResponseWriter.stream, OResponseWriter.writeHeader, OResponseWriter.writeStartLine,
          OResponseWriter.writeData, OResponseWriter.setState]
      | heading sent fields => simp [writerWith, writer, step, Draft.sent, Draft.fields,
          OResponseWriter.step, OResponseWriter.stream, OResponseWriter.writeHeader,
          OResponseWriter.writeData]
      | writing sent fields body => cases hd
  | payload data => cases hop

theorem run_writerWith (contentSize : Nat) (encoding : Encoding) {d : Draft} (hd : d.written = false)
    {ops : List Op} (hops : ∀ op ∈ ops, op.isPayload = false) :
    Machine.run OResponseWriter.step (d.writerWith contentSize encoding) ops
      = ((Machine.run step d ops).1, (Machine.run step d ops).2.writerWith contentSize encoding) ∧
    (Machine.run step d ops).2.written = false ∧
    ∀ outcome ∈ (Machine.run step d ops).1, outcome = none := by
  induction ops generalizing d with
  | nil => exact ⟨rfl, hd, by simp⟩
  | cons op ops ih =>
      have hop : op.isPayload = false := hops op (by simp)
      have hnext : (d.step op).2.written = false := by rw [step_written, hd, hop, Bool.or_false]
      obtain ⟨hrun, hwritten, hnone⟩ := ih hnext fun other hother => hops other (by simp [hother])
      rw [Machine.run_cons, Machine.run_cons, step_writerWith hd hop, hrun]
      refine ⟨rfl, hwritten, ?_⟩
      intro outcome houtcome
      rcases List.mem_cons.mp houtcome with rfl | houtcome
      · rw [step_verdict, hd]
        rfl
      · exact hnone outcome houtcome

theorem head_ofOps (ops : List Op) : (ofOps ops).head = headBlock ops := by
  obtain ⟨-, -, hsent, hfields, -⟩ := ofOps_eq ops
  rw [head, hsent, hfields, headBlock]

/-! ### The payload -/

/-- The writer of a draft whose head has been ended by a payload. -/
def streaming (contentSize : Nat) (encoding : Encoding) (d : Draft) (body : Str) : OResponseWriter :=
  { d.writerWith contentSize encoding with
    streamState := .body
    bodyType := BodyType.from contentSize encoding
    wire := d.head ++ (crlf ++ body) }

theorem step_payload_head {d : Draft} (hd : d.written = false)
    (htype : (BodyType.from contentSize encoding).Streams) (data : Str) :
    (d.writerWith contentSize encoding).step (.payload data)
      = (none, d.streaming contentSize encoding ((BodyType.from contentSize encoding).frame data)) := by
  obtain ⟨current, phase⟩ := d
  cases phase with
  | opening =>
      rcases htype with htype | htype
      all_goals simp [OResponseWriter.step, OResponseWriter.stream, OResponseWriter.writePayloadData,
        OMessage.writePayloadData, writerWith, writer, streaming, head, sent, fields, htype,
        OResponseWriter.writeStartLine, OResponseWriter.writeData, BodyType.frame, chunk, hexadecimal,
        ChunkedCoding.lineEnd, crlf, MessageState.le_def, MessageState.toNat]
  | heading sent fields =>
      rcases htype with htype | htype
      all_goals simp [OResponseWriter.step, OResponseWriter.stream, OResponseWriter.writePayloadData,
        OMessage.writePayloadData, writerWith, writer, streaming, head, Draft.sent, Draft.fields, htype,
        OResponseWriter.writeData, BodyType.frame, chunk, hexadecimal, ChunkedCoding.lineEnd, crlf,
        MessageState.le_def, MessageState.toNat]
  | writing sent fields body => cases hd

theorem step_streaming (d : Draft) (htype : (BodyType.from contentSize encoding).Streams) (body data : Str) :
    (d.streaming contentSize encoding body).step (.payload data)
      = (none, d.streaming contentSize encoding
          (body ++ (BodyType.from contentSize encoding).frame data)) := by
  rcases htype with htype | htype
  all_goals simp [OResponseWriter.step, OResponseWriter.stream, OResponseWriter.writePayloadData,
    OMessage.writePayloadData, streaming, htype, OResponseWriter.writeData, BodyType.frame, chunk,
    hexadecimal, ChunkedCoding.lineEnd, crlf, MessageState.le_def, MessageState.toNat]

theorem run_streaming (d : Draft) (htype : (BodyType.from contentSize encoding).Streams) (body : Str)
    (payloads : List Str) :
    Machine.run OResponseWriter.step (d.streaming contentSize encoding body) (payloads.map .payload)
      = (List.replicate payloads.length none, d.streaming contentSize encoding
          (body ++ payloads.flatMap (BodyType.from contentSize encoding).frame)) := by
  induction payloads generalizing body with
  | nil => simp
  | cons data payloads ih =>
      rw [List.map_cons, Machine.run_cons, step_streaming d htype, ih, List.flatMap_cons,
        List.append_assoc]
      rfl

theorem run_payloads {d : Draft} (hd : d.written = false)
    (htype : (BodyType.from contentSize encoding).Streams) {payloads : List Str} (hpayloads : payloads ≠ []) :
    Machine.run OResponseWriter.step (d.writerWith contentSize encoding) (payloads.map .payload)
      = (List.replicate payloads.length none, d.streaming contentSize encoding
          (payloads.flatMap (BodyType.from contentSize encoding).frame)) := by
  obtain ⟨data, payloads, rfl⟩ := List.exists_cons_of_ne_nil hpayloads
  rw [List.map_cons, Machine.run_cons, step_payload_head hd htype, run_streaming d htype,
    List.flatMap_cons]
  rfl

/-! ### The end -/

theorem done_streaming_chunked (d : Draft) (body : Str) :
    (d.streaming npos .chunked body).done
      = .returns () (d.streaming npos .chunked (body ++ chunk [])) := by
  have htype : BodyType.from npos .chunked = .chunked := by decide
  have hlast : chunk [] = lit "0\r\n\r\n" := by decide
  simp [OResponseWriter.done, OResponseWriter.doneBody, streaming, htype, OResponseWriter.writeData, hlast]

theorem done_streaming_knownSize (hsize : contentSize ≠ npos) (d : Draft) (body : Str) :
    (d.streaming contentSize encoding body).done
      = .throws (.invalidStateException "") (d.streaming contentSize encoding body) := by
  simp [OResponseWriter.done, OResponseWriter.doneBody, streaming, BodyType.from_eq_knownSize.mpr hsize]

/-- The writer of a draft that no payload has followed, its start line sent. -/
def started (contentSize : Nat) (encoding : Encoding) (d : Draft) : OResponseWriter :=
  { d.writerWith contentSize encoding with
    streamState := .headers
    wire := d.head }

theorem done_writerWith {d : Draft} (hd : d.written = false) :
    (d.writerWith contentSize encoding).done = (d.started contentSize encoding).doneHeaders := by
  obtain ⟨current, phase⟩ := d
  cases phase with
  | opening => simp [OResponseWriter.done, started, writerWith, writer, head, sent, fields,
      OResponseWriter.writeStartLine, OResponseWriter.writeData, OResponseWriter.setState]
  | heading sent fields => rfl
  | writing sent fields body => cases hd

theorem done_head_chunked {d : Draft} (hd : d.written = false) :
    (d.writerWith contentSize .chunked).done = .returns ()
      { d.writerWith contentSize .chunked with
        streamState := .headers
        wire := d.head ++ (crlf ++ chunk []) } := by
  have hlast : lit "\r\n0\r\n\r\n" = crlf ++ chunk [] := by decide
  rw [done_writerWith hd]
  simp [OResponseWriter.doneHeaders, started, writerWith, OResponseWriter.writeData, hlast]

theorem done_head_knownSize {d : Draft} (hd : d.written = false) (hsize : contentSize ≠ npos)
    (hchunked : encoding ≠ .chunked) : (d.writerWith contentSize encoding).done.error ≠ none := by
  rw [done_writerWith hd]
  by_cases hzero : contentSize = 0
  · have htype : (d.started contentSize encoding).bodyType = .unknown := by
      obtain ⟨current, phase⟩ := d
      cases phase with
      | opening => rfl
      | heading sent fields => rfl
      | writing sent fields body => cases hd
    simp_all [OResponseWriter.doneHeaders, OResponseWriter.doneBody, started, writerWith,
      OResponseWriter.writeData]
  · simp [OResponseWriter.doneHeaders, started, writerWith, OResponseWriter.writeData, hsize, hchunked, hzero]

/-! ### Without a size or chunks -/

theorem step_writerWith_unframed (hchunked : encoding ≠ .chunked) (d : Draft) (op : Op) :
    (d.writerWith npos encoding).step op = ((d.step op).1, (d.step op).2.writerWith npos encoding) := by
  cases hop : op.isPayload with
  | false =>
      cases hd : d.written with
      | false => exact step_writerWith hd hop
      | true =>
          obtain ⟨current, phase⟩ := d
          cases phase <;> cases op <;> first | rfl | cases hd
  | true =>
      obtain ⟨current, phase⟩ := d
      have htype : BodyType.from npos encoding = .none := by simp [BodyType.from, hchunked]
      cases op with
      | status status => cases hop
      | field field => cases hop
      | payload data =>
          cases phase <;> simp [writerWith, writer, step, sent, fields, body, OResponseWriter.step,
            OResponseWriter.stream, OResponseWriter.writePayloadData, OMessage.writePayloadData, htype,
            OResponseWriter.writeStartLine, OResponseWriter.writeData]

theorem wire_done_unframed (hchunked : encoding ≠ .chunked) (d : Draft) :
    (d.writerWith npos encoding).done.state.wire = render d.sent d.fields d.body := by
  obtain ⟨current, phase⟩ := d
  cases phase with
  | opening => simp [writerWith, writer, sent, fields, body, render, lengthField, OResponseWriter.done,
      OResponseWriter.doneHeaders, OResponseWriter.writeHeader, OResponseWriter.writeStartLine,
      OResponseWriter.writeData, OResponseWriter.setState, decimal_zero, hchunked]
  | heading sent fields => simp [writerWith, writer, Draft.sent, Draft.fields, body, render, lengthField,
      OResponseWriter.done, OResponseWriter.doneHeaders, OResponseWriter.writeHeader,
      OResponseWriter.writeData, decimal_zero, hchunked]
  | writing sent fields body => simp [writerWith, writer, Draft.sent, Draft.fields, Draft.body, render,
      lengthField, OResponseWriter.done, OResponseWriter.doneBody, OResponseWriter.writeHeader,
      OResponseWriter.writeData, OResponseWriter.setState]

end Draft

/-! ### What is sent -/

theorem statusInEffect_append_payloads (status : HttpStatus) (head : List Op) (payloads : List Str) :
    statusInEffect status (head ++ payloads.map .payload) = statusInEffect status head := by
  induction head generalizing status with
  | nil => cases payloads <;> rfl
  | cons op head ih =>
      cases op with
      | status s => exact ih s
      | field field => rfl
      | payload data => rfl

theorem acceptedFields_append_payloads (head : List Op) (payloads : List Str) :
    acceptedFields (head ++ payloads.map .payload) = acceptedFields head := by
  induction head with
  | nil => cases payloads <;> rfl
  | cons op head ih =>
      cases op with
      | status s => exact ih
      | field field => exact congrArg (field.toHeader :: ·) ih
      | payload data => rfl

theorem payloadOf_append_payloads {head : List Op} (hhead : ∀ op ∈ head, op.isPayload = false)
    (payloads : List Str) : payloadOf (head ++ payloads.map .payload) = payloads.flatten := by
  induction head with
  | nil => simp [payloadOf, List.flatMap_def, Function.comp_def, Op.data]
  | cons op head ih =>
      have hdata : op.data = [] := by
        have hop := hhead op (by simp)
        cases op <;> first | rfl | cases hop
      have hrest := ih fun other hother => hhead other (by simp [hother])
      rw [List.cons_append, payloadOf, List.flatMap_cons, hdata, List.nil_append]
      exact hrest

namespace OResponseWriter

open Draft (ofOps)

variable {contentSize : Nat} {encoding : Encoding} {head : List Op}

theorem send_eq (contentSize : Nat) (encoding : Encoding) (hhead : ∀ op ∈ head, op.isPayload = false)
    (payloads : List Str) :
    ∃ outcomes : List (Option Exception), (∀ outcome ∈ outcomes, outcome = none) ∧
      (ofOps head).written = false ∧
      send contentSize encoding head payloads
        = (outcomes ++ (Machine.run step ((ofOps head).writerWith contentSize encoding)
              (payloads.map .payload)).1,
          (Machine.run step ((ofOps head).writerWith contentSize encoding)
              (payloads.map .payload)).2.done) := by
  have hopening : ({} : Draft).written = false := rfl
  obtain ⟨hrun, hwritten, hnone⟩ := Draft.run_writerWith contentSize encoding hopening hhead
  refine ⟨(Machine.run Draft.step {} head).1, hnone, hwritten, ?_⟩
  rw [send, Machine.run_append, show framed contentSize encoding
    = ({} : Draft).writerWith contentSize encoding from rfl, hrun]
  rfl

theorem flatMap_frame_chunked (payloads : List Str) :
    payloads.flatMap BodyType.chunked.frame = chunks payloads := by
  rw [chunks, List.flatMap_def]
  rfl

/-- **What a writer that is told to send chunks sends**: one for each payload write, and an empty one. -/
theorem sends_chunked (hhead : ∀ op ∈ head, op.isPayload = false) (payloads : List Str) :
    Sends npos .chunked head payloads (chunks payloads ++ chunk []) := by
  obtain ⟨outcomes, hnone, hwritten, hsend⟩ := send_eq npos .chunked hhead payloads
  have htype : BodyType.from npos .chunked = .chunked := by decide
  rcases eq_or_ne payloads [] with rfl | hpayloads
  · rw [List.map_nil, Machine.run_nil, List.append_nil, Draft.done_head_chunked hwritten] at hsend
    constructor
    · simpa [hsend] using hnone
    · simp [hsend]
    · simp [hsend, Draft.head_ofOps]
  · rw [Draft.run_payloads hwritten (.inr htype) hpayloads, Draft.done_streaming_chunked, htype,
      flatMap_frame_chunked] at hsend
    constructor
    · rw [hsend]
      intro outcome houtcome
      rcases List.mem_append.mp houtcome with h | h
      · exact hnone outcome h
      · exact List.eq_of_mem_replicate h
    · simp [hsend]
    · simp [hsend, Draft.streaming, Draft.head_ofOps]

theorem Sends.body_unique {payloads : List Str} {body other : Str}
    (h : Sends contentSize encoding head payloads body)
    (h' : Sends contentSize encoding head payloads other) : body = other := by
  have hwire := h.wire.symm.trans h'.wire
  exact List.append_cancel_left (List.append_cancel_left hwire)

theorem sendsChunked_iff_decode (hhead : ∀ op ∈ head, op.isPayload = false) (payloads : List Str) :
    SendsChunked head payloads
      ↔ decode (chunks payloads ++ chunk []) = some (payloads.flatten, []) := by
  constructor
  · rintro ⟨body, hsends, hdecode⟩
    rwa [hsends.body_unique (sends_chunked hhead payloads)] at hdecode
  · exact fun hdecode => ⟨_, sends_chunked hhead payloads, hdecode⟩

/-- **Payload writes are sent as one chunked body exactly when none of them is empty**: an empty write
sends the chunk that ends the body. -/
theorem sendsChunked_iff (head : List Op) (hhead : ∀ op ∈ head, op.isPayload = false)
    (payloads : List Str) : SendsChunked head payloads ↔ ∀ data ∈ payloads, data ≠ [] := by
  rw [sendsChunked_iff_decode hhead, ChunkedCoding.decode_whole_iff]

theorem not_sendsChunked_of_empty_write :
    ¬ SendsChunked [.field (.contentType .textHtml)] [lit "a", [], lit "b"] := by
  rw [sendsChunked_iff_decode (by decide)]
  decide +kernel

theorem sendsChunked_two_writes :
    SendsChunked [.field (.contentType .textHtml)] [lit "a", lit "b"] :=
  (sendsChunked_iff [.field (.contentType .textHtml)] (by decide) [lit "a", lit "b"]).2 (by decide)

theorem not_sends_of_chunked (hhead : ∀ op ∈ head, op.isPayload = false) (payloads : List Str) :
    ¬ Sends npos .chunked head payloads payloads.flatten := by
  intro h
  have hbody : payloads.flatten = chunks payloads ++ chunk [] := h.body_unique (sends_chunked hhead payloads)
  have hlength := congrArg List.length hbody
  have hchunks := ChunkedCoding.length_flatten_le_chunks payloads
  have hlast := ChunkedCoding.length_lt_chunk []
  simp only [List.length_append, List.length_nil] at hlength hlast
  omega

theorem not_sends_of_size (hsize : contentSize ≠ npos) (hhead : ∀ op ∈ head, op.isPayload = false)
    (payloads : List Str) : ¬ Sends contentSize encoding head payloads payloads.flatten := by
  intro h
  obtain ⟨outcomes, -, hwritten, hsend⟩ := send_eq contentSize encoding hhead payloads
  have htype : (BodyType.from contentSize encoding).Streams := .inl (BodyType.from_eq_knownSize.mpr hsize)
  have hcompletes := h.completes
  have hwire := h.wire
  rcases eq_or_ne payloads [] with rfl | hpayloads
  · rw [hsend] at hcompletes hwire
    by_cases hchunked : encoding = .chunked
    · subst hchunked
      simp [Draft.done_head_chunked hwritten, Draft.head_ofOps, ChunkedCoding.chunk_ne_nil] at hwire
    · exact Draft.done_head_knownSize hwritten hsize hchunked hcompletes
  · rw [hsend, Draft.run_payloads hwritten htype hpayloads, Draft.done_streaming_knownSize hsize] at hcompletes
    cases hcompletes

/-- Without either it adds the length to the head. -/
theorem not_sends_of_neither (hchunked : encoding ≠ .chunked)
    (hhead : ∀ op ∈ head, op.isPayload = false) (payloads : List Str) :
    ¬ Sends npos encoding head payloads payloads.flatten := by
  intro h
  have hrun := Machine.run_embed (Draft.step_writerWith_unframed hchunked) {} (head ++ payloads.map .payload)
  have hwire := h.wire
  rw [send, show framed npos encoding = ({} : Draft).writerWith npos encoding from rfl, hrun,
    Draft.wire_done_unframed hchunked] at hwire
  obtain ⟨-, -, hsent, hfields, hbody⟩ := Draft.ofOps_eq (head ++ payloads.map .payload)
  have hrender : render (statusInEffect .ok head) (acceptedFields head) payloads.flatten
      = headBlock head ++ (crlf ++ payloads.flatten) := by
    rw [← hwire, ← Draft.ofOps, hsent, hfields, hbody, statusInEffect_append_payloads,
      acceptedFields_append_payloads, payloadOf_append_payloads hhead]
  have hlength := congrArg List.length hrender
  simp only [render, headBlock, fieldLines_append, fieldLines_singleton, headerLine, List.length_append,
    show crlf.length = 2 from rfl] at hlength
  omega

/-- **A body of known size is never sent.** Whatever size and encoding are set, and whatever is written,
the writer throws or sends more than the head, a blank line and the payload. -/
theorem not_sends_knownSize (contentSize : Nat) (encoding : Encoding) (head : List Op)
    (hhead : ∀ op ∈ head, op.isPayload = false) (payloads : List Str) :
    ¬ Sends contentSize encoding head payloads payloads.flatten := by
  by_cases hsize : contentSize = npos
  · subst hsize
    by_cases hchunked : encoding = .chunked
    · rw [hchunked]
      exact not_sends_of_chunked hhead payloads
    · exact not_sends_of_neither hchunked hhead payloads
  · exact not_sends_of_size hsize hhead payloads

theorem not_sends_two_bytes : ([lit "hi"].map List.length).sum = 2 ∧
    ¬ Sends 2 .unknown [.field (.contentType .textHtml)] [lit "hi"] [lit "hi"].flatten := by
  refine ⟨by decide, ?_⟩
  intro h
  exact absurd h.completes (by decide)

theorem not_sends_nothing : ¬ Sends 0 .unknown [.field (.contentType .textHtml)] [] [].flatten :=
  not_sends_knownSize 0 .unknown [.field (.contentType .textHtml)] (by decide) []

end OResponseWriter

end Rikitiki
