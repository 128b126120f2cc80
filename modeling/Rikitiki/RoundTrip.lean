import Rikitiki.Http.StatusLine
import Rikitiki.Incoming.KnownSize
import Rikitiki.Outgoing.Done

/-!
# From the writer to the reader

What a writer sends is the head of a response with a length, and a body of that length. So the reader
finds in it the status, the headers and the payload that were written, however it is cut into fragments
that leave the line ends of the head whole.
-/

namespace Rikitiki

/-- An operation whose text goes on the lines of a head, and does not decide how the body is framed. -/
def Op.Sendable : Op → Prop
  | .status s => s.Sendable
  | .field f => f.toHeader.Sendable ∧ f.toHeader.name ≠ lit "Content-Length" ∧
      f.toHeader.name ≠ lit "Transfer-Encoding"
  | .payload _ => True

instance (op : Op) : Decidable op.Sendable :=
  match op with
  | .status s => inferInstanceAs (Decidable s.Sendable)
  | .field f => inferInstanceAs (Decidable (f.toHeader.Sendable ∧ _ ∧ _))
  | .payload _ => .isTrue trivial

theorem sendable_ok : HttpStatus.ok.Sendable := by decide

theorem sendable_lengthField (n : Nat) : (lengthField n).Sendable where
  name_visible := (show Header.Sendable ⟨lit "Content-Length", []⟩ by decide).name_visible
  value_plain := plain_decimal n
  value_head b hb := by
    have hb := (decimal_byte (List.mem_of_mem_head? hb)).1
    rw [isSpace, Bool.or_eq_false_iff] at hb
    rw [isBlank, hb.1, Bool.false_or, beq_eq_false_iff_ne]
    rintro rfl
    exact absurd hb.2 (by decide)

theorem sendable_statusInEffect {status : HttpStatus} {ops : List Op} (hstatus : status.Sendable)
    (hops : ∀ op ∈ ops, op.Sendable) : (statusInEffect status ops).Sendable := by
  induction ops generalizing status with
  | nil => exact hstatus
  | cons op ops ih =>
      cases op with
      | status s => exact ih (hops (.status s) (by simp)) fun op hop => hops op (by simp [hop])
      | field f => exact hstatus
      | payload data => exact hstatus

theorem exists_of_mem_acceptedFields {ops : List Op} {field : Header} (h : field ∈ acceptedFields ops) :
    ∃ f, Op.field f ∈ ops ∧ f.toHeader = field := by
  induction ops with
  | nil => cases h
  | cons op ops ih =>
      cases op with
      | status s =>
          obtain ⟨f, hf, hfield⟩ := ih h
          exact ⟨f, by simp [hf], hfield⟩
      | field f =>
          rcases List.mem_cons.mp h with rfl | h
          · exact ⟨f, by simp, rfl⟩
          · obtain ⟨f', hf', hfield⟩ := ih h
            exact ⟨f', by simp [hf'], hfield⟩
      | payload data => cases h

/-! ### The head of a rendered response -/

def Header.line (header : Header) : Str := header.name ++ lit ": " ++ header.value

theorem Header.line_plain {header : Header} (h : Plain header.name ∧ Plain header.value) :
    Plain header.line ∧ header.line ≠ [] := by
  refine ⟨?_, by simp [Header.line, lit]⟩
  rw [Header.line, plain_append, plain_append]
  exact ⟨⟨h.1, by decide⟩, h.2⟩

theorem linesBytes_map_line (fields : List Header) : linesBytes (fields.map Header.line) = fieldLines fields := by
  rw [linesBytes, fieldLines, List.map_map]
  rfl

theorem HttpStatus.Sendable.startLine {status : HttpStatus} (h : status.Sendable) :
    Plain (lit "HTTP/1.1 " ++ status.startString) := by
  rw [plain_append, HttpStatus.startString, plain_append, plain_append]
  exact ⟨by decide, ⟨plain_decimal _, by decide⟩, h.plain⟩

def renderedHead (status : HttpStatus) (fields : List Header) (hstatus : status.Sendable)
    (hfields : ∀ field ∈ fields, field.Sendable) : ResponseHead where
  startLine := lit "HTTP/1.1 " ++ status.startString
  lines := fields.map Header.line
  startLine_plain := hstatus.startLine
  lines_plain line hline := by
    obtain ⟨field, hfield, rfl⟩ := List.mem_map.mp hline
    exact Header.line_plain ⟨(hfields field hfield).plain_name, (hfields field hfield).value_plain⟩

/-- **A rendered head** is sent as one expects and read as what it was rendered from. -/
theorem exists_head {status : HttpStatus} {fields : List Header} (hstatus : status.Sendable)
    (hfields : ∀ field ∈ fields, field.Sendable) :
    ∃ head : ResponseHead, setStartline (head.startLine ++ crlf) = some status ∧
      head.bytes = statusLine status ++ (fieldLines fields ++ crlf) ∧
      head.headers = HeaderCollection.addAll ∅ fields := by
  refine ⟨renderedHead status fields hstatus hfields, ?_, ?_, ?_⟩
  · rw [renderedHead, List.append_assoc]
    exact setStartline_statusLine hstatus
  · simp only [ResponseHead.bytes, renderedHead, linesBytes_map_line, statusLine, List.append_assoc]
  · have hlines : linesHeaders (fields.map Header.line) = fields := by
      rw [linesHeaders, List.map_map]
      have hread : ∀ field ∈ fields,
          ((fun line => readHeader (line ++ crlf)) ∘ Header.line) field = id field :=
        fun field hfield => readHeader_headerLine (hfields field hfield)
      rw [List.map_congr_left hread, List.map_id]
    rw [ResponseHead.headers, renderedHead, hlines]

namespace IResponseMemory

def received (status : HttpStatus) (headers : HeaderCollection) (body : Str) : IResponse :=
  { streamState := .finished
    bodyType := .knownSize
    status := status
    headers := headers
    body := body }

theorem Ends.last {fragments : List Str} {m : IResponseMemory}
    {outcome : Option (List Reply × IResponseMemory)} (h : Ends fragments (.finishes m []) outcome)
    (hne : ∀ fragment ∈ fragments, fragment ≠ []) :
    ∃ m₁, outcome = some (List.replicate (fragments.length - 1) (.returned false) ++ [.returned true], m₁) ∧
      m₁.derived = m.derived := by
  cases h with
  | @finishes before later fragment _ others _ m₁ hfragments hlater hfragment hothers hderived =>
      have hnil : later = [] := by
        cases later with
        | nil => rfl
        | cons f later =>
            have hf : f ≠ [] := hne f (by simp [hfragments])
            rw [List.flatten_cons, List.length_append, List.length_nil] at hlater
            exact absurd (List.eq_nil_of_length_eq_zero (by omega)) hf
      subst hnil
      rw [List.eq_nil_of_length_eq_zero hothers]
      exact ⟨m₁, by simp [hfragments], hderived⟩

theorem afterHead_derived (status : HttpStatus) (headers : HeaderCollection) :
    (afterHead status headers).derived
      = { streamState := if contentLength headers = 0 then .finished else .body
          bodyType := .from (contentLength headers) (transferEncoding headers)
          status := status
          headers := headers } := rfl

theorem lastPart_derived (m : IResponseMemory) (data : Str) : (m.lastPart data).derived
    = { m.derived with streamState := .finished, body := m.derived.body ++ data } := rfl

theorem ends_of_whole {head : ResponseHead} {status : HttpStatus} {body : Str} {fragments : List Str}
    (hstart : setStartline (head.startLine ++ crlf) = some status)
    (hlength : contentLength head.headers = body.length) (hsize : body.length < npos)
    (hencoding : transferEncoding head.headers ≠ .chunked)
    (hstream : fragments.flatten = head.bytes ++ body)
    (hcuts : ¬ CutsLineEnd fragments head.bytes.length) :
    ∃ m, m.derived = received status head.headers body ∧
      Ends fragments (.finishes m []) (feed fresh fragments) := by
  by_cases hempty : body = []
  · obtain ⟨m, hderived, hends⟩ := ends_of_empty_body hstart (by rw [hlength, hempty]; rfl) hstream hcuts
    rw [hempty] at hends hlength ⊢
    refine ⟨m, ?_, hends⟩
    rw [hderived, afterHead_derived, hlength]
    rfl
  · have hpos : contentLength head.headers ≠ 0 := by
      rw [hlength]
      exact fun h => hempty (List.eq_nil_of_length_eq_zero h)
    have hnpos : contentLength head.headers ≠ npos := by
      rw [hlength]
      exact hsize.ne
    refine ⟨(afterHead status head.headers).lastPart body, ?_, ?_⟩
    · rw [lastPart_derived, afterHead_derived, BodyType.from_eq_knownSize.mpr hnpos]
      rfl
    · apply ends_of_head hstart hpos hstream hcuts
      intro fragments' hm _ hrest hmarks
      have hexpected : (afterHead status head.headers).expectedSize = body.length := hlength
      have hmissing : Missing (afterHead status head.headers) := missing_afterHead hpos hnpos hencoding
      have h := ends_of_missing hm hmissing (by rw [hrest, hexpected])
        (fun l _ hle => by rw [hrest, hexpected] at hle; omega) hmarks
      rwa [hrest, hexpected, List.drop_length] at h

theorem contentLength_lengthField {fields : List Header} {n : Nat}
    (hlength : ∀ field ∈ fields, field.name ≠ lit "Content-Length") (hsize : n ≤ npos) :
    contentLength (.addAll ∅ (fields ++ [lengthField n])) = n := by
  rw [HeaderCollection.addAll_append, HeaderCollection.addAll_cons, HeaderCollection.addAll_nil, contentLength,
    lengthField, HeaderCollection.get_add_self, HeaderCollection.get_addAll_of_ne hlength]
  exact extractSize_decimal hsize _

theorem transferEncoding_lengthField {fields : List Header} {n : Nat}
    (hencoding : ∀ field ∈ fields, field.name ≠ lit "Transfer-Encoding") :
    transferEncoding (.addAll ∅ (fields ++ [lengthField n])) ≠ .chunked := by
  have hname : (lengthField n).name ≠ lit "Transfer-Encoding" :=
    show lit "Content-Length" ≠ lit "Transfer-Encoding" by decide
  apply transferEncoding_of_none
  rw [HeaderCollection.addAll_append, HeaderCollection.addAll_cons, HeaderCollection.addAll_nil,
    HeaderCollection.get_add_of_ne _ hname, HeaderCollection.get_addAll_of_ne hencoding]
  rfl

theorem exists_rendered_head {status : HttpStatus} {fields : List Header} {body : Str}
    (hstatus : status.Sendable) (hfields : ∀ field ∈ fields, field.Sendable)
    (hlength : ∀ field ∈ fields, field.name ≠ lit "Content-Length")
    (hencoding : ∀ field ∈ fields, field.name ≠ lit "Transfer-Encoding") (hsize : body.length < npos) :
    ∃ head : ResponseHead, setStartline (head.startLine ++ crlf) = some status ∧
      render status fields body = head.bytes ++ body ∧
      head.headers = HeaderCollection.addAll ∅ (fields ++ [lengthField body.length]) ∧
      contentLength head.headers = body.length ∧ transferEncoding head.headers ≠ .chunked := by
  have hall : ∀ field ∈ fields ++ [lengthField body.length], field.Sendable := by
    intro field hfield
    rcases List.mem_append.mp hfield with hfield | hfield
    · exact hfields field hfield
    · rw [List.mem_singleton.mp hfield]
      exact sendable_lengthField _
  obtain ⟨head, hstart, hbytes, hheaders⟩ := exists_head hstatus hall
  refine ⟨head, hstart, ?_, hheaders, ?_, ?_⟩
  · rw [hbytes, render]
    simp only [List.append_assoc]
  · rw [hheaders, contentLength_lengthField hlength hsize.le]
  · rw [hheaders]
    exact transferEncoding_lengthField hencoding

/-- **A response of known size is read as it was rendered.** -/
theorem feed_render {status : HttpStatus} {fields : List Header} {body : Str} {fragments : List Str}
    (hstatus : status.Sendable) (hfields : ∀ field ∈ fields, field.Sendable)
    (hlength : ∀ field ∈ fields, field.name ≠ lit "Content-Length")
    (hencoding : ∀ field ∈ fields, field.name ≠ lit "Transfer-Encoding") (hsize : body.length < npos)
    (hwire : fragments.flatten = render status fields body) (hne : ∀ fragment ∈ fragments, fragment ≠ [])
    (hcuts : ¬ CutsLineEnd fragments ((render status fields body).length - body.length)) :
    ∃ m, feed fresh fragments
        = some (List.replicate (fragments.length - 1) (.returned false) ++ [.returned true], m) ∧
      m.derived
        = received status (HeaderCollection.addAll ∅ (fields ++ [lengthField body.length])) body := by
  obtain ⟨head, hstart, hrender, hheaders, hcontent, htransfer⟩ :=
    exists_rendered_head hstatus hfields hlength hencoding hsize
  rw [hrender] at hwire
  rw [hrender, List.length_append, Nat.add_sub_cancel] at hcuts
  obtain ⟨m, hderived, hends⟩ := ends_of_whole hstart hcontent hsize htransfer hwire hcuts
  obtain ⟨m₁, hfeed, hm₁⟩ := hends.last hne
  exact ⟨m₁, hfeed, by rw [hm₁, hderived, hheaders]⟩

end IResponseMemory

/-- **Round trip.** Whatever is streamed into a fresh writer, its `Done` returns, and the reader answers
`true` on the last fragment of what was sent and on no other; it then has the status in effect at the
first field or payload, the accepted headers with the length added, and all payload. -/
theorem round_trip {ops : List Op} {fragments : List Str} (hops : ∀ op ∈ ops, op.Sendable)
    (hsize : (payloadOf ops).length < npos)
    (hwire : fragments.flatten = (OResponseWriter.closed ops).wire)
    (hne : ∀ fragment ∈ fragments, fragment ≠ [])
    (hcuts : ¬ CutsLineEnd fragments
      ((OResponseWriter.closed ops).wire.length - (payloadOf ops).length)) :
    (Machine.run OResponseWriter.step .fresh ops).1 = verdicts false ops ∧
      (Machine.run OResponseWriter.step .fresh ops).2.done = .returns () (OResponseWriter.closed ops) ∧
      ∃ m, IResponseMemory.feed .fresh fragments
          = some (List.replicate (fragments.length - 1) (.returned false) ++ [.returned true], m) ∧
        m.derived = IResponseMemory.received (statusInEffect .ok ops)
          (HeaderCollection.addAll ∅ (acceptedFields ops ++ [lengthField (payloadOf ops).length]))
          (payloadOf ops) := by
  rw [OResponseWriter.closed_wire] at hwire hcuts
  have hsendable : ∀ field ∈ acceptedFields ops, field.Sendable ∧ field.name ≠ lit "Content-Length" ∧
      field.name ≠ lit "Transfer-Encoding" := by
    intro field hfield
    obtain ⟨f, hf, rfl⟩ := exists_of_mem_acceptedFields hfield
    exact hops _ hf
  refine ⟨OResponseWriter.run_verdicts ops, OResponseWriter.done_eq_closed ops, ?_⟩
  exact IResponseMemory.feed_render (sendable_statusInEffect sendable_ok hops)
    (fun field hfield => (hsendable field hfield).1) (fun field hfield => (hsendable field hfield).2.1)
    (fun field hfield => (hsendable field hfield).2.2) hsize hwire hne hcuts

/-- A handler that sets a header too late. -/
def greeting : List Op :=
  [.field (.header ⟨lit "A", lit "a"⟩), .payload (lit "hi"), .field (.header ⟨lit "B", lit "b"⟩),
    .status .notAcceptable, .payload (lit "!")]

theorem round_trip_greeting :
    ∃ m, IResponseMemory.feed .fresh
        [lit "HTTP/1.1 200 OK\r\nA: a\r\nContent-Length: 3\r\n\r\nh", lit "i!"]
        = some ([.returned false, .returned true], m) ∧
      m.derived.status = .ok ∧ m.derived.body = lit "hi!" := by
  have hops : ∀ op ∈ greeting, op.Sendable := by decide
  obtain ⟨-, -, m, hfeed, hm⟩ := round_trip hops (by decide) (by decide : List.flatten
      [lit "HTTP/1.1 200 OK\r\nA: a\r\nContent-Length: 3\r\n\r\nh", lit "i!"] = _) (by decide)
    (not_cutsLineEnd_of_first (by decide))
  exact ⟨m, hfeed, by rw [hm]; rfl, by rw [hm]; rfl⟩

end Rikitiki
