import Rikitiki.Incoming.KnownSize

/-!
# Bodies that end with the connection

A response whose head has no framing header ends where its connection does, and the client hands it over
then. The reader gives such a body the type `NONE`, which its switch over the body types leaves out. That
holds for every cutting, so the head is followed here wherever it is cut: `Unframed` says where in the
stream the reader stands, and a call takes it from one such place to another.
-/

namespace Rikitiki

/-- The part of `SimpleRequestClient` that receives: the promise is kept when it has a value. -/
structure SimpleRequestClient where
  response : IResponseMemory := .fresh
  promise : Option IResponseMemory := none

namespace SimpleRequestClient

open IResponseMemory (Reply answer)

/-- `SimpleRequestClient::OnData` -/
def onData (client : SimpleRequestClient) (data : Str) : Option (Reply × SimpleRequestClient) :=
  (answer (client.response.onData data)).map fun (reply, response) => (reply, { client with response })

/-- `SimpleRequestClient::OnClose` -/
def onClose (client : SimpleRequestClient) : SimpleRequestClient :=
  { client with promise := some client.response }

/-- The response in the promise of a new client when the connection is closed behind some fragments. -/
def handedOver (fragments : List Str) : Option IResponseMemory :=
  (Run.run onData {} fragments).bind fun (_, client) => client.onClose.promise

theorem run_onData (client : SimpleRequestClient) (fragments : List Str) :
    Run.run onData client fragments = (IResponseMemory.feed client.response fragments).map
      fun (replies, response) => (replies, { client with response }) := by
  induction fragments generalizing client with
  | nil => rfl
  | cons data fragments ih =>
      cases hanswer : answer (client.response.onData data) with
      | none =>
          have hcall : client.onData data = none := by rw [onData, hanswer]; rfl
          rw [Run.run_cons_of_none hcall, IResponseMemory.feed, Run.run_cons_of_none hanswer]
          rfl
      | some outcome =>
          obtain ⟨reply, response⟩ := outcome
          have hcall : client.onData data = some (reply, { client with response }) := by
            rw [onData, hanswer]
            rfl
          rw [Run.run_cons_of_some hcall, ih, IResponseMemory.feed, Run.run_cons_of_some hanswer,
            Option.map_map, Option.map_map]
          rfl

theorem handedOver_eq (fragments : List Str) :
    handedOver fragments = (IResponseMemory.feed .fresh fragments).map Prod.snd := by
  rw [handedOver, run_onData]
  cases IResponseMemory.feed .fresh fragments <;> rfl

end SimpleRequestClient

namespace IResponseMemory

/-! ### Lines that are cut anywhere -/

/-- One or two newline characters: what a line is ended by where its line end may be cut. -/
structure LineEnding (ending : Str) : Prop where
  ne_nil : ending ≠ []
  newline : ∀ b ∈ ending, isNewline b = true

theorem LineEnding.head {ending : Str} (h : LineEnding ending) : (ending.head?).any isNewline = true := by
  obtain ⟨b, rest, rfl⟩ := List.exists_cons_of_ne_nil h.ne_nil
  exact h.newline b (by simp)

theorem LineEnding.crlf : LineEnding crlf := ⟨by simp [Rikitiki.crlf], by simp [Rikitiki.crlf, isNewline]⟩

theorem LineEnding.cr : LineEnding [cr] := ⟨by simp, by simp [isNewline]⟩

theorem lineLength_of_plain {front : Str} (hfront : Plain front) {b : Byte} (hb : isNewline b = true)
    (tail : Str) :
    BufferedReader.lineLength (front ++ b :: tail ++ [nul])
      = some (if ((tail ++ [nul]).head?).any isNewline then front.length + 2 else front.length + 1) := by
  have hsearch : strpbrk (front ++ b :: tail ++ [nul]) = some front.length := by
    rw [List.append_assoc, strpbrk_plain_append hfront, List.cons_append, strpbrk_cons_newline hb]
    rfl
  have hget : (front ++ b :: tail ++ [nul])[front.length + 1]? = (tail ++ [nul]).head? := by
    rw [List.append_assoc, List.getElem?_append_right (by omega), Nat.add_sub_cancel_left,
      List.cons_append, List.getElem?_cons_succ, List.head?_eq_getElem?]
  rw [BufferedReader.lineLength, hsearch, Option.map_some, hget]

/-- What a fragment brings of a line that is being read: not its end, or the rest of it with the CR. -/
theorem line_cases {buffer data pending line rest : Str} (hbuffer : Plain buffer)
    (hstream : buffer ++ (data ++ pending) = line ++ (crlf ++ rest)) :
    (∃ more, line = buffer ++ (data ++ more)) ∨
      ∃ unread tail, line = buffer ++ unread ∧ data = unread ++ cr :: tail ∧ tail ++ pending = lf :: rest := by
  rcases List.append_eq_append_iff.mp hstream with ⟨unread, rfl, hunread⟩ | ⟨more, rfl, hcrlf⟩
  · rcases List.append_eq_append_iff.mp hunread with ⟨more, rfl, -⟩ | ⟨more, rfl, hcrlf⟩
    · exact .inl ⟨more, rfl⟩
    · cases more with
      | nil => exact .inl ⟨[], by simp⟩
      | cons b tail =>
          obtain ⟨rfl, htail⟩ := List.cons.inj hcrlf
          exact .inr ⟨unread, tail, rfl, rfl, htail.symm⟩
  · cases more with
    | nil =>
        rw [List.nil_append] at hcrlf
        cases data with
        | nil => exact .inl ⟨[], by simp⟩
        | cons b tail =>
            obtain ⟨rfl, htail⟩ := List.cons.inj hcrlf
            exact .inr ⟨[], tail, by simp, rfl, htail.symm⟩
    | cons b more =>
        obtain ⟨rfl, -⟩ := List.cons.inj hcrlf
        exact absurd (hbuffer cr (by simp)).1 (by decide)

/-- **A fragment of a line**, in any cutting: it is kept whole, or it delivers the line with its line end
or with the CR alone, and the LF is then still to come. -/
theorem pass_of_cut_line {m : IResponseMemory} {data pending line rest : Str}
    (hmode : m.bufferMode = .newline) (hbuffer : Plain m.buffer) (hline : Plain line)
    (hstream : m.buffer ++ (data ++ pending) = line ++ (crlf ++ rest)) :
    (m.pass data [nul] = .cantProcess m ∧ Plain (m.buffer ++ data)) ∨
      ∃ block tail ending, m.pass data [nul] = .deliver block tail ∧ block.derived = m.derived ∧
        block.bufferMode = .newline ∧ block.buffer = line ++ ending ∧ LineEnding ending ∧
        (tail ++ pending = rest ∨ tail ++ pending = lf :: rest) := by
  rcases line_cases hbuffer hstream with ⟨more, rfl⟩ | ⟨unread, tail, rfl, rfl, htail⟩
  · have hkept : Plain (m.buffer ++ data) := by
      rw [← List.append_assoc] at hline
      exact (plain_append.mp hline).1
    refine .inl ⟨BufferedReader.pass_of_no_line hmode ?_, hkept⟩
    rw [BufferedReader.lineLength, strpbrk_plain_append (plain_append.mp hkept).2]
    rfl
  · have hlength := lineLength_of_plain (plain_append.mp hline).2 (by decide : isNewline cr = true) tail
    right
    cases tail with
    | nil =>
        have hpass := pass_of_found_line hmode (unread ++ [cr]) []
          (by simpa [show isNewline nul = false by decide] using hlength)
        rw [List.append_nil] at hpass
        exact ⟨_, _, [cr], hpass, rfl, hmode, by simp, .cr, .inr htail⟩
    | cons b tail =>
        obtain ⟨rfl, hrest⟩ := List.cons.inj htail
        have hpass := pass_of_found_line hmode (unread ++ crlf) tail
          (by simpa [show isNewline lf = true by decide, crlf] using hlength)
        rw [List.append_assoc] at hpass
        exact ⟨_, _, crlf, hpass, rfl, hmode, by simp, .crlf, .inl hrest⟩

/-! ### Heads without framing -/

/-- The headers say nothing about the body. -/
def NoFraming (headers : HeaderCollection) : Prop :=
  headers.get (lit "Content-Length") = none ∧ headers.get (lit "Transfer-Encoding") = none

theorem NoFraming.contentLength_eq {headers : HeaderCollection} (h : NoFraming headers) :
    contentLength headers = npos := by
  rw [contentLength, h.1]

/-- A header line that is not empty and is not a framing header. -/
structure OtherLine (line : Str) : Prop where
  plain : Plain line
  ne_nil : line ≠ []
  name_ne : (readHeader (line ++ crlf)).name ≠ lit "Content-Length" ∧
    (readHeader (line ++ crlf)).name ≠ lit "Transfer-Encoding"

theorem readHeader_name (line : Str) {ending : Str} (hending : LineEnding ending) :
    (readHeader (line ++ ending)).name = (readHeader (line ++ crlf)).name := by
  have hname : ∀ e : Str, LineEnding e →
      (readHeader (line ++ e)).name = cstr (line.takeWhile fun b => !(isSpace b || b == colon)) := by
    intro e he
    refine congrArg cstr (List.takeWhile_append_of_head line fun b hb => ?_)
    simp [isSpace_of_isNewline (he.newline b (List.mem_of_mem_head? hb))]
  rw [hname ending hending, hname crlf .crlf]

theorem otherLine_of_noFraming {head : ResponseHead} (h : NoFraming head.headers) {line : Str}
    (hline : line ∈ head.lines) : OtherLine line := by
  obtain ⟨hlength, hencoding⟩ := h
  rw [ResponseHead.headers, HeaderCollection.get_addAll_eq_none] at hlength hencoding
  have hmem : readHeader (line ++ crlf) ∈ linesHeaders head.lines := List.mem_map_of_mem hline
  obtain ⟨hplain, hne⟩ := head.lines_plain line hline
  exact ⟨hplain, hne, hlength.2 _ hmem, hencoding.2 _ hmem⟩

/-- A reader in a head in which no framing header has come. -/
structure InHead (m : IResponseMemory) : Prop where
  mode : m.bufferMode = .newline
  state : m.derived.streamState = .headers
  body : m.derived.body = []
  headers : NoFraming m.derived.headers

/-- Where a reader stands in a response without framing, and what of its stream is still to come. -/
inductive Unframed : IResponseMemory → Str → Prop
  | startLine {m : IResponseMemory} {pending startLine rest : Str} {lines : List Str}
      (hmode : m.bufferMode = .newline) (hderived : m.derived = {}) (hbuffer : Plain m.buffer)
      (hstart : Plain startLine) (hstatus : setStartline (startLine ++ crlf) ≠ none)
      (hlines : ∀ line ∈ lines, OtherLine line)
      (hstream : m.buffer ++ pending = startLine ++ (crlf ++ (linesBytes lines ++ (crlf ++ rest)))) :
      Unframed m pending
  | lines {m : IResponseMemory} {pending rest : Str} {lines : List Str} (hm : InHead m)
      (hbuffer : Plain m.buffer) (hlines : ∀ line ∈ lines, OtherLine line)
      (hstream : m.buffer ++ pending = linesBytes lines ++ (crlf ++ rest)) : Unframed m pending
  /-- The line end of a line was cut. -/
  | lineFeed {m : IResponseMemory} {rest : Str} (hm : InHead m) (hbuffer : m.buffer = []) :
      Unframed m (lf :: rest)
  | body {m : IResponseMemory} {pending : Str} (hmode : m.bufferMode = .none)
      (hstate : m.derived.streamState = .body) (htype : m.derived.bodyType = .none)
      (hbody : m.derived.body = []) : Unframed m pending

theorem Unframed.body_eq_nil {m : IResponseMemory} {pending : Str} (h : Unframed m pending) :
    m.derived.body = [] := by
  cases h with
  | startLine hmode hderived => rw [hderived]
  | lines hm => exact hm.body
  | lineFeed hm => exact hm.body
  | body hmode hstate htype hbody => exact hbody

theorem Unframed.mode_or {m : IResponseMemory} {pending : Str} (h : Unframed m pending) :
    m.bufferMode = .newline ∨ (m.bufferMode = .none ∧ m.derived.streamState = .body ∧
      m.derived.bodyType = .none ∧ m.derived.body = []) := by
  cases h with
  | startLine hmode => exact .inl hmode
  | lines hm => exact .inl hm.mode
  | lineFeed hm => exact .inl hm.mode
  | body hmode hstate htype hbody => exact .inr ⟨hmode, hstate, htype, hbody⟩

theorem unframed_of_line {m : IResponseMemory} {pending rest : Str} {lines : List Str} (hm : InHead m)
    (hbuffer : m.buffer = []) (hlines : ∀ line ∈ lines, OtherLine line)
    (hpending : pending = linesBytes lines ++ (crlf ++ rest) ∨
      pending = lf :: (linesBytes lines ++ (crlf ++ rest))) : Unframed m pending := by
  rcases hpending with rfl | rfl
  · exact .lines hm (by rw [hbuffer]; exact .nil) hlines (by rw [hbuffer, List.nil_append])
  · exact .lineFeed hm hbuffer

theorem onBufferedData_no_framing {m : IResponseMemory} (hm : InHead m) {data : Str}
    (hdata : (data.head?).any isNewline = true) (pending : Str) :
    m.onBufferedData data = .returns false m.endHeaders ∧ Unframed m.endHeaders.clear pending := by
  have hlength := hm.headers.contentLength_eq
  have hencoding : transferEncoding m.derived.headers = .unknown := by
    rw [transferEncoding, hm.headers.2]
  constructor
  · rw [onBufferedData_blank hm.state hdata, report, endHeaders_derived_streamState, hlength]
    rfl
  · refine .body ?_ ?_ ?_ hm.body
    · simp [endHeaders, BufferedReader.clear, hencoding]
    · simp [endHeaders, BufferedReader.clear, hlength, npos]
    · simp [endHeaders, BufferedReader.clear, hlength, hencoding, BodyType.from]

theorem onBufferedData_other_line {m : IResponseMemory} (hm : InHead m) {line ending : Str}
    (hline : OtherLine line) (hending : LineEnding ending) :
    ∃ next, m.onBufferedData (line ++ ending) = .returns false next ∧ InHead next.clear := by
  refine ⟨m.onHeader (readHeader (line ++ ending)), ?_, hm.mode, hm.state, hm.body, ?_⟩
  · exact onBufferedData_field hm.state (hline.plain.head_append hline.ne_nil ending)
  · have hname := readHeader_name line hending
    refine ⟨?_, ?_⟩
    · exact (HeaderCollection.get_add_of_ne _ (hname ▸ hline.name_ne.1)).trans hm.headers.1
    · exact (HeaderCollection.get_add_of_ne _ (hname ▸ hline.name_ne.2)).trans hm.headers.2

theorem setStartline_of_ending {startLine ending : Str} (hstart : Plain startLine)
    (hending : LineEnding ending) :
    setStartline (cstr (startLine ++ ending)) = setStartline (startLine ++ crlf) := by
  have hnul : nul ∉ startLine ++ ending := by
    rw [List.mem_append, not_or]
    exact ⟨hstart.nul_notMem, fun h => absurd (hending.newline nul h) (by decide)⟩
  rw [cstr_eq_self hnul]
  exact setStartline_lineEnd hstart.nul_notMem hending.ne_nil LineEnding.crlf.ne_nil hending.newline
    LineEnding.crlf.newline

theorem onBufferedData_start_line {m : IResponseMemory} (hmode : m.bufferMode = .newline)
    (hderived : m.derived = {}) {startLine ending : Str} (hstart : Plain startLine)
    (hstatus : setStartline (startLine ++ crlf) ≠ none) (hending : LineEnding ending) :
    ∃ next, m.onBufferedData (startLine ++ ending) = .returns false next ∧ InHead next.clear := by
  obtain ⟨status, hstatus⟩ := Option.ne_none_iff_exists'.mp hstatus
  have hread := (setStartline_of_ending hstart hending).trans hstatus
  refine ⟨(m.setStatus status).setState .headers, ?_, hmode, rfl, congrArg IResponse.body hderived, ?_⟩
  · exact onBufferedData_startline (congrArg IResponse.streamState hderived) hread
  · have hheaders : m.derived.headers = ∅ := congrArg IResponse.headers hderived
    simp [NoFraming, hheaders, HeaderCollection.get]

/-! ### Calls -/

/-- How a reader in newline mode takes a fragment: it is kept whole, or its first line is delivered and the
reading goes on behind it. -/
inductive Takes (m : IResponseMemory) (data pending : Str) : Prop
  | keeps (hpass : m.pass data [nul] = .cantProcess m) (hunframed : Unframed (m.keep data) pending)
  | goesOn {block next : IResponseMemory} {tail : Str} (hpass : m.pass data [nul] = .deliver block tail)
      (hcall : block.onBufferedData block.buffer = .returns false next)
      (hunframed : Unframed next.clear (tail ++ pending))

theorem InHead.of_block {m block : IResponseMemory} (hm : InHead m) (hderived : block.derived = m.derived)
    (hmode : block.bufferMode = .newline) : InHead block := by
  refine ⟨hmode, ?_, ?_, ?_⟩ <;> rw [hderived]
  · exact hm.state
  · exact hm.body
  · exact hm.headers

theorem takes_start_line {m : IResponseMemory} {data pending startLine rest : Str} {lines : List Str}
    (hmode : m.bufferMode = .newline) (hderived : m.derived = {}) (hbuffer : Plain m.buffer)
    (hstart : Plain startLine) (hstatus : setStartline (startLine ++ crlf) ≠ none)
    (hlines : ∀ line ∈ lines, OtherLine line)
    (hstream : m.buffer ++ (data ++ pending)
      = startLine ++ (crlf ++ (linesBytes lines ++ (crlf ++ rest)))) : Takes m data pending := by
  rcases pass_of_cut_line hmode hbuffer hstart hstream with
    ⟨hpass, hkept⟩ | ⟨block, tail, ending, hpass, hblock, hblockMode, hbytes, hending, hpending⟩
  · exact .keeps hpass (.startLine hmode hderived hkept hstart hstatus hlines (by simpa using hstream))
  · obtain ⟨next, hcall, hnext⟩ := onBufferedData_start_line hblockMode (hblock.trans hderived) hstart
      hstatus hending
    rw [← hbytes] at hcall
    exact .goesOn hpass hcall (unframed_of_line hnext rfl hlines hpending)

theorem takes_lines {m : IResponseMemory} {data pending rest : Str} {lines : List Str} (hm : InHead m)
    (hbuffer : Plain m.buffer) (hlines : ∀ line ∈ lines, OtherLine line)
    (hstream : m.buffer ++ (data ++ pending) = linesBytes lines ++ (crlf ++ rest)) :
    Takes m data pending := by
  cases lines with
  | nil =>
      have hempty : m.buffer ++ (data ++ pending) = [] ++ (crlf ++ rest) := hstream
      rcases pass_of_cut_line hm.mode hbuffer .nil hempty with
        ⟨hpass, hkept⟩ | ⟨block, tail, ending, hpass, hblock, hblockMode, hbytes, hending, -⟩
      · exact .keeps hpass (.lines ⟨hm.mode, hm.state, hm.body, hm.headers⟩ hkept hlines (by simpa using hstream))
      · have hdata : (block.buffer.head?).any isNewline = true := by
          rw [hbytes, List.nil_append]
          exact hending.head
        obtain ⟨hcall, hunframed⟩ := onBufferedData_no_framing (hm.of_block hblock hblockMode) hdata
          (tail ++ pending)
        exact .goesOn hpass hcall hunframed
  | cons line lines =>
      obtain ⟨hline, hlines'⟩ := List.forall_mem_cons.mp hlines
      have hbytes : linesBytes (line :: lines) ++ (crlf ++ rest)
          = line ++ (crlf ++ (linesBytes lines ++ (crlf ++ rest))) := by
        simp [linesBytes]
      rw [hbytes] at hstream
      rcases pass_of_cut_line hm.mode hbuffer hline.plain hstream with
        ⟨hpass, hkept⟩ | ⟨block, tail, ending, hpass, hblock, hblockMode, hblockBytes, hending, hpending⟩
      · have hkeptStream : (m.keep data).buffer ++ pending = linesBytes (line :: lines) ++ (crlf ++ rest) := by
          rw [hbytes, BufferedReader.keep_buffer, List.append_assoc, hstream]
        exact .keeps hpass (.lines ⟨hm.mode, hm.state, hm.body, hm.headers⟩ hkept hlines hkeptStream)
      · obtain ⟨next, hcall, hnext⟩ := onBufferedData_other_line (hm.of_block hblock hblockMode) hline hending
        rw [← hblockBytes] at hcall
        exact .goesOn hpass hcall (unframed_of_line hnext rfl hlines' hpending)

theorem takes_line_feed {m : IResponseMemory} (hm : InHead m) (hbuffer : m.buffer = []) (data pending : Str) :
    Takes m (lf :: data) pending := by
  have htakes : ∀ front tail : Str, lf :: data = lf :: front ++ tail →
      BufferedReader.lineLength (lf :: front ++ tail ++ [nul]) = some (lf :: front).length →
      Takes m (lf :: data) pending := by
    intro front tail hsplit hlength
    have hpass := pass_of_found_line hm.mode _ _ hlength
    rw [hbuffer, ← hsplit, List.nil_append] at hpass
    have hblock : InHead { m with
        expectedSize := ([] : Str).length + (lf :: front).length
        buffer := lf :: front } := ⟨hm.mode, hm.state, hm.body, hm.headers⟩
    have hnewline : ((lf :: front).head?).any isNewline = true := rfl
    obtain ⟨hcall, hunframed⟩ := onBufferedData_no_framing hblock hnewline (tail ++ pending)
    exact .goesOn hpass hcall hunframed
  have hlength : ∀ more : Str, BufferedReader.lineLength (lf :: more)
      = some (if (more.head?).any isNewline then 2 else 1) := by
    intro more
    rw [BufferedReader.lineLength, strpbrk_cons_newline (by decide), Option.map_some,
      List.getElem?_cons_succ, List.head?_eq_getElem?]
  cases data with
  | nil => exact htakes [] [] rfl (hlength _)
  | cons b data =>
      cases hb : isNewline b with
      | true =>
          refine htakes [b] data rfl ((hlength _).trans ?_)
          simp [hb]
      | false =>
          refine htakes [] (b :: data) rfl ((hlength _).trans ?_)
          simp [hb]

theorem takes_of_unframed {m : IResponseMemory} {data pending : Str} (h : Unframed m (data ++ pending))
    (hdata : data ≠ []) (hmode : m.bufferMode = .newline) : Takes m data pending := by
  generalize hstream : data ++ pending = stream at h
  cases h with
  | startLine _ hderived hbuffer hstart hstatus hlines hbytes =>
      rw [← hstream] at hbytes
      exact takes_start_line hmode hderived hbuffer hstart hstatus hlines hbytes
  | lines hm hbuffer hlines hbytes =>
      rw [← hstream] at hbytes
      exact takes_lines hm hbuffer hlines hbytes
  | lineFeed hm hbuffer =>
      obtain ⟨b, data, rfl⟩ := List.exists_cons_of_ne_nil hdata
      obtain ⟨rfl, -⟩ := List.cons.inj hstream
      exact takes_line_feed hm hbuffer data pending
  | body hnone => simp [hmode] at hnone

/-- **One call** takes a reader from one place in the stream to another. -/
theorem onData_unframed {m : IResponseMemory} {data pending : Str} (hm : Framed m)
    (h : Unframed m (data ++ pending)) :
    ∃ m', m.onData data = .returns false m' ∧ Unframed m' pending := by
  induction hsize : data.length using Nat.strong_induction_on generalizing m data with
  | _ size ih =>
      by_cases hdata : data = []
      · subst hdata
        exact ⟨m, onData_nil m, h⟩
      rcases h.mode_or with hnewline | ⟨hnone, hstate, htype, hbody⟩
      · cases takes_of_unframed h hdata hnewline with
        | keeps hpass hunframed => exact ⟨m.keep data, onData_of_cantProcess hdata hpass, hunframed⟩
        | @goesOn block next tail hpass hcall hunframed =>
            obtain ⟨hframed, hlt⟩ := progress hm hdata hpass hcall
            rw [onData_of_goesOn hm hdata hpass hcall]
            exact ih tail.length (hsize ▸ hlt) hframed hunframed rfl
      · refine ⟨m, ?_, .body hnone hstate htype hbody⟩
        rw [answer_of_handOver hnone hdata,
          onBufferedData_swallow hstate (by simp [htype]) (by simp [htype]), swallow, if_pos htype]

/-- **Every cutting** of a response without framing is answered with `false` and leaves the body empty. -/
theorem feed_unframed {m : IResponseMemory} {fragments : List Str} (hm : Framed m)
    (h : Unframed m fragments.flatten) :
    ∃ m', feed m fragments = some (List.replicate fragments.length (.returned false), m') ∧
      m'.derived.body = [] := by
  induction fragments generalizing m with
  | nil => exact ⟨m, rfl, h.body_eq_nil⟩
  | cons data fragments ih =>
      obtain ⟨m₁, hcall, hunframed⟩ := onData_unframed hm h
      have hanswer : answer (m.onData data) = some (.returned false, m₁) := by rw [hcall]; rfl
      obtain ⟨m₂, hfeed, hbody⟩ := ih (advance_of_answer hm hanswer).framed hunframed
      refine ⟨m₂, ?_, hbody⟩
      rw [feed, Run.run_cons_of_some hanswer, ← feed, hfeed]
      rfl

theorem feed_bad_start {m : IResponseMemory} {fragments : List Str} {startLine rest : Str} (hm : Framed m)
    (hmode : m.bufferMode = .newline) (hderived : m.derived = {}) (hbuffer : Plain m.buffer)
    (hstart : Plain startLine) (hstatus : setStartline (startLine ++ crlf) = none)
    (hstream : m.buffer ++ fragments.flatten = startLine ++ (crlf ++ rest)) : feed m fragments = none := by
  induction fragments generalizing m with
  | nil =>
      rw [List.flatten_nil, List.append_nil] at hstream
      exact absurd (hbuffer cr (by simp [hstream, crlf])).1 (by decide)
  | cons data fragments ih =>
      rw [List.flatten_cons] at hstream
      rcases pass_of_cut_line hmode hbuffer hstart hstream with
        ⟨hpass, hkept⟩ | ⟨block, tail, ending, hpass, hblock, -, hbytes, hending, -⟩
      · have hcall : m.onData data = .returns false (m.keep data) := by
          by_cases hdata : data = []
          · rw [hdata, onData_nil, BufferedReader.keep_nil]
          · exact onData_of_cantProcess hdata hpass
        have hanswer : answer (m.onData data) = some (.returned false, m.keep data) := by rw [hcall]; rfl
        rw [feed, Run.run_cons_of_some hanswer, ← feed,
          ih (advance_of_answer hm hanswer).framed hmode hderived hkept (by simpa using hstream)]
        rfl
      · have hread := (setStartline_of_ending hstart hending).trans hstatus
        have hcall : onBufferedData block block.buffer = .undefined := by
          rw [hbytes, onBufferedData, hblock, hderived]
          simp only [hread]
        have hdata : data ≠ [] := by
          rintro rfl
          rw [BufferedReader.pass, hmode] at hpass
          cases hpass
        have hanswer : answer (m.onData data) = none := by
          rw [onData_of_undefined hdata hpass hcall]
          rfl
        exact Run.run_cons_of_none hanswer fragments

/-- **A body that ends with the connection is handed over whole** exactly when the start line is one that
the reader can split and the body is empty: the reader discards every byte of it. -/
theorem handedOver_body_iff {head : ResponseHead}
    (hlength : head.headers.get (lit "Content-Length") = none)
    (hencoding : head.headers.get (lit "Transfer-Encoding") = none) {body : Str} {fragments : List Str}
    (hstream : fragments.flatten = head.bytes ++ body) :
    (∃ response, SimpleRequestClient.handedOver fragments = some response ∧ response.derived.body = body) ↔
      setStartline (head.startLine ++ crlf) ≠ none ∧ body = [] := by
  have hbytes : fragments.flatten
      = head.startLine ++ (crlf ++ (linesBytes head.lines ++ (crlf ++ body))) := by
    rw [hstream]
    simp [ResponseHead.bytes]
  rw [SimpleRequestClient.handedOver_eq]
  by_cases hstatus : setStartline (head.startLine ++ crlf) = none
  · rw [feed_bad_start framed_fresh rfl rfl .nil head.startLine_plain hstatus hbytes]
    simp [hstatus]
  · have hunframed : Unframed fresh fragments.flatten :=
      .startLine rfl rfl .nil head.startLine_plain hstatus
        (fun line hline => otherLine_of_noFraming ⟨hlength, hencoding⟩ hline) hbytes
    obtain ⟨response, hfeed, hbody⟩ := feed_unframed framed_fresh hunframed
    rw [hfeed]
    simp [hbody, hstatus, eq_comm]

def plainHead : ResponseHead where
  startLine := lit "HTTP/1.1 200 OK"
  lines := [lit "Connection: close"]
  startLine_plain := plain_ok
  lines_plain := by decide

/-- The body is lost also where the head comes in one piece. -/
theorem handedOver_hello :
    ¬ ∃ response, SimpleRequestClient.handedOver [plainHead.bytes, lit "hello"] = some response ∧
      response.derived.body = lit "hello" := by
  rw [handedOver_body_iff (by decide) (by decide) (by decide : _ = plainHead.bytes ++ lit "hello")]
  decide

theorem not_forall_handedOver_body :
    ¬ ∀ (head : ResponseHead) (body : Str) (fragments : List Str),
      head.headers.get (lit "Content-Length") = none →
      head.headers.get (lit "Transfer-Encoding") = none → fragments.flatten = head.bytes ++ body →
      ∃ response, SimpleRequestClient.handedOver fragments = some response ∧
        response.derived.body = body := by
  intro h
  obtain ⟨response, hresponse, hbody⟩ := h plainHead (lit "hello") [plainHead.bytes ++ lit "hello"]
    (by decide) (by decide) (by decide)
  have hlost : (SimpleRequestClient.handedOver [plainHead.bytes ++ lit "hello"]).map
      (fun response => response.derived.body) = some [] := by decide
  rw [hresponse, Option.map_some, hbody] at hlost
  exact absurd hlost (by decide)

end IResponseMemory

end Rikitiki
