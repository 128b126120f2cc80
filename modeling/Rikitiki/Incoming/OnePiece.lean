import Rikitiki.Incoming.KnownSize

/-!
# Responses in one piece

What one call on a whole response reports: whether the message is complete, how many bytes it has been given
of by then, and its status and body. Behind the head that depends on what the headers say about the body,
which is one of five things (`completes_head`).
-/

namespace Rikitiki.IResponseMemory

/-- How much of the data is handed to `OnBufferedData`. -/
def taken (m : IResponseMemory) (data : Str) : Nat :=
  ((m.onDataCalls data).map fun call => call.2.length).sum

/-- What a call reports that finishes the message: the bytes it has taken, the status and the body. -/
def completes (m : IResponseMemory) (data : Str) : Option (Nat × HttpStatus × Str) :=
  match m.onData data with
  | .returns true next => some (m.taken data, next.derived.status, next.derived.body)
  | _ => none

def behind (size : Nat) (completion : Option (Nat × HttpStatus × Str)) : Option (Nat × HttpStatus × Str) :=
  completion.map fun (n, report) => (size + n, report)

@[simp] theorem behind_none (size : Nat) : behind size none = none := rfl

@[simp] theorem behind_some (size n : Nat) (report : HttpStatus × Str) :
    behind size (some (n, report)) = some (size + n, report) := rfl

theorem behind_behind (size more : Nat) (completion : Option (Nat × HttpStatus × Str)) :
    behind size (behind more completion) = behind (size + more) completion := by
  cases completion with
  | none => rfl
  | some completion =>
      obtain ⟨n, report⟩ := completion
      simp only [behind_some, Nat.add_assoc]

theorem behind_zero (completion : Option (Nat × HttpStatus × Str)) : behind 0 completion = completion := by
  cases completion with
  | none => rfl
  | some completion =>
      obtain ⟨n, report⟩ := completion
      simp only [behind_some, Nat.zero_add]

theorem behind_injective (size : Nat) : Function.Injective (behind size) := by
  apply Option.map_injective
  rintro ⟨n, report⟩ ⟨n', report'⟩ h
  obtain ⟨hn, hreport⟩ := Prod.mk.inj h
  exact Prod.ext (Nat.add_left_cancel hn) hreport

/-! ### One block -/

section Block

variable {m block next : IResponseMemory} {data rest : Str}

theorem completes_of_returns_false (h : m.onData data = .returns false next) : m.completes data = none := by
  rw [completes, h]

theorem completes_nil (m : IResponseMemory) : m.completes [] = none :=
  completes_of_returns_false (onData_nil m)

theorem completes_of_handOver (hmode : m.bufferMode = .none) (hdata : data ≠ [])
    (hcall : m.onBufferedData data = .returns true next) :
    m.completes data = some (data.length, next.derived.status, next.derived.body) := by
  have hpass : m.pass data [nul] = .handOver := BufferedReader.pass_of_none hmode data
  have hcalls : m.onDataCalls data = [(m, data)] := by
    simp only [onDataCalls, fuel, BufferedReader.onDataCalls, if_neg hdata, hpass]
  rw [completes, answer_of_handOver hmode hdata, hcall, taken, hcalls]
  rfl

theorem onDataCalls_of_finishes (hdata : data ≠ []) (hpass : m.pass data [nul] = .deliver block rest)
    (hcall : block.onBufferedData block.buffer = .returns true next) :
    m.onDataCalls data = [(block, block.buffer)] := by
  simp only [onDataCalls, fuel, BufferedReader.onDataCalls, if_neg hdata, hpass, hcall]

theorem onDataCalls_of_goesOn (hm : Framed m) (hdata : data ≠ [])
    (hpass : m.pass data [nul] = .deliver block rest)
    (hcall : block.onBufferedData block.buffer = .returns false next) :
    m.onDataCalls data = (block, block.buffer) :: onDataCalls next.clear rest := by
  obtain ⟨hnext, hlt⟩ := progress hm hdata hpass hcall
  calc m.onDataCalls data
      = (block, block.buffer) ::
          BufferedReader.onDataCalls onBufferedData [nul] (2 * data.length + 1) next.clear rest := by
        simp only [onDataCalls, fuel, BufferedReader.onDataCalls, if_neg hdata, hpass, hcall]
    _ = (block, block.buffer) :: onDataCalls next.clear rest :=
        congrArg _ (BufferedReader.onDataCalls_fuel progress hnext (by omega) (length_lt_fuel rest))

theorem taken_of_finishes (hdata : data ≠ []) (hpass : m.pass data [nul] = .deliver block rest)
    (hcall : block.onBufferedData block.buffer = .returns true next) :
    m.taken data = block.buffer.length := by
  rw [taken, onDataCalls_of_finishes hdata hpass hcall]
  rfl

theorem taken_of_goesOn (hm : Framed m) (hdata : data ≠ [])
    (hpass : m.pass data [nul] = .deliver block rest)
    (hcall : block.onBufferedData block.buffer = .returns false next) :
    m.taken data = block.buffer.length + taken next.clear rest := by
  rw [taken, onDataCalls_of_goesOn hm hdata hpass hcall]
  rfl

theorem completes_of_finishes (hdata : data ≠ []) (hpass : m.pass data [nul] = .deliver block rest)
    (hcall : block.onBufferedData block.buffer = .returns true next) :
    m.completes data = some (block.buffer.length, next.derived.status, next.derived.body) := by
  rw [completes, onData_of_finishes hdata hpass hcall, taken_of_finishes hdata hpass hcall]
  rfl

theorem completes_of_goesOn (hm : Framed m) (hdata : data ≠ [])
    (hpass : m.pass data [nul] = .deliver block rest)
    (hcall : block.onBufferedData block.buffer = .returns false next) :
    m.completes data = behind block.buffer.length (completes next.clear rest) := by
  rw [completes, completes, onData_of_goesOn hm hdata hpass hcall, taken_of_goesOn hm hdata hpass hcall]
  split <;> rfl

end Block

/-! ### The head -/

theorem completes_of_path {boundaries : List Nat} {start stop : IResponseMemory × Str}
    (hpath : Relation.ReflTransGen (LineStep boundaries) start stop) (hm : Framed start.1) :
    ∃ size, start.2.length = size + stop.2.length ∧ Framed stop.1 ∧
      start.1.completes start.2 = behind size (stop.1.completes stop.2) := by
  induction hpath using Relation.ReflTransGen.head_induction_on with
  | refl =>
      exact ⟨0, (Nat.zero_add _).symm, hm, (behind_zero _).symm⟩
  | head hstep _ ih =>
      cases hstep with
      | @intro m next line rest hmode hbuffer hline hcut hcall =>
          obtain ⟨size, hsize, hframed, hcompletes⟩ := ih (hm.next_line hcall)
          have hne : line ++ (crlf ++ rest) ≠ [] := by simp [crlf]
          refine ⟨(line ++ crlf).length + size, ?_, hframed, ?_⟩
          · simp only [List.length_append] at hsize ⊢
            omega
          · rw [completes_of_goesOn hm hne (pass_line hmode hbuffer hline rest) hcall, hcompletes,
              behind_behind]
            rfl

theorem completes_of_path_length {boundaries : List Nat} {start stop : IResponseMemory × Str} {size : Nat}
    (hpath : Relation.ReflTransGen (LineStep boundaries) start stop) (hm : Framed start.1)
    (hsize : start.2.length = size + stop.2.length) :
    start.1.completes start.2 = behind size (stop.1.completes stop.2) := by
  obtain ⟨size', hsize', -, hcompletes⟩ := completes_of_path hpath hm
  obtain rfl : size' = size := by omega
  exact hcompletes

/-- **A head** is followed by what its reader makes of the rest. -/
theorem completes_head_rest {head : ResponseHead} {status : HttpStatus}
    (hstatus : setStartline (head.startLine ++ crlf) = some status)
    (hlength : contentLength head.headers ≠ 0) (rest : Str) :
    fresh.completes (head.bytes ++ rest)
      = behind head.bytes.length ((afterHead status head.headers).completes rest) := by
  have hnone : ∀ front back, head.bytes = front ++ (crlf ++ back) →
      (back ++ rest).length + 1 ∉ ([] : List Nat) := by simp
  obtain ⟨m, hpath, hmode, hbuffer, hderived⟩ := head_path hstatus hnone
  have hcall := onBufferedData_empty_line hderived
  rw [decide_eq_false hlength] at hcall
  have hlast : LineStep [] (m, [] ++ (crlf ++ rest)) ((m.withLine []).endHeaders.clear, rest) :=
    .intro hmode hbuffer .nil (by simp) hcall
  rw [clear_endHeaders (show (m.withLine []).derived = _ from hderived)] at hlast
  exact completes_of_path_length (hpath.tail hlast) framed_fresh List.length_append

theorem completes_head_empty {head : ResponseHead} {status : HttpStatus}
    (hstatus : setStartline (head.startLine ++ crlf) = some status)
    (hlength : contentLength head.headers = 0) (rest : Str) :
    fresh.completes (head.bytes ++ rest) = some (head.bytes.length, status, []) := by
  have hnone : ∀ front back, head.bytes = front ++ (crlf ++ back) →
      (back ++ rest).length + 1 ∉ ([] : List Nat) := by simp
  obtain ⟨m, hpath, hmode, hbuffer, hderived⟩ := head_path hstatus hnone
  have hcall := onBufferedData_empty_line hderived
  rw [decide_eq_true hlength] at hcall
  have hlast := completes_of_finishes (show [] ++ (crlf ++ rest) ≠ [] by simp [crlf])
    (pass_line hmode hbuffer .nil rest) hcall
  have hderived' : (m.withLine []).endHeaders.derived = (afterHead status head.headers).derived := by
    rw [← clear_endHeaders (show (m.withLine []).derived = _ from hderived)]
    rfl
  have htwo : 2 ≤ head.bytes.length := by
    simp only [ResponseHead.bytes, List.length_append, show crlf.length = 2 from rfl]
    omega
  have hsize : (head.bytes ++ rest).length = (head.bytes.length - 2) + (crlf ++ rest).length := by
    simp only [List.length_append, show crlf.length = 2 from rfl]
    omega
  rw [List.nil_append, hderived'] at hlast
  rw [completes_of_path_length hpath framed_fresh hsize, hlast, behind_some, withLine, List.nil_append,
    show crlf.length = 2 from rfl, Nat.sub_add_cancel htwo]
  rfl

def withHeaders (m : IResponseMemory) (headers : HeaderCollection) : IResponseMemory :=
  m.mapDerived fun derived => { derived with headers }

theorem onBufferedData_withHeaders (headers : HeaderCollection) {m : IResponseMemory}
    (hstate : m.derived.streamState = .body) (data : Str) :
    (m.withHeaders headers).onBufferedData data
      = BufferedReader.outcomeMap (fun derived => { derived with headers }) (m.onBufferedData data) := by
  have hstate' : (m.withHeaders headers).derived.streamState = .body := hstate
  have htype' : (m.withHeaders headers).derived.bodyType = m.derived.bodyType := rfl
  have hsize' : (m.withHeaders headers).expectedSize = m.expectedSize := rfl
  rw [onBufferedData, onBufferedData, hstate, hstate']
  simp only [htype', hsize', onBodyData]
  cases m.derived.bodyType with
  | chunked =>
      simp only
      split_ifs
      all_goals rfl
  | knownSize =>
      simp only
      split_ifs
      all_goals rfl
  | unknown => simp only [Nat.le_refl, if_true]; rfl
  | buffering => simp only [Nat.le_refl, if_true]; rfl
  | none => rfl

theorem body_of_returns_false {m next : IResponseMemory} {data : Str} (hstate : m.derived.streamState = .body)
    (hcall : m.onBufferedData data = .returns false next) : next.derived.streamState = .body := by
  obtain ⟨htransition, hvalue⟩ := transition_of_returns hcall
  have hle := htransition.streamState_le
  rw [hstate] at hle
  exact MessageState.eq_body hle (of_decide_eq_false hvalue.symm)

theorem onData_withHeaders (headers : HeaderCollection) {m : IResponseMemory}
    (hstate : m.derived.streamState = .body) (data : Str) :
    onData (m.withHeaders headers) data
        = BufferedReader.outcomeMap (fun derived => { derived with headers }) (m.onData data) ∧
      (onDataCalls (m.withHeaders headers) data).map Prod.snd = (m.onDataCalls data).map Prod.snd :=
  BufferedReader.onDataLoop_mapDerived (P := fun derived => derived.streamState = .body)
    (fun _ data h => onBufferedData_withHeaders headers h data)
    (fun _ _ _ h hnext => body_of_returns_false h hnext) (fuel data) hstate data

theorem completes_withHeaders (headers : HeaderCollection) {m : IResponseMemory}
    (hstate : m.derived.streamState = .body) (data : Str) :
    (m.withHeaders headers).completes data = m.completes data := by
  obtain ⟨hdata, hcalls⟩ := onData_withHeaders headers hstate data
  have htaken : (m.withHeaders headers).taken data = m.taken data := by
    have hlengths := congrArg (fun blocks => (blocks.map List.length).sum) hcalls
    simp only [List.map_map] at hlengths
    exact hlengths
  rw [completes, completes, hdata, htaken]
  cases m.onData data with
  | returns value next => cases value <;> rfl
  | throws error next => rfl
  | undefined => rfl
  | running => rfl

theorem headers_of_body {m next : IResponseMemory} {data : Str} {value : Bool}
    (hstate : m.derived.streamState = .body) (h : m.onData data = .returns value next) :
    next.derived.headers = m.derived.headers := by
  have hdata := (onData_withHeaders m.derived.headers hstate data).1
  rw [show m.withHeaders m.derived.headers = m from rfl, h] at hdata
  exact congrArg (fun next => next.derived.headers) (Outcome.returns.inj hdata).2

/-- What the headers of a response say about its body. -/
inductive Extent where
  /-- there is none -/
  | empty
  /-- it has this many bytes -/
  | length (n : Nat)
  /-- it has a length and is chunked, and is then read as one line -/
  | line
  /-- it is chunked -/
  | chunks
  /-- it ends with the connection -/
  | unbounded
  deriving DecidableEq, Repr

def extent (headers : HeaderCollection) : Extent :=
  if contentLength headers = 0 then .empty
  else if contentLength headers = npos then
    if transferEncoding headers = .chunked then .chunks else .unbounded
  else if transferEncoding headers = .chunked then .line else .length (contentLength headers)

def chunkReader (status : HttpStatus) : IResponseMemory :=
  { derived := { streamState := .body, bodyType := .chunked, status := status } }

def Extent.completes (status : HttpStatus) (rest : Str) : Extent → Option (Nat × HttpStatus × Str)
  | .empty => some (0, status, [])
  | .length n => if n ≤ rest.length then some (rest.length, status, rest) else none
  | .line => (BufferedReader.lineLength (rest ++ [nul])).map fun n => (n, status, rest.take n)
  | .chunks => (chunkReader status).completes rest
  | .unbounded => none

section Bodies

variable {status : HttpStatus} {headers : HeaderCollection}

theorem completes_length (hzero : contentLength headers ≠ 0) (hnpos : contentLength headers ≠ npos)
    (hencoding : transferEncoding headers ≠ .chunked) (rest : Str) :
    (afterHead status headers).completes rest
      = (Extent.length (contentLength headers)).completes status rest := by
  have hmissing : Missing (afterHead status headers) := missing_afterHead hzero hnpos hencoding
  have hexpected : (afterHead status headers).expectedSize = contentLength headers := by
    simp [afterHead, inHeaders]
  rw [Extent.completes]
  by_cases hle : contentLength headers ≤ rest.length
  · have hrest : rest ≠ [] := by
      rintro rfl
      exact hzero (Nat.le_zero.mp hle)
    rw [if_pos hle, completes_of_handOver hmissing.mode hrest
      (onBufferedData_lastPart hmissing hrest (hexpected ▸ hle))]
    simp [lastPart, afterHead, inHeaders, writeBody, setState]
  · have hlt : rest.length < (afterHead status headers).expectedSize := by
      rw [hexpected]
      exact Nat.lt_of_not_le hle
    rw [if_neg hle]
    by_cases hrest : rest = []
    · rw [hrest, completes_nil]
    · exact completes_of_returns_false
        ((answer_of_handOver hmissing.mode hrest).trans (onBufferedData_part hmissing hrest hlt))

theorem completes_unbounded (hnpos : contentLength headers = npos)
    (hencoding : transferEncoding headers ≠ .chunked) (rest : Str) :
    (afterHead status headers).completes rest = none := by
  have hmode : (afterHead status headers).bufferMode = .none := by simp [afterHead, hencoding, inHeaders]
  have hstate : (afterHead status headers).derived.streamState = .body := by
    simp [afterHead, inHeaders, hnpos, npos]
  have htype : (afterHead status headers).derived.bodyType = .none := by
    simp [afterHead, inHeaders, BodyType.from, hnpos, hencoding]
  by_cases hrest : rest = []
  · rw [hrest, completes_nil]
  · have hcall := onBufferedData_swallow hstate (by simp [htype]) (by simp [htype]) rest
    exact completes_of_returns_false ((answer_of_handOver hmode hrest).trans hcall)

theorem completes_chunks (hnpos : contentLength headers = npos)
    (hencoding : transferEncoding headers = .chunked) (rest : Str) :
    (afterHead status headers).completes rest = (chunkReader status).completes rest := by
  have hreader : afterHead status headers = (chunkReader status).withHeaders headers := by
    simp [afterHead, endHeaders, inHeaders, BufferedReader.clear, chunkReader, withHeaders,
      BufferedReader.mapDerived, BodyType.from, hnpos, hencoding, npos]
  rw [hreader, completes_withHeaders headers rfl]

theorem onBufferedData_whole {m : IResponseMemory} (hstate : m.derived.streamState = .body)
    (htype : m.derived.bodyType = .knownSize) {data : Str} (hdata : data ≠ [])
    (hsize : m.expectedSize = data.length) :
    ∃ next, m.onBufferedData data = .returns true next ∧ next.derived.status = m.derived.status ∧
      next.derived.body = m.derived.body ++ data := by
  refine ⟨finishBody (afterBody (writeBody { m with bufferMode := .none } data) data.length), ?_, rfl, rfl⟩
  rw [onBufferedData, hstate]
  simp [htype, hdata, onBodyData_all, report, hsize]

theorem completes_first_line {m : IResponseMemory} (hmode : m.bufferMode = .newline)
    (hbuffer : m.buffer = []) (hstate : m.derived.streamState = .body)
    (htype : m.derived.bodyType = .knownSize) {rest : Str} {n : Nat}
    (hline : BufferedReader.lineLength (rest ++ [nul]) = some n) :
    m.completes rest = some (n, m.derived.status, m.derived.body ++ rest.take n) := by
  obtain ⟨hpos, hle⟩ := lineLength_nul hline
  have hrest : rest ≠ [] := List.ne_nil_of_length_pos (by omega)
  have htake : (rest.take n).length = n := List.length_take_of_le hle
  have hfound : BufferedReader.lineLength (rest.take n ++ rest.drop n ++ [nul])
      = some (rest.take n).length := by
    rw [List.take_append_drop, hline, htake]
  have hpass := pass_of_found_line hmode (rest.take n) (rest.drop n) hfound
  rw [List.take_append_drop, hbuffer, List.nil_append, List.length_nil, Nat.zero_add, htake] at hpass
  have hwhole : ∃ next, onBufferedData { m with expectedSize := n, buffer := rest.take n } (rest.take n)
      = .returns true next ∧ next.derived.status = m.derived.status ∧
        next.derived.body = m.derived.body ++ rest.take n := by
    apply onBufferedData_whole
    · exact hstate
    · exact htype
    · exact List.ne_nil_of_length_pos (by omega)
    · exact htake.symm
  obtain ⟨next, hcall, hstatus, hbody⟩ := hwhole
  rw [completes_of_finishes hrest hpass hcall, hstatus, hbody, htake]

theorem completes_line (hzero : contentLength headers ≠ 0) (hnpos : contentLength headers ≠ npos)
    (hencoding : transferEncoding headers = .chunked) (rest : Str) :
    (afterHead status headers).completes rest = Extent.line.completes status rest := by
  have hmode : (afterHead status headers).bufferMode = .newline := by simp [afterHead, hencoding, inHeaders]
  rw [Extent.completes]
  cases hline : BufferedReader.lineLength (rest ++ [nul]) with
  | none =>
      by_cases hrest : rest = []
      · rw [hrest, completes_nil]
        rfl
      · exact completes_of_returns_false
          (onData_of_cantProcess hrest (BufferedReader.pass_of_no_line hmode hline))
  | some n =>
      have hstate : (afterHead status headers).derived.streamState = .body := by
        simp [afterHead, inHeaders, hzero]
      have htype : (afterHead status headers).derived.bodyType = .knownSize := by
        simp [afterHead, inHeaders, BodyType.from, hnpos]
      exact completes_first_line hmode rfl hstate htype hline

theorem completes_afterHead (hzero : contentLength headers ≠ 0) (rest : Str) :
    (afterHead status headers).completes rest = (extent headers).completes status rest := by
  rw [extent, if_neg hzero]
  split_ifs with hnpos hencoding hencoding
  · exact completes_chunks hnpos hencoding rest
  · exact completes_unbounded hnpos hencoding rest
  · exact completes_line hzero hnpos hencoding rest
  · exact completes_length hzero hnpos hencoding rest

end Bodies

/-- **What one call on a whole response reports.** -/
theorem completes_head {head : ResponseHead} {status : HttpStatus}
    (hstatus : setStartline (head.startLine ++ crlf) = some status) (rest : Str) :
    fresh.completes (head.bytes ++ rest)
      = behind head.bytes.length ((extent head.headers).completes status rest) := by
  by_cases hzero : contentLength head.headers = 0
  · rw [extent, if_pos hzero]
    exact completes_head_empty hstatus hzero rest
  · rw [completes_head_rest hstatus hzero, completes_afterHead hzero]

end Rikitiki.IResponseMemory
