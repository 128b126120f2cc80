import Rikitiki.Incoming.Fragments

/-!
# Reading the head of a response

A head is a start line, header lines and an empty line, each ended by CR and LF. Reading it is a path of
`LineStep`s, from a fresh reader to `afterHead`; a path is followed by fragments that do not cut its line
ends (`ends_of_path`), and by one call on everything (`onData_of_path`).
-/

namespace Rikitiki

theorem findIdx_line {line : Str} (hline : Plain line) (rest : Str) :
    (line ++ (crlf ++ rest)).findIdx? isNewline = some line.length := by
  have hnone : line.findIdx? isNewline = none := by
    rw [List.findIdx?_eq_none_iff]
    exact fun b hb => (hline b hb).1
  rw [findIdx_append hnone, crlf, List.cons_append, List.findIdx?_cons, if_pos (by decide)]
  rfl

theorem lineEnd_line {line : Str} (hline : Plain line) (rest : Str) :
    lineEnd (line ++ (crlf ++ rest)) = some (line.length + 2) := by
  have hget : (line ++ (crlf ++ rest))[line.length + 1]? = some lf := by
    rw [List.getElem?_append_right (by omega), Nat.add_sub_cancel_left]
    rfl
  rw [lineEnd, findIdx_line hline, Option.map_some, hget]
  rfl

theorem take_line (line rest : Str) :
    (line ++ (crlf ++ rest)).take (line.length + 2) = line ++ crlf := by
  rw [List.take_length_add_append]
  rfl

theorem drop_line (line rest : Str) :
    (line ++ (crlf ++ rest)).drop (line.length + 2) = rest := by
  rw [List.drop_length_add_append]
  rfl

/-! ### Heads -/

/-- The head of a response: a start line and header lines that are not empty. -/
structure ResponseHead where
  startLine : Str
  lines : List Str
  startLine_plain : Plain startLine
  lines_plain : ∀ line ∈ lines, Plain line ∧ line ≠ []

theorem plain_ok : Plain (lit "HTTP/1.1 200 OK") := by decide

def linesBytes (lines : List Str) : Str := (lines.map (· ++ crlf)).flatten

def linesHeaders (lines : List Str) : List Header := lines.map fun line => readHeader (line ++ crlf)

namespace ResponseHead

def bytes (head : ResponseHead) : Str :=
  head.startLine ++ (crlf ++ (linesBytes head.lines ++ crlf))

def headers (head : ResponseHead) : HeaderCollection :=
  HeaderCollection.addAll ∅ (linesHeaders head.lines)

end ResponseHead

/-- The cutting goes through a line end of the first `size` bytes. -/
def CutsLineEnd (fragments : List Str) (size : Nat) : Prop :=
  ∃ before later, fragments = before ++ later ∧ before.flatten.length < size ∧
    before.flatten.getLast? = some cr ∧ later.flatten.head? = some lf

theorem not_cutsLineEnd_of_first {fragment : Str} {fragments : List Str} {size : Nat}
    (hsize : size ≤ fragment.length) : ¬ CutsLineEnd (fragment :: fragments) size := by
  rintro ⟨before, later, hsplit, hlt, hcr, -⟩
  cases before with
  | nil => cases hcr
  | cons f before =>
      obtain ⟨rfl, -⟩ := List.cons.inj hsplit
      rw [List.flatten_cons, List.length_append] at hlt
      omega

theorem notMem_of_not_cutsLineEnd {fragments : List Str} {size : Nat} {front back : Str}
    (hcuts : ¬ CutsLineEnd fragments size) (hstream : fragments.flatten = front ++ (crlf ++ back))
    (hsize : front.length + 1 < size) : back.length + 1 ∉ Cuts.boundaries fragments := by
  intro hmem
  obtain ⟨before, later, rfl, hlength⟩ := Cuts.mem_boundaries_iff.mp hmem
  have hsplit : before.flatten ++ later.flatten = (front ++ [cr]) ++ (lf :: back) := by
    rw [← List.flatten_append, hstream]
    simp [crlf]
  obtain ⟨hbefore, hlater⟩ := List.append_inj' hsplit (by rw [hlength, List.length_cons])
  refine hcuts ⟨before, later, rfl, ?_, ?_, ?_⟩
  · rw [hbefore, List.length_append, List.length_singleton]
    exact hsize
  · rw [hbefore, List.getLast?_concat]
  · rw [hlater, List.head?_cons]

namespace IResponseMemory

def withLine (m : IResponseMemory) (line : Str) : IResponseMemory :=
  { m with expectedSize := line.length + 2, buffer := line ++ crlf }

/-- A line is read whose line end is not cut, and the reading goes on behind it. -/
inductive LineStep (boundaries : List Nat) : IResponseMemory × Str → IResponseMemory × Str → Prop
  | intro {m next : IResponseMemory} {line rest : Str} (hmode : m.bufferMode = .newline)
      (hbuffer : m.buffer = []) (hline : Plain line) (hcut : rest.length + 1 ∉ boundaries)
      (hcall : (m.withLine line).onBufferedData (line ++ crlf) = .returns false next) :
      LineStep boundaries (m, line ++ (crlf ++ rest)) (next.clear, rest)

theorem nextBlock_line {m : IResponseMemory} (hmode : m.bufferMode = .newline) {line : Str}
    (hline : Plain line) (rest : Str) :
    m.nextBlock (line ++ (crlf ++ rest)) = some (m.withLine line, line.length + 2) := by
  rw [nextBlock]
  simp only [hmode, lineEnd_line hline, Option.map_some, take_line, withLine]

theorem cleanBlock_line {m : IResponseMemory} {boundaries : List Nat} (hmode : m.bufferMode = .newline)
    {line rest : Str} (hline : Plain line) (hcut : rest.length + 1 ∉ boundaries) :
    CleanBlock boundaries m (line ++ (crlf ++ rest)) where
  whole _ pos hpos _ := by
    obtain rfl : line.length = pos := by
      rw [findIdx_line hline] at hpos
      exact Option.some.inj hpos
    have hlength : (line ++ (crlf ++ rest)).length - (line.length + 1) = rest.length + 1 := by
      simp only [List.length_append, show crlf.length = 2 from rfl]
      omega
    rwa [hlength]
  visible _ pos hpos q hq hnul := by
    obtain rfl : line.length = pos := by
      rw [findIdx_line hline] at hpos
      exact Option.some.inj hpos
    rw [List.getElem?_append_left hq] at hnul
    exact absurd (List.mem_of_getElem? hnul) hline.nul_notMem
  bounded hnone := by simp [hmode] at hnone

theorem firstBlock_line {m : IResponseMemory} {boundaries : List Nat} {fragments : List Str}
    {line rest : Str} (hm : Framed m) (hmode : m.bufferMode = .newline) (hbuffer : m.buffer = [])
    (hline : Plain line) (hcut : rest.length + 1 ∉ boundaries)
    (hstream : fragments.flatten = line ++ (crlf ++ rest))
    (hmarks : Cuts.Marks boundaries fragments) : FirstBlock boundaries m fragments := by
  refine feed_first_block hm (carried_of_buffer_nil hbuffer) (by simp [hmode]) ?_ hmarks
  rw [BufferedReader.clear_of_buffer_nil hbuffer, hbuffer, List.nil_append, hstream]
  exact cleanBlock_line hmode hline hcut

theorem Framed.next_line {m next : IResponseMemory} {line : Str} {value : Bool} (hm : Framed m)
    (hcall : (m.withLine line).onBufferedData (line ++ crlf) = .returns value next) :
    Framed next.clear :=
  ((transition_of_returns hcall).1.moded ⟨hm.body_of_length, hm.mode_of_chunked⟩).clear

theorem Live.next_line {m next : IResponseMemory} {line : Str} (hlive : Live m)
    (hmode : m.bufferMode = .newline)
    (hcall : (m.withLine line).onBufferedData (line ++ crlf) = .returns false next) :
    Live next.clear := by
  obtain ⟨htransition, hvalue⟩ := transition_of_returns hcall
  have hline : Live (m.withLine line) := hlive.same rfl rfl fun hnone => by simp [hmode] at hnone
  exact (htransition.live hline (of_decide_eq_false hvalue.symm)).same rfl rfl fun _ => rfl

theorem ends_of_line {m next : IResponseMemory} {boundaries : List Nat} {fragments : List Str}
    {line rest : Str} {reading : Reading} (hm : Framed m) (hmode : m.bufferMode = .newline)
    (hbuffer : m.buffer = []) (hline : Plain line) (hcut : rest.length + 1 ∉ boundaries)
    (hcall : (m.withLine line).onBufferedData (line ++ crlf) = .returns false next)
    (hstream : fragments.flatten = line ++ (crlf ++ rest)) (hmarks : Cuts.Marks boundaries fragments)
    (hrest : ∀ fragments : List Str, fragments.flatten = rest → Cuts.Marks boundaries fragments →
      Ends fragments reading (feed next.clear fragments)) :
    Ends fragments reading (feed m fragments) := by
  have hblock := nextBlock_line hmode hline rest
  cases firstBlock_line hm hmode hbuffer hline hcut hstream hmarks with
  | carried hnone hfeed hderived =>
      rw [BufferedReader.clear_of_buffer_nil hbuffer, hbuffer, List.nil_append, hstream, hblock] at hnone
      cases hnone
  | @delivered before later fragment rest' block m₁ length hfragments hfeed hm₁ hfragment hpass hblock'
      htake hdrop hle hmarks' =>
      rw [BufferedReader.clear_of_buffer_nil hbuffer, hbuffer, List.nil_append, hstream, hblock,
        Option.some.injEq, Prod.mk.injEq] at hblock'
      obtain ⟨rfl, rfl⟩ := hblock'
      rw [hbuffer, List.nil_append, hstream, drop_line] at hdrop
      rw [hfragments]
      exact .prepend hfeed (onData_of_goesOn hm₁ hfragment hpass hcall) hle
        (hrest (rest' :: later) (by rw [hdrop]; rfl) hmarks')

/-- A line after which the reading does not go on decides itself. -/
theorem ends_of_last_line {m : IResponseMemory} {boundaries : List Nat} {fragments : List Str}
    {line rest : Str} {reading : Reading} (hm : Framed m) (hlive : Live m)
    (hmode : m.bufferMode = .newline) (hbuffer : m.buffer = []) (hline : Plain line)
    (hcut : rest.length + 1 ∉ boundaries)
    (hcall : ∀ next, (m.withLine line).onBufferedData (line ++ crlf) ≠ .returns false next)
    (hreads : Reads m (line ++ (crlf ++ rest)) reading)
    (hstream : fragments.flatten = line ++ (crlf ++ rest))
    (hmarks : Cuts.Marks boundaries fragments) : Ends fragments reading (feed m fragments) := by
  have hclear := BufferedReader.clear_of_buffer_nil hbuffer
  apply ends_of_first_block hlive (firstBlock_line hm hmode hbuffer hline hcut hstream hmarks)
  · rwa [hclear, hbuffer, List.nil_append, hstream]
  · intro block next length rest' later hblock hreturns _ _
    rw [hclear, hbuffer, List.nil_append, hstream, nextBlock_line hmode hline rest, Option.some.injEq,
      Prod.mk.injEq] at hblock
    obtain ⟨rfl, rfl⟩ := hblock
    rw [hbuffer, List.nil_append, hstream, take_line] at hreturns
    exact absurd hreturns (hcall next)

/-! ### Paths of lines -/

/-- **Fragments that cut no line end** are read along a path of lines as the stream behind it is. -/
theorem ends_of_path {boundaries : List Nat} {start stop : IResponseMemory × Str} {reading : Reading}
    (hpath : Relation.ReflTransGen (LineStep boundaries) start stop)
    (hrest : ∀ fragments : List Str, Framed stop.1 → Live stop.1 → fragments.flatten = stop.2 →
      Cuts.Marks boundaries fragments → Ends fragments reading (feed stop.1 fragments))
    {fragments : List Str} (hm : Framed start.1) (hlive : Live start.1)
    (hstream : fragments.flatten = start.2) (hmarks : Cuts.Marks boundaries fragments) :
    Ends fragments reading (feed start.1 fragments) := by
  induction hpath using Relation.ReflTransGen.head_induction_on generalizing fragments with
  | refl => exact hrest fragments hm hlive hstream hmarks
  | head hstep _ ih =>
      cases hstep with
      | @intro m next line rest hmode hbuffer hline hcut hcall =>
          apply ends_of_line hm hmode hbuffer hline hcut hcall hstream hmarks
          intro fragments' hstream' hmarks'
          exact ih (hm.next_line hcall) (hlive.next_line hmode hcall) hstream' hmarks'

theorem lineLength_line {line : Str} (hline : Plain line) (rest : Str) :
    BufferedReader.lineLength (line ++ (crlf ++ rest) ++ [nul]) = some (line.length + 2) := by
  have hsearch : strpbrk (line ++ (crlf ++ rest) ++ [nul]) = some line.length := by
    rw [List.append_assoc, strpbrk_plain_append hline, crlf, List.cons_append, List.cons_append,
      strpbrk_cons_newline (by decide)]
    rfl
  have hget : (line ++ (crlf ++ rest) ++ [nul])[line.length + 1]? = some lf := by
    rw [List.append_assoc, List.getElem?_append_right (by omega), Nat.add_sub_cancel_left]
    rfl
  rw [BufferedReader.lineLength, hsearch, Option.map_some, hget]
  rfl

theorem pass_of_found_line {m : IResponseMemory} (hmode : m.bufferMode = .newline) (front tail : Str)
    (hlength : BufferedReader.lineLength (front ++ tail ++ [nul]) = some front.length) :
    m.pass (front ++ tail) [nul] = .deliver { m with
      expectedSize := m.buffer.length + front.length
      buffer := m.buffer ++ front } tail := by
  rw [BufferedReader.pass_of_line hmode hlength, BufferedReader.passLength,
    sizeSub_of_le (Nat.le_add_right _ _), Nat.add_sub_cancel_left, if_pos (by simp), List.take_left,
    List.drop_left]

theorem pass_line {m : IResponseMemory} (hmode : m.bufferMode = .newline) (hbuffer : m.buffer = [])
    {line : Str} (hline : Plain line) (rest : Str) :
    m.pass (line ++ (crlf ++ rest)) [nul] = .deliver (m.withLine line) rest := by
  have hlength : BufferedReader.lineLength (line ++ crlf ++ rest ++ [nul]) = some (line ++ crlf).length := by
    rw [List.append_assoc line, lineLength_line hline, List.length_append]
    rfl
  rw [← List.append_assoc, pass_of_found_line hmode (line ++ crlf) rest hlength, hbuffer, withLine,
    List.nil_append, List.length_nil, Nat.zero_add, List.length_append]
  rfl

/-- **One call on everything** is a call on what stands behind a path of lines. -/
theorem onData_of_path {boundaries : List Nat} {start stop : IResponseMemory × Str}
    (hpath : Relation.ReflTransGen (LineStep boundaries) start stop) (hm : Framed start.1) :
    start.1.onData start.2 = stop.1.onData stop.2 ∧ Framed stop.1 := by
  induction hpath using Relation.ReflTransGen.head_induction_on with
  | refl => exact ⟨rfl, hm⟩
  | head hstep _ ih =>
      cases hstep with
      | @intro m next line rest hmode hbuffer hline hcut hcall =>
          have hne : line ++ (crlf ++ rest) ≠ [] := by simp [crlf]
          rw [onData_of_goesOn hm hne (pass_line hmode hbuffer hline rest) hcall]
          exact ih (hm.next_line hcall)

/-! ### From the first byte to the empty line -/

def inHeaders (status : HttpStatus) (headers : HeaderCollection) : IResponse :=
  { streamState := .headers, status := status, headers := headers }

/-- The reader behind the empty line of a head. -/
def afterHead (status : HttpStatus) (headers : HeaderCollection) : IResponseMemory :=
  (endHeaders { derived := inHeaders status headers }).clear

theorem onBufferedData_header {m : IResponseMemory} (hstate : m.derived.streamState = .headers)
    {line : Str} (hline : Plain line) (hne : line ≠ []) :
    m.onBufferedData (line ++ crlf)
      = .returns false (m.onHeader (readHeader (line ++ crlf))) := by
  exact onBufferedData_field hstate (hline.head_append hne crlf)

theorem lines_path {boundaries : List Nat} {lines : List Str} {rest : Str} {m : IResponseMemory}
    (hmode : m.bufferMode = .newline) (hbuffer : m.buffer = [])
    (hstate : m.derived.streamState = .headers) (hlines : ∀ line ∈ lines, Plain line ∧ line ≠ [])
    (hcut : ∀ front back, linesBytes lines = front ++ (crlf ++ back) →
      (back ++ rest).length + 1 ∉ boundaries) :
    ∃ m', Relation.ReflTransGen (LineStep boundaries) (m, linesBytes lines ++ rest) (m', rest) ∧
      m'.bufferMode = .newline ∧ m'.buffer = [] ∧
      m'.derived = { m.derived with headers := m.derived.headers.addAll (linesHeaders lines) } := by
  induction lines generalizing m with
  | nil => exact ⟨m, .refl, hmode, hbuffer, by simp [linesHeaders]⟩
  | cons line lines ih =>
      obtain ⟨hline, hne⟩ := hlines line (by simp)
      have hbytes : linesBytes (line :: lines) = line ++ (crlf ++ linesBytes lines) := by
        simp [linesBytes]
      have hcall : (m.withLine line).onBufferedData (line ++ crlf)
          = .returns false ((m.withLine line).onHeader (readHeader (line ++ crlf))) :=
        onBufferedData_header (show (m.withLine line).derived.streamState = .headers from hstate) hline hne
      have hstep : LineStep boundaries (m, linesBytes (line :: lines) ++ rest)
          (((m.withLine line).onHeader (readHeader (line ++ crlf))).clear, linesBytes lines ++ rest) := by
        rw [hbytes, List.append_assoc, List.append_assoc]
        exact .intro hmode hbuffer hline (hcut line _ hbytes) hcall
      have hmode' : ((m.withLine line).onHeader (readHeader (line ++ crlf))).clear.bufferMode = .newline :=
        hmode
      obtain ⟨m', hpath, hlast, hbuffer', hderived⟩ := ih hmode' rfl hstate
        (fun l hl => hlines l (by simp [hl]))
        (fun front back hback => hcut (line ++ (crlf ++ front)) back (by rw [hbytes, hback]; simp))
      exact ⟨m', .head hstep hpath, hlast, hbuffer', hderived⟩

theorem onBufferedData_start {head : ResponseHead} {status : HttpStatus}
    (hstatus : setStartline (head.startLine ++ crlf) = some status) :
    (fresh.withLine head.startLine).onBufferedData (head.startLine ++ crlf)
      = .returns false (((fresh.withLine head.startLine).setStatus status).setState .headers) := by
  have hnul : nul ∉ head.startLine ++ crlf := by
    simp only [List.mem_append, not_or]
    exact ⟨head.startLine_plain.nul_notMem, by decide⟩
  apply onBufferedData_startline rfl
  rw [cstr_eq_self hnul, hstatus]

theorem head_path {boundaries : List Nat} {head : ResponseHead} {rest : Str} {status : HttpStatus}
    (hstatus : setStartline (head.startLine ++ crlf) = some status)
    (hcut : ∀ front back, head.bytes = front ++ (crlf ++ back) →
      (back ++ rest).length + 1 ∉ boundaries) :
    ∃ m, Relation.ReflTransGen (LineStep boundaries) (fresh, head.bytes ++ rest) (m, crlf ++ rest) ∧
      m.bufferMode = .newline ∧ m.buffer = [] ∧ m.derived = inHeaders status head.headers := by
  have hcall := onBufferedData_start hstatus
  have hstep : LineStep boundaries (fresh, head.bytes ++ rest)
      ((((fresh.withLine head.startLine).setStatus status).setState .headers).clear,
        linesBytes head.lines ++ (crlf ++ rest)) := by
    rw [ResponseHead.bytes, List.append_assoc, List.append_assoc, List.append_assoc]
    refine .intro rfl rfl head.startLine_plain ?_ hcall
    rw [← List.append_assoc]
    exact hcut head.startLine _ rfl
  have hlines : ∃ m, Relation.ReflTransGen (LineStep boundaries)
      ((((fresh.withLine head.startLine).setStatus status).setState .headers).clear,
        linesBytes head.lines ++ (crlf ++ rest)) (m, crlf ++ rest) ∧
      m.bufferMode = .newline ∧ m.buffer = [] ∧ m.derived = inHeaders status head.headers := by
    refine lines_path rfl rfl rfl head.lines_plain fun front back hback => ?_
    have hfront : head.bytes = (head.startLine ++ (crlf ++ front)) ++ (crlf ++ (back ++ crlf)) := by
      rw [ResponseHead.bytes, hback]
      simp
    rw [← List.append_assoc]
    exact hcut _ _ hfront
  obtain ⟨m, hpath, hmode, hbuffer, hderived⟩ := hlines
  exact ⟨m, .head hstep hpath, hmode, hbuffer, hderived⟩

/-! ### The empty line -/

theorem clear_endHeaders {m : IResponseMemory} {status : HttpStatus} {headers : HeaderCollection}
    (hderived : m.derived = inHeaders status headers) : m.endHeaders.clear = afterHead status headers := by
  simp [afterHead, endHeaders, BufferedReader.clear, hderived]

theorem onBufferedData_end {m : IResponseMemory} {status : HttpStatus} {headers : HeaderCollection}
    (hderived : m.derived = inHeaders status headers) {data : Str}
    (hblank : (data.head?).any isNewline = true) :
    m.onBufferedData data = .returns (decide (contentLength headers = 0)) m.endHeaders := by
  have hstate : m.derived.streamState = .headers := congrArg IResponse.streamState hderived
  have hheaders : m.derived.headers = headers := congrArg IResponse.headers hderived
  rw [onBufferedData_blank hstate hblank, report, endHeaders_derived_streamState, hheaders]
  split <;> simp_all

theorem onBufferedData_empty_line {m : IResponseMemory} {status : HttpStatus}
    {headers : HeaderCollection} (hderived : m.derived = inHeaders status headers) :
    (m.withLine []).onBufferedData ([] ++ crlf)
      = .returns (decide (contentLength headers = 0)) (m.withLine []).endHeaders := by
  have hderived' : (m.withLine []).derived = inHeaders status headers := hderived
  exact onBufferedData_end hderived' rfl

theorem cut_of_not_cutsLineEnd {fragments : List Str} {head : ResponseHead} {rest : Str}
    (hstream : fragments.flatten = head.bytes ++ rest)
    (hcuts : ¬ CutsLineEnd fragments head.bytes.length) (front back : Str)
    (hfront : head.bytes = front ++ (crlf ++ back)) :
    (back ++ rest).length + 1 ∉ Cuts.boundaries fragments := by
  refine notMem_of_not_cutsLineEnd hcuts (?_ : fragments.flatten = front ++ _) ?_
  · rw [hstream, hfront, List.append_assoc, List.append_assoc]
  · simp only [hfront, List.length_append, show crlf.length = 2 from rfl]
    omega

theorem empty_line_cut {fragments : List Str} {head : ResponseHead} {rest : Str}
    (hstream : fragments.flatten = head.bytes ++ rest)
    (hcuts : ¬ CutsLineEnd fragments head.bytes.length) :
    rest.length + 1 ∉ Cuts.boundaries fragments := by
  have h := cut_of_not_cutsLineEnd hstream hcuts (head.startLine ++ (crlf ++ linesBytes head.lines)) []
  rw [List.nil_append] at h
  exact h (by rw [ResponseHead.bytes]; simp)

/-- **Fragments of a head and what follows it**, none of them ending in a line end of the head, are read
as the rest is read behind the head. -/
theorem ends_of_head {fragments : List Str} {head : ResponseHead} {rest : Str} {status : HttpStatus}
    {reading : Reading} (hstatus : setStartline (head.startLine ++ crlf) = some status)
    (hlength : contentLength head.headers ≠ 0) (hstream : fragments.flatten = head.bytes ++ rest)
    (hcuts : ¬ CutsLineEnd fragments head.bytes.length)
    (hrest : ∀ fragments' : List Str, Framed (afterHead status head.headers) →
      Live (afterHead status head.headers) → fragments'.flatten = rest →
      Cuts.Marks (Cuts.boundaries fragments) fragments' →
      Ends fragments' reading (feed (afterHead status head.headers) fragments')) :
    Ends fragments reading (feed fresh fragments) := by
  obtain ⟨m, hpath, hmode, hbuffer, hderived⟩ :=
    head_path hstatus (cut_of_not_cutsLineEnd hstream hcuts)
  have hcall := onBufferedData_empty_line hderived
  rw [decide_eq_false hlength] at hcall
  have hlast : LineStep (Cuts.boundaries fragments) (m, [] ++ (crlf ++ rest))
      ((m.withLine []).endHeaders.clear, rest) :=
    .intro hmode hbuffer .nil (empty_line_cut hstream hcuts) hcall
  rw [clear_endHeaders (show (m.withLine []).derived = _ from hderived)] at hlast
  exact ends_of_path (hpath.tail hlast) hrest framed_fresh live_fresh hstream
    (Cuts.marks_boundaries fragments)

theorem ends_of_empty_body {fragments : List Str} {head : ResponseHead} {rest : Str}
    {status : HttpStatus} (hstatus : setStartline (head.startLine ++ crlf) = some status)
    (hlength : contentLength head.headers = 0) (hstream : fragments.flatten = head.bytes ++ rest)
    (hcuts : ¬ CutsLineEnd fragments head.bytes.length) :
    ∃ m, m.derived = (afterHead status head.headers).derived ∧
      Ends fragments (.finishes m rest) (feed fresh fragments) := by
  obtain ⟨m, hpath, hmode, hbuffer, hderived⟩ :=
    head_path hstatus (cut_of_not_cutsLineEnd hstream hcuts)
  have hcall := onBufferedData_empty_line hderived
  rw [decide_eq_true hlength] at hcall
  have hblock := nextBlock_line hmode .nil rest
  have hreads : Reads m ([] ++ (crlf ++ rest)) (.finishes (m.withLine []).endHeaders rest) := by
    have hfinishes := Reads.finishes hblock (by rw [take_line]; exact hcall)
    rwa [drop_line] at hfinishes
  refine ⟨(m.withLine []).endHeaders, ?_, ?_⟩
  · rw [← clear_endHeaders (show (m.withLine []).derived = _ from hderived)]
    rfl
  · refine ends_of_path hpath ?_ framed_fresh live_fresh hstream (Cuts.marks_boundaries fragments)
    intro fragments' hm hlive hstream' hmarks
    refine ends_of_last_line hm hlive hmode hbuffer .nil (empty_line_cut hstream hcuts) ?_ hreads
      hstream' hmarks
    intro next hnext
    rw [hcall] at hnext
    cases hnext

theorem onBufferedData_bad_start {head : ResponseHead}
    (hstatus : setStartline (head.startLine ++ crlf) = none) :
    (fresh.withLine head.startLine).onBufferedData (head.startLine ++ crlf) = .undefined := by
  have hnul : nul ∉ head.startLine ++ crlf := by
    simp only [List.mem_append, not_or]
    exact ⟨head.startLine_plain.nul_notMem, by decide⟩
  apply onBufferedData_no_startline rfl
  rw [cstr_eq_self hnul, hstatus]

theorem ends_of_bad_start {fragments : List Str} {head : ResponseHead} {rest : Str}
    (hstatus : setStartline (head.startLine ++ crlf) = none)
    (hstream : fragments.flatten = head.bytes ++ rest)
    (hcuts : ¬ CutsLineEnd fragments head.bytes.length) :
    Ends fragments .undefined (feed fresh fragments) := by
  have hcall := onBufferedData_bad_start hstatus
  have hbytes : head.bytes ++ rest
      = head.startLine ++ (crlf ++ (linesBytes head.lines ++ (crlf ++ rest))) := by
    simp [ResponseHead.bytes]
  have hreads : Reads fresh (head.bytes ++ rest) .undefined := by
    rw [hbytes]
    exact .undefined (nextBlock_line rfl head.startLine_plain _) (by rw [take_line]; exact hcall)
  rw [hbytes] at hreads
  refine ends_of_last_line framed_fresh live_fresh rfl rfl head.startLine_plain ?_ ?_ hreads
    (by rw [hstream, hbytes]) (Cuts.marks_boundaries fragments)
  · have hcut := cut_of_not_cutsLineEnd hstream hcuts head.startLine (linesBytes head.lines ++ crlf) rfl
    rwa [List.append_assoc] at hcut
  · intro next hnext
    rw [hcall] at hnext
    cases hnext

/-! ### One call on everything -/

theorem onData_head {head : ResponseHead} {status : HttpStatus}
    (hstatus : setStartline (head.startLine ++ crlf) = some status)
    (hlength : contentLength head.headers ≠ 0) (rest : Str) :
    fresh.onData (head.bytes ++ rest) = (afterHead status head.headers).onData rest ∧
      Framed (afterHead status head.headers) := by
  have hnone : ∀ front back, head.bytes = front ++ (crlf ++ back) →
      (back ++ rest).length + 1 ∉ ([] : List Nat) := by simp
  obtain ⟨m, hpath, hmode, hbuffer, hderived⟩ := head_path hstatus hnone
  have hcall := onBufferedData_empty_line hderived
  rw [decide_eq_false hlength] at hcall
  have hlast : LineStep [] (m, [] ++ (crlf ++ rest)) ((m.withLine []).endHeaders.clear, rest) :=
    .intro hmode hbuffer .nil (by simp) hcall
  rw [clear_endHeaders (show (m.withLine []).derived = _ from hderived)] at hlast
  exact onData_of_path (hpath.tail hlast) framed_fresh

theorem onData_bad_start {head : ResponseHead} (hstatus : setStartline (head.startLine ++ crlf) = none)
    (rest : Str) : fresh.onData (head.bytes ++ rest) = .undefined := by
  have hbytes : head.bytes ++ rest
      = head.startLine ++ (crlf ++ (linesBytes head.lines ++ (crlf ++ rest))) := by
    simp [ResponseHead.bytes]
  rw [hbytes]
  exact onData_of_undefined (by simp [crlf]) (pass_line rfl rfl head.startLine_plain _)
    (onBufferedData_bad_start hstatus)

end IResponseMemory

end Rikitiki
