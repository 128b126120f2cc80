import Rikitiki.Incoming.Chunked
import Rikitiki.Incoming.OnePiece

/-!
# What a call takes for a head

The blocks a call reads in front of the body: the start line, the header lines, and the empty line behind
them. However such a block is ended, it holds two newline characters at most and no NUL. So bytes that are
read as a head have no more newline characters than their lines allow (`newlines_headBlocks_le`).
-/

namespace Rikitiki

/-! ### Newline characters -/

def newlines (s : Str) : Nat := s.countP isNewline

@[simp] theorem newlines_nil : newlines [] = 0 := rfl

@[simp] theorem newlines_append (s t : Str) : newlines (s ++ t) = newlines s + newlines t :=
  List.countP_append

@[simp] theorem newlines_crlf : newlines crlf = 2 := by decide

theorem plain_iff_newlines {s : Str} : Plain s ↔ newlines s = 0 ∧ nul ∉ s := by
  rw [newlines, List.countP_eq_zero]
  constructor
  · intro h
    exact ⟨fun b hb => by simp [(h b hb).1], h.nul_notMem⟩
  · rintro ⟨hnone, hnul⟩ b hb
    refine ⟨by simpa using hnone b hb, ?_⟩
    rintro rfl
    exact hnul hb

theorem exists_line {data : Str} {length : Nat}
    (h : BufferedReader.lineLength (data ++ [nul]) = some length) :
    ∃ line ending, data.take length = line ++ ending ∧ Plain line ∧ ending.length ≤ 2 ∧
      ∀ b ∈ ending, isNewline b = true := by
  have hle := (IResponseMemory.lineLength_nul h).2
  obtain ⟨pos, hpos, hlength⟩ := Option.map_eq_some_iff.mp h
  obtain ⟨b, t, hsplit, hlt, hplain, hb⟩ := strpbrk_eq_some hpos
  have hfront : ((data ++ [nul]).take pos).length = pos := List.length_take_of_le hlt.le
  have htake : ∀ k, (data ++ [nul]).take (pos + k) = (data ++ [nul]).take pos ++ (b :: t).take k := by
    intro k
    rw [List.take_add, List.append_cancel_left_eq]
    conv_lhs => rw [hsplit, List.drop_append_of_le_length hfront.ge, List.drop_of_length_le hfront.le]
    rfl
  have hsecond : (data ++ [nul])[pos + 1]? = t.head? := by
    rw [hsplit, List.getElem?_append_right (by omega), hfront, Nat.add_sub_cancel_left,
      List.getElem?_cons_succ, List.head?_eq_getElem?]
  rw [hsecond] at hlength
  rw [← List.take_append_of_le_length hle]
  split at hlength
  · rename_i hc
    subst hlength
    refine ⟨_, _, htake 2, hplain, List.length_take_le _ _, ?_⟩
    cases t with
    | nil => cases hc
    | cons c t => simpa using ⟨hb, hc⟩
  · subst hlength
    exact ⟨_, _, htake 1, hplain, (List.length_take_le 1 _).trans (by decide), by simpa using hb⟩

theorem newlines_line {data : Str} {length : Nat}
    (h : BufferedReader.lineLength (data ++ [nul]) = some length) :
    newlines (data.take length) ≤ 2 ∧ nul ∉ data.take length := by
  obtain ⟨line, ending, hline, hplain, hlength, hending⟩ := exists_line h
  obtain ⟨hnone, hnul⟩ := plain_iff_newlines.mp hplain
  rw [hline, newlines_append, hnone, Nat.zero_add, List.mem_append, not_or]
  refine ⟨List.countP_le_length.trans hlength, hnul, fun hmem => ?_⟩
  exact absurd (hending nul hmem) (by decide)

namespace IResponseMemory

open BufferedReader (Loop)

/-! ### The blocks of the head -/

/-- The blocks that are taken for a start line, a header line or the end of the head. -/
def headBlocks (calls : List (IResponseMemory × Str)) : List Str :=
  (calls.filter fun call => decide (call.1.derived.streamState ≤ .headers)).map Prod.snd

def headerLines (calls : List (IResponseMemory × Str)) : List Str :=
  (calls.filter fun call => decide (call.1.derived.streamState = .headers) &&
    !(call.2.head?).any isNewline).map Prod.snd

section Calls

variable {m : IResponseMemory} {data : Str} {calls : List (IResponseMemory × Str)}

theorem headBlocks_cons_of_le (h : m.derived.streamState ≤ .headers) :
    headBlocks ((m, data) :: calls) = data :: headBlocks calls := by
  rw [headBlocks, List.filter_cons_of_pos (by simpa using h), List.map_cons]
  rfl

theorem headBlocks_cons_of_not_le (h : ¬ m.derived.streamState ≤ .headers) :
    headBlocks ((m, data) :: calls) = headBlocks calls := by
  rw [headBlocks, List.filter_cons_of_neg (by simpa using h)]
  rfl

theorem headerLines_cons_of_header (hstate : m.derived.streamState = .headers)
    (hfield : (data.head?).any isNewline = false) :
    headerLines ((m, data) :: calls) = data :: headerLines calls := by
  rw [headerLines, List.filter_cons_of_pos (by simp [hstate, hfield]), List.map_cons]
  rfl

theorem headerLines_cons_of_empty (hblank : (data.head?).any isNewline = true) :
    headerLines ((m, data) :: calls) = headerLines calls := by
  rw [headerLines, List.filter_cons_of_neg (by simp [hblank])]
  rfl

theorem headerLines_cons_of_ne (hstate : m.derived.streamState ≠ .headers) :
    headerLines ((m, data) :: calls) = headerLines calls := by
  rw [headerLines, List.filter_cons_of_neg (by simp [hstate])]
  rfl

end Calls

/-- A reader in front of a line of the head. -/
structure Heading (m : IResponseMemory) : Prop where
  mode : m.bufferMode = .newline
  buffer : m.buffer = []
  state : m.derived.streamState = .startLine ∨ m.derived.streamState = .headers

theorem heading_fresh : Heading fresh := ⟨rfl, rfl, .inl rfl⟩

theorem Heading.state_le {m : IResponseMemory} (hm : Heading m) : m.derived.streamState ≤ .headers := by
  rcases hm.state with h | h
  · rw [h]
    decide
  · rw [h]
    decide

theorem Heading.block {m block : IResponseMemory} {data rest : Str} (hm : Heading m)
    (hpass : m.pass data [nul] = .deliver block rest) :
    block.derived = m.derived ∧ block.bufferMode = .newline ∧ newlines block.buffer ≤ 2 ∧
      nul ∉ block.buffer := by
  rcases BufferedReader.pass_eq_deliver hpass with ⟨length, -, hline, -, -, rfl⟩ | ⟨hlength, -⟩
  · refine ⟨rfl, hm.mode, ?_⟩
    rw [hm.buffer, List.nil_append]
    exact newlines_line hline
  · rw [hm.mode] at hlength
    cases hlength

inductive HeadStep (m : IResponseMemory) (data : Str) (next : IResponseMemory) : Prop
  | startLine (hstate : m.derived.streamState = .startLine) (hnext : Heading next.clear)
      (hnextState : next.derived.streamState = .headers)
  | header (hstate : m.derived.streamState = .headers) (hfield : (data.head?).any isNewline = false)
      (hnext : Heading next.clear) (hnextState : next.derived.streamState = .headers)
  | empty (hstate : m.derived.streamState = .headers) (hblank : (data.head?).any isNewline = true)
      (hnext : ¬ next.derived.streamState ≤ .headers)

theorem headStep_of_returns {m next : IResponseMemory} {data : Str} {value : Bool}
    (hmode : m.bufferMode = .newline)
    (hstate : m.derived.streamState = .startLine ∨ m.derived.streamState = .headers)
    (hcall : m.onBufferedData data = .returns value next) : HeadStep m data next := by
  cases (transition_of_returns hcall).1 with
  | startLine hstart status hstatus => exact .startLine hstart ⟨hmode, rfl, .inr rfl⟩ rfl
  | endHeaders hheaders hblank =>
      refine .empty hheaders hblank ?_
      rw [endHeaders_derived_streamState]
      split
      · decide
      · decide
  | header hheaders hfield => exact .header hheaders hfield ⟨hmode, rfl, .inr hheaders⟩ hheaders
  | _ => simp_all

theorem Loop.no_head {m : IResponseMemory} {data : Str} {calls : List (IResponseMemory × Str)}
    {outcome : Outcome IResponseMemory} (h : Loop onBufferedData [nul] m data calls outcome)
    (hm : ¬ m.derived.streamState ≤ .headers) : headBlocks calls = [] ∧ headerLines calls = [] := by
  have hsingle : ∀ {m : IResponseMemory} {data : Str} {calls : List (IResponseMemory × Str)},
      ¬ m.derived.streamState ≤ .headers → headBlocks calls = [] ∧ headerLines calls = [] →
      headBlocks ((m, data) :: calls) = [] ∧ headerLines ((m, data) :: calls) = [] := by
    intro m data calls hm hcalls
    have hne : m.derived.streamState ≠ .headers := by
      intro h
      rw [h] at hm
      exact hm (by decide)
    rwa [headBlocks_cons_of_not_le hm, headerLines_cons_of_ne hne]
  induction h with
  | idle reader => exact ⟨rfl, rfl⟩
  | cantProcess hdata hpass => exact ⟨rfl, rfl⟩
  | handOver hdata hpass => exact hsingle hm ⟨rfl, rfl⟩
  | finishes hdata hpass hcall =>
      rw [← BufferedReader.derived_of_deliver hpass] at hm
      exact hsingle hm ⟨rfl, rfl⟩
  | fails hdata hpass hcall hfails =>
      rw [← BufferedReader.derived_of_deliver hpass] at hm
      exact hsingle hm ⟨rfl, rfl⟩
  | goesOn hdata hpass hcall hrest ih =>
      rw [← BufferedReader.derived_of_deliver hpass] at hm
      have hle := (transition_of_returns hcall).1.streamState_le
      exact hsingle hm (ih fun h => hm (MessageState.le_trans hle h))

/-- **The lines of a head bound its newline characters**: each has two at most, and so have the start line
and the empty line. -/
theorem Loop.newlines_headBlocks {m : IResponseMemory} {data : Str} {calls : List (IResponseMemory × Str)}
    {outcome : Outcome IResponseMemory} (h : Loop onBufferedData [nul] m data calls outcome)
    (hm : Heading m) :
    newlines (headBlocks calls).flatten
        ≤ 2 * ((headerLines calls).length + if m.derived.streamState = .startLine then 2 else 1) ∧
      nul ∉ (headBlocks calls).flatten := by
  have hlast : ∀ {m block : IResponseMemory} {data rest : Str}, Heading m →
      m.pass data [nul] = .deliver block rest →
      newlines (headBlocks [(block, block.buffer)]).flatten ≤ 2 * ((headerLines [(block, block.buffer)]).length
        + if m.derived.streamState = .startLine then 2 else 1) ∧
      nul ∉ (headBlocks [(block, block.buffer)]).flatten := by
    intro m block data rest hm hpass
    obtain ⟨hderived, -, hle, hnul⟩ := hm.block hpass
    have hstate : block.derived.streamState ≤ .headers := hderived ▸ hm.state_le
    rw [headBlocks_cons_of_le hstate, List.flatten_cons, newlines_append, List.mem_append, not_or]
    refine ⟨?_, hnul, by simp [headBlocks]⟩
    have hnone : newlines (headBlocks []).flatten = 0 := rfl
    split <;> omega
  induction h with
  | idle reader => exact ⟨Nat.zero_le _, by simp [headBlocks]⟩
  | cantProcess hdata hpass => exact ⟨Nat.zero_le _, by simp [headBlocks]⟩
  | handOver hdata hpass =>
      have hnone := BufferedReader.pass_eq_handOver hpass
      rw [hm.mode] at hnone
      cases hnone
  | finishes hdata hpass hcall => exact hlast hm hpass
  | fails hdata hpass hcall hfails => exact hlast hm hpass
  | @goesOn m block next data rest calls outcome hdata hpass hcall hrest ih =>
      obtain ⟨hderived, hmode, hle, hnul⟩ := hm.block hpass
      have hstate : block.derived.streamState ≤ .headers := hderived ▸ hm.state_le
      rw [headBlocks_cons_of_le hstate, List.flatten_cons, newlines_append, List.mem_append, not_or, ← hderived]
      cases headStep_of_returns hmode (hderived ▸ hm.state) hcall with
      | startLine hstart hnext hnextState =>
          obtain ⟨ihle, ihnul⟩ := ih hnext
          rw [BufferedReader.clear_derived, hnextState, if_neg (by decide)] at ihle
          rw [headerLines_cons_of_ne (by simp [hstart]), hstart, if_pos rfl]
          exact ⟨by omega, hnul, ihnul⟩
      | header hheaders hfield hnext hnextState =>
          obtain ⟨ihle, ihnul⟩ := ih hnext
          rw [BufferedReader.clear_derived, hnextState, if_neg (by decide)] at ihle
          rw [headerLines_cons_of_header hheaders hfield, hheaders, if_neg (by decide), List.length_cons]
          exact ⟨by omega, hnul, ihnul⟩
      | empty hheaders hblank hnext =>
          obtain ⟨hblocks, hlines⟩ := Loop.no_head hrest hnext
          rw [hblocks, headerLines_cons_of_empty hblank, hlines, hheaders, if_neg (by decide)]
          exact ⟨by simpa using hle, hnul, by simp⟩

/-! ### A head whose lines are plain -/

theorem headBlocks_empty_line {m : IResponseMemory} (hm : Heading m)
    (hstate : m.derived.streamState = .headers) (rest : Str) :
    headBlocks (m.onDataCalls (crlf ++ rest)) = [crlf] ∧ headerLines (m.onDataCalls (crlf ++ rest)) = [] := by
  have hne : [] ++ (crlf ++ rest) ≠ [] := by simp [crlf]
  have hpass := pass_line hm.mode hm.buffer .nil rest
  have hstate' : (m.withLine []).derived.streamState = .headers := hstate
  have hle : (m.withLine []).derived.streamState ≤ .headers := by
    rw [hstate']
    decide
  have hblank : (crlf.head?).any isNewline = true := rfl
  have hcall : (m.withLine []).onBufferedData (m.withLine []).buffer = (m.withLine []).endHeaders.report :=
    onBufferedData_blank hstate' rfl
  rw [← List.nil_append (crlf ++ rest)]
  cases hfinished : decide ((m.withLine []).endHeaders.derived.streamState = .finished) with
  | true =>
      rw [report, hfinished] at hcall
      rw [onDataCalls_of_finishes hne hpass hcall, headBlocks_cons_of_le hle, headerLines_cons_of_empty rfl]
      exact ⟨rfl, rfl⟩
  | false =>
      rw [report, hfinished] at hcall
      have hframed : Framed m := .of_newline hm.mode
      have hnext : Framed (m.withLine []).endHeaders.clear := hframed.next_line hcall
      have hbehind : ¬ (m.withLine []).endHeaders.clear.derived.streamState ≤ .headers := by
        rw [BufferedReader.clear_derived, endHeaders_derived_streamState]
        split
        · decide
        · decide
      obtain ⟨hblocks, hlines⟩ := Loop.no_head (loop_onData hnext rest) hbehind
      rw [onDataCalls_of_goesOn hframed hne hpass hcall, headBlocks_cons_of_le hle,
        headerLines_cons_of_empty rfl, hblocks, hlines]
      exact ⟨rfl, rfl⟩

theorem headBlocks_lines {lines : List Str} (hlines : ∀ line ∈ lines, Plain line ∧ line ≠ [])
    {m : IResponseMemory} (hm : Heading m) (hstate : m.derived.streamState = .headers) (rest : Str) :
    headBlocks (m.onDataCalls (linesBytes lines ++ (crlf ++ rest))) = lines.map (· ++ crlf) ++ [crlf] ∧
      headerLines (m.onDataCalls (linesBytes lines ++ (crlf ++ rest))) = lines.map (· ++ crlf) := by
  induction lines generalizing m with
  | nil => exact headBlocks_empty_line hm hstate rest
  | cons line lines ih =>
      obtain ⟨hline, hne⟩ := hlines line (by simp)
      have hbytes : linesBytes (line :: lines) ++ (crlf ++ rest)
          = line ++ (crlf ++ (linesBytes lines ++ (crlf ++ rest))) := by
        simp [linesBytes]
      have hdata : line ++ (crlf ++ (linesBytes lines ++ (crlf ++ rest))) ≠ [] := by simp [crlf]
      have hstate' : (m.withLine line).derived.streamState = .headers := hstate
      have hcall := onBufferedData_header hstate' hline hne
      have hfield : ((m.withLine line).buffer.head?).any isNewline = false := hline.head_append hne crlf
      have hle : (m.withLine line).derived.streamState ≤ .headers := by
        rw [hstate']
        decide
      obtain ⟨hblocks, hheaders⟩ := ih (fun l hl => hlines l (by simp [hl]))
        (m := ((m.withLine line).onHeader (readHeader (line ++ crlf))).clear) ⟨hm.mode, rfl, .inr hstate⟩ hstate
      rw [hbytes, onDataCalls_of_goesOn (.of_newline hm.mode) hdata (pass_line hm.mode hm.buffer hline _) hcall,
        headBlocks_cons_of_le hle, headerLines_cons_of_header hstate' hfield, hblocks, hheaders]
      exact ⟨rfl, rfl⟩

/-- **A head of plain lines** is read line by line, up to what follows it. -/
theorem headBlocks_head {head : ResponseHead} {status : HttpStatus}
    (hstatus : setStartline (head.startLine ++ crlf) = some status) (rest : Str) :
    (headBlocks (fresh.onDataCalls (head.bytes ++ rest))).flatten = head.bytes ∧
      (headerLines (fresh.onDataCalls (head.bytes ++ rest))).length = head.lines.length := by
  have hbytes : head.bytes ++ rest
      = head.startLine ++ (crlf ++ (linesBytes head.lines ++ (crlf ++ rest))) := by
    simp [ResponseHead.bytes]
  have hdata : head.startLine ++ (crlf ++ (linesBytes head.lines ++ (crlf ++ rest))) ≠ [] := by simp [crlf]
  have hpass := pass_line heading_fresh.mode heading_fresh.buffer head.startLine_plain
    (linesBytes head.lines ++ (crlf ++ rest))
  obtain ⟨hblocks, hheaders⟩ := headBlocks_lines head.lines_plain
    (m := (((fresh.withLine head.startLine).setStatus status).setState .headers).clear)
    ⟨rfl, rfl, .inr rfl⟩ rfl rest
  have hle : (fresh.withLine head.startLine).derived.streamState ≤ .headers := heading_fresh.state_le
  have hne : (fresh.withLine head.startLine).derived.streamState ≠ .headers :=
    show MessageState.startLine ≠ .headers by decide
  rw [hbytes, onDataCalls_of_goesOn framed_fresh hdata hpass (onBufferedData_start hstatus),
    headBlocks_cons_of_le hle, headerLines_cons_of_ne hne, hblocks, hheaders]
  refine ⟨?_, List.length_map _⟩
  simp [ResponseHead.bytes, linesBytes, withLine]

end IResponseMemory

end Rikitiki
