import Rikitiki.Incoming.Message
import Rikitiki.Parsing.Loop

/-!
# What one call of `OnBufferedData` can do

`Transition` lists the ways `IMessage::OnBufferedData` returns, one rule a branch. Every fact about the
reader that does not depend on how bytes are parsed is derived from this list.
-/

namespace Rikitiki.IResponseMemory

/-- `IMessage::OnBufferedData(data)` takes the message `m` to `m'` and returns. -/
inductive Transition (m : IResponseMemory) (data : Str) : IResponseMemory → Prop
  | startLine (hstate : m.derived.streamState = .startLine) (status : HttpStatus)
      (hstatus : setStartline (cstr data) = some status) :
      Transition m data ((m.setStatus status).setState .headers)
  | endHeaders (hstate : m.derived.streamState = .headers)
      (hblank : (data.head?).any isNewline = true) : Transition m data m.endHeaders
  | header (hstate : m.derived.streamState = .headers)
      (hfield : (data.head?).any isNewline = false) : Transition m data (m.onHeader (readHeader data))
  | chunkSize (hstate : m.derived.streamState = .body) (hbody : m.derived.bodyType = .chunked)
      (hexpected : m.expectedSize = npos) :
      Transition m data { m with
        expectedSize := (((strtol 16 (cstr data)).1 + 2) % 2 ^ 64).toNat
        bufferMode := .length }
  | chunk (hstate : m.derived.streamState = .body) (hbody : m.derived.bodyType = .chunked)
      (hexpected : m.expectedSize ≠ npos) (hsize : sizeSub m.expectedSize 2 ≤ data.length) :
      Transition m data
        ((m.writeBody (data.take (sizeSub m.expectedSize 2))).afterChunk (sizeSub m.expectedSize 2))
  | knownSize (hstate : m.derived.streamState = .body) (hbody : m.derived.bodyType = .knownSize)
      (hdata : data ≠ []) :
      Transition m data
        ((writeBody { m with bufferMode := .none } data).afterBody data.length).finishBody
  | knownSizeEmpty (hstate : m.derived.streamState = .body) (hbody : m.derived.bodyType = .knownSize)
      (hdata : data = []) : Transition m data m.finishBody
  | stream (hstate : m.derived.streamState = .body)
      (hbody : m.derived.bodyType = .buffering ∨ m.derived.bodyType = .unknown) :
      Transition m data (m.writeBody data)
  | ignored (hstate : m.derived.streamState = .body) (hbody : m.derived.bodyType = .none) :
      Transition m data m
  | unknown (hstate : m.derived.streamState = .unknown) : Transition m data m

theorem onBodyData_all (m : IResponseMemory) (data : Str) :
    m.onBodyData data data.length = some (m.writeBody data) := by
  simp [onBodyData]

theorem onBodyData_eq_some {m m' : IResponseMemory} {data : Str} {size : Nat}
    (h : m.onBodyData data size = some m') :
    size ≤ data.length ∧ m' = m.writeBody (data.take size) := by
  simp only [onBodyData] at h
  split at h
  · rename_i hle
    exact ⟨hle, (Option.some.inj h).symm⟩
  · cases h

/-! ### The branches of the head -/

theorem onBufferedData_startline {m : IResponseMemory} (hstate : m.derived.streamState = .startLine)
    {data : Str} {status : HttpStatus} (hstatus : setStartline (cstr data) = some status) :
    m.onBufferedData data = .returns false ((m.setStatus status).setState .headers) := by
  rw [onBufferedData, hstate]
  simp only [hstatus]

theorem onBufferedData_no_startline {m : IResponseMemory} (hstate : m.derived.streamState = .startLine)
    {data : Str} (hstatus : setStartline (cstr data) = none) : m.onBufferedData data = .undefined := by
  rw [onBufferedData, hstate]
  simp only [hstatus]

theorem onBufferedData_blank {m : IResponseMemory} (hstate : m.derived.streamState = .headers) {data : Str}
    (hblank : (data.head?).any isNewline = true) : m.onBufferedData data = m.endHeaders.report := by
  rw [onBufferedData, hstate]
  exact if_pos hblank

theorem onBufferedData_field {m : IResponseMemory} (hstate : m.derived.streamState = .headers) {data : Str}
    (hfield : (data.head?).any isNewline = false) :
    m.onBufferedData data = .returns false (m.onHeader (readHeader data)) := by
  rw [onBufferedData, hstate]
  simp only [hfield, Bool.false_eq_true, if_false, report, onHeader_derived_streamState, hstate]
  rfl

/-! ### All branches -/

/-- **A call that returns made one of the transitions, and it returns `true` in a finished message.** -/
theorem transition_of_returns {m m' : IResponseMemory} {data : Str} {value : Bool}
    (h : m.onBufferedData data = .returns value m') :
    Transition m data m' ∧ value = decide (m'.derived.streamState = .finished) := by
  rw [onBufferedData] at h
  cases hstate : m.derived.streamState with
  | unknown =>
      simp only [hstate, report, Outcome.returns.injEq] at h
      obtain ⟨rfl, rfl⟩ := h
      exact ⟨.unknown hstate, by simp [hstate]⟩
  | startLine =>
      simp only [hstate] at h
      cases hstatus : setStartline (cstr data) with
      | none => simp [hstatus] at h
      | some status =>
          simp only [hstatus, Outcome.returns.injEq] at h
          obtain ⟨rfl, rfl⟩ := h
          exact ⟨.startLine hstate status hstatus, by simp [setState]⟩
  | headers =>
      simp only [hstate] at h
      split at h
      · rename_i hblank
        simp only [report, Outcome.returns.injEq] at h
        obtain ⟨rfl, rfl⟩ := h
        exact ⟨.endHeaders hstate hblank, rfl⟩
      · rename_i hfield
        simp only [report, Outcome.returns.injEq] at h
        obtain ⟨rfl, rfl⟩ := h
        exact ⟨.header hstate (by simpa using hfield), rfl⟩
  | body =>
      simp only [hstate] at h
      cases hbody : m.derived.bodyType with
      | unknown =>
          simp only [hbody, onBodyData_all, report, Outcome.returns.injEq] at h
          obtain ⟨rfl, rfl⟩ := h
          exact ⟨.stream hstate (.inr hbody), rfl⟩
      | none =>
          simp only [hbody, report, Outcome.returns.injEq] at h
          obtain ⟨rfl, rfl⟩ := h
          exact ⟨.ignored hstate hbody, rfl⟩
      | buffering =>
          simp only [hbody, onBodyData_all, report, Outcome.returns.injEq] at h
          obtain ⟨rfl, rfl⟩ := h
          exact ⟨.stream hstate (.inl hbody), rfl⟩
      | knownSize =>
          simp only [hbody, onBodyData_all, report] at h
          split at h
          · rename_i hdata
            simp only [Outcome.returns.injEq] at h
            obtain ⟨rfl, rfl⟩ := h
            exact ⟨.knownSizeEmpty hstate hbody hdata, rfl⟩
          · rename_i hdata
            simp only [Outcome.returns.injEq] at h
            obtain ⟨rfl, rfl⟩ := h
            exact ⟨.knownSize hstate hbody hdata, rfl⟩
      | chunked =>
          simp only [hbody, report] at h
          split at h
          · rename_i hexpected
            simp only [Outcome.returns.injEq] at h
            obtain ⟨rfl, rfl⟩ := h
            exact ⟨.chunkSize hstate hbody hexpected, rfl⟩
          · rename_i hexpected
            cases hcall : m.onBodyData data (sizeSub m.expectedSize 2) with
            | none => simp [hcall] at h
            | some m₁ =>
                obtain ⟨hsize, rfl⟩ := onBodyData_eq_some hcall
                simp only [hcall, Outcome.returns.injEq] at h
                obtain ⟨rfl, rfl⟩ := h
                exact ⟨.chunk hstate hbody hexpected hsize, rfl⟩
  | finished => simp [hstate] at h

theorem throws_iff {m m' : IResponseMemory} {data : Str} {error : Exception} :
    m.onBufferedData data = .throws error m' ↔
      m.derived.streamState = .finished ∧ error = .exception "Unexpected input" ∧ m' = m := by
  constructor
  · intro h
    rw [onBufferedData] at h
    cases hstate : m.derived.streamState with
    | unknown => simp [hstate, report] at h
    | startLine =>
        simp only [hstate] at h
        cases hstatus : setStartline (cstr data) <;> simp [hstatus] at h
    | headers =>
        simp only [hstate, report] at h
        split at h <;> cases h
    | body =>
        simp only [hstate] at h
        cases hbody : m.derived.bodyType with
        | unknown => simp [hbody, onBodyData_all, report] at h
        | none => simp [hbody, report] at h
        | buffering => simp [hbody, onBodyData_all, report] at h
        | knownSize =>
            simp only [hbody, onBodyData_all, report] at h
            split at h <;> cases h
        | chunked =>
            simp only [hbody, report] at h
            split at h
            · cases h
            · cases hcall : m.onBodyData data (sizeSub m.expectedSize 2) <;> simp [hcall] at h
    | finished =>
        simp only [hstate, Outcome.throws.injEq] at h
        exact ⟨rfl, h.1.symm, h.2.symm⟩
  · rintro ⟨hstate, rfl, rfl⟩
    simp [onBufferedData, hstate]

theorem onBufferedData_ne_running (m : IResponseMemory) (data : Str) :
    m.onBufferedData data ≠ .running := by
  intro h
  rw [onBufferedData] at h
  cases hstate : m.derived.streamState with
  | unknown => simp [hstate, report] at h
  | startLine =>
      simp only [hstate] at h
      cases hstatus : setStartline (cstr data) <;> simp [hstatus] at h
  | headers =>
      simp only [hstate, report] at h
      split at h <;> cases h
  | body =>
      simp only [hstate] at h
      cases hbody : m.derived.bodyType with
      | unknown => simp [hbody, onBodyData_all, report] at h
      | none => simp [hbody, report] at h
      | buffering => simp [hbody, onBodyData_all, report] at h
      | knownSize =>
          simp only [hbody, onBodyData_all, report] at h
          split at h <;> cases h
      | chunked =>
          simp only [hbody, report] at h
          split at h
          · cases h
          · cases hcall : m.onBodyData data (sizeSub m.expectedSize 2) <;> simp [hcall] at h
  | finished => simp [hstate] at h

/-! ### What every transition keeps -/

namespace Transition

variable {m m' : IResponseMemory} {data : Str}

theorem not_finished (h : Transition m data m') : m.derived.streamState ≠ .finished := by
  cases h <;> simp_all

theorem buffer_eq (h : Transition m data m') : m'.buffer = m.buffer := by
  cases h <;> simp

theorem streamState_le (h : Transition m data m') :
    m.derived.streamState ≤ m'.derived.streamState := by
  cases h with
  | startLine hstate =>
      rw [hstate]
      simp [MessageState.le_def, MessageState.toNat]
  | endHeaders hstate =>
      rw [hstate, endHeaders_derived_streamState]
      split <;> decide
  | chunk hstate =>
      rw [afterChunk_derived_streamState]
      split
      · exact MessageState.le_finished _
      · exact MessageState.le_refl _
  | knownSize hstate =>
      rw [finishBody_derived_streamState]
      split
      · exact MessageState.le_finished _
      · exact MessageState.le_refl _
  | knownSizeEmpty hstate =>
      rw [finishBody_derived_streamState]
      split
      · exact MessageState.le_finished _
      · exact MessageState.le_refl _
  | _ => exact MessageState.le_refl _

theorem bufferMode_length (h : Transition m data m') (hmode : m'.bufferMode = .length) :
    m.bufferMode = .length ∨
      (m'.derived.streamState = .body ∧ m'.derived.bodyType = .chunked) := by
  cases h with
  | endHeaders hstate =>
      rw [endHeaders_bufferMode] at hmode
      split at hmode <;> cases hmode
  | chunkSize hstate hbody => exact .inr ⟨hstate, hbody⟩
  | chunk => cases hmode
  | knownSize => cases hmode
  | _ => exact .inl hmode

end Transition

/-! ### The invariant of the loop -/

/-- The length mode is on only while a chunk is being waited for, and never for a chunk that is
already there. Nothing is carried over in the mode that hands everything on, and a chunked body is never
read in it. -/
structure Framed (m : IResponseMemory) : Prop where
  body_of_length : m.bufferMode = .length →
    m.derived.streamState = .body ∧ m.derived.bodyType = .chunked
  room_of_length : m.bufferMode = .length → m.buffer.length < m.expectedSize ∨ m.buffer = []
  buffer_of_none : m.bufferMode = .none → m.buffer = []
  mode_of_chunked : m.derived.streamState = .body → m.derived.bodyType = .chunked →
    m.bufferMode ≠ .none

theorem Framed.of_newline {m : IResponseMemory} (h : m.bufferMode = .newline) : Framed m where
  body_of_length hmode := by simp [h] at hmode
  room_of_length hmode := by simp [h] at hmode
  buffer_of_none hmode := by simp [h] at hmode
  mode_of_chunked _ _ := by simp [h]

theorem framed_fresh : Framed fresh := .of_newline rfl

theorem lineLength_nul {data : Str} {length : Nat}
    (h : BufferedReader.lineLength (data ++ [nul]) = some length) :
    0 < length ∧ length ≤ data.length := by
  obtain ⟨pos, hpos, hlength⟩ := Option.map_eq_some_iff.mp h
  obtain ⟨b, t, hsplit, hlt, -, hb⟩ := strpbrk_eq_some hpos
  have hget : (data ++ [nul])[pos]? = some b := by
    have hlen : (List.take pos (data ++ [nul])).length = pos := by
      rw [List.length_take]
      omega
    rw [hsplit, List.getElem?_append_right (by omega), hlen, Nat.sub_self]
    rfl
  have hinside : pos < data.length := by
    rw [List.length_append, List.length_singleton] at hlt
    by_contra hge
    obtain rfl : pos = data.length := by omega
    rw [List.getElem?_concat_length, Option.some.injEq] at hget
    subst hget
    exact absurd hb (by decide)
  split at hlength
  · rename_i hnext
    subst hlength
    refine ⟨by omega, ?_⟩
    by_contra hge
    have hend : pos + 1 = data.length := by omega
    rw [hend, List.getElem?_concat_length] at hnext
    exact absurd hnext (by decide)
  · omega

theorem lineLength_pos {memory : Str} {length : Nat} (h : BufferedReader.lineLength memory = some length) :
    0 < length := by
  obtain ⟨pos, -, rfl⟩ := Option.map_eq_some_iff.mp h
  split
  · exact Nat.succ_pos _
  · exact Nat.succ_pos _

/-- A block that is delivered is not empty unless a chunk of no bytes was waited for, and it is as
long as the expected size says. -/
theorem expectedSize_of_deliver {m block : IResponseMemory} {data rest after : Str} (hm : Framed m)
    (hpass : m.pass data after = .deliver block rest) :
    block.expectedSize = block.buffer.length ∧ block.derived = m.derived ∧
      block.bufferMode = m.bufferMode ∧ rest.length ≤ data.length ∧
      (rest.length = data.length → m.bufferMode = .length ∧ block.expectedSize = 0) := by
  rcases BufferedReader.pass_eq_deliver hpass with
    ⟨length, hmode, hline, hle, rfl, rfl⟩ | ⟨hmode, hle, rfl, rfl⟩
  · have hpos := lineLength_pos hline
    simp only [List.length_append, List.length_take, List.length_drop, true_and]
    omega
  · have hroom := hm.room_of_length hmode
    have hfits : m.buffer.length ≤ m.expectedSize := by
      rcases hroom with hlt | hnil
      · omega
      · simp [hnil]
    rw [sizeSub_of_le hfits] at hle ⊢
    simp only [List.length_append, List.length_take, List.length_drop, true_and]
    refine ⟨by omega, by omega, fun hrest => ⟨hmode, ?_⟩⟩
    rcases hroom with hlt | hnil
    · omega
    · rw [hnil, List.length_nil] at hrest hle
      omega

/-- What `Framed` says about the mode, which is all a callback relies on. -/
structure Moded (m : IResponseMemory) : Prop where
  body_of_length : m.bufferMode = .length →
    m.derived.streamState = .body ∧ m.derived.bodyType = .chunked
  mode_of_chunked : m.derived.streamState = .body → m.derived.bodyType = .chunked →
    m.bufferMode ≠ .none

theorem Framed.moded {m : IResponseMemory} (hm : Framed m) : Moded m :=
  ⟨hm.body_of_length, hm.mode_of_chunked⟩

theorem Framed.of_moded {m : IResponseMemory} (hm : Moded m) (hbuffer : m.buffer = []) : Framed m where
  body_of_length := hm.body_of_length
  room_of_length _ := .inr hbuffer
  buffer_of_none _ := hbuffer
  mode_of_chunked := hm.mode_of_chunked

theorem Framed.block_moded {m block : IResponseMemory} {data rest after : Str} (hm : Framed m)
    (hpass : m.pass data after = .deliver block rest) : Moded block := by
  obtain ⟨-, hderived, hmode, -⟩ := expectedSize_of_deliver hm hpass
  constructor
  · rw [hderived, hmode]
    exact hm.body_of_length
  · rw [hderived, hmode]
    exact hm.mode_of_chunked

theorem Transition.moded {m m' : IResponseMemory} {data : Str} (h : Transition m data m')
    (hm : Moded m) : Moded m' where
  body_of_length hlength := by
    rcases h.bufferMode_length hlength with hold | hnew
    · obtain ⟨hstate, hbody⟩ := hm.body_of_length hold
      cases h with
      | chunkSize => exact ⟨hstate, hbody⟩
      | chunk => cases hlength
      | _ => simp_all
    · exact hnew
  mode_of_chunked hstate hbody := by
    cases h with
    | startLine => simp at hstate
    | endHeaders =>
        rw [endHeaders_derived_bodyType, BodyType.from] at hbody
        rw [endHeaders_bufferMode]
        split at hbody
        · cases hbody
        · split at hbody
          · rename_i hencoding
            simp [hencoding]
          · cases hbody
    | header hheaders => simp [hheaders] at hstate
    | chunkSize => simp
    | chunk => simp
    | knownSize _ hknown => simp [hknown] at hbody
    | knownSizeEmpty _ hknown => simp [hknown] at hbody
    | stream hopen => exact hm.mode_of_chunked hopen hbody
    | ignored => exact hm.mode_of_chunked hstate hbody
    | unknown => exact hm.mode_of_chunked hstate hbody

theorem Moded.clear {m : IResponseMemory} (hm : Moded m) : Framed m.clear :=
  .of_moded ⟨hm.body_of_length, hm.mode_of_chunked⟩ rfl

theorem Framed.keep {m reader : IResponseMemory} {data after : Str} (hm : Framed m)
    (hpass : m.pass data after = .cantProcess reader) : Framed (reader.keep data) := by
  rcases BufferedReader.pass_eq_cantProcess hpass with ⟨hmode, hreader⟩ | ⟨hmode, rfl, hlt⟩
  · apply Framed.of_newline
    rw [hreader]
    exact hmode
  · refine ⟨hm.body_of_length, fun _ => .inl ?_, fun hnone => ?_, hm.mode_of_chunked⟩
    · simp only [BufferedReader.keep_buffer, BufferedReader.keep_expectedSize, List.length_append]
      rcases hm.room_of_length hmode with hroom | hroom
      · rw [sizeSub_of_le hroom.le] at hlt
        omega
      · rw [hroom, sizeSub_of_le (by simp)] at hlt
        simpa [hroom] using hlt
    · rw [BufferedReader.keep_bufferMode, hmode] at hnone
      cases hnone

/-- **A block that is taken is not empty**: only a chunk of less than its own line end consumes nothing,
and the body write of such a chunk leaves the block. -/
theorem length_lt_of_returns {m block next : IResponseMemory} {data rest after : Str} {value : Bool}
    (hm : Framed m) (hpass : m.pass data after = .deliver block rest)
    (hcall : block.onBufferedData block.buffer = .returns value next) : rest.length < data.length := by
  obtain ⟨hexpected, hderived, hmode, hle, hnone⟩ := expectedSize_of_deliver hm hpass
  refine lt_of_le_of_ne hle fun hrest => ?_
  obtain ⟨hlength, hzero⟩ := hnone hrest
  obtain ⟨hstate, hbody⟩ := (hm.block_moded hpass).body_of_length (hmode.trans hlength)
  have hblock : block.buffer = [] := List.eq_nil_of_length_eq_zero (by omega)
  cases (transition_of_returns hcall).1 with
  | chunkSize _ _ hnpos =>
      rw [hzero] at hnpos
      exact absurd hnpos (by decide)
  | chunk _ _ _ hsize =>
      rw [hzero, hblock] at hsize
      exact absurd hsize (by decide)
  | _ => simp_all

/-- **The reader makes progress**, whatever lies behind the data. -/
theorem progress {after : Str} : BufferedReader.Progress onBufferedData after Framed := by
  intro m block next data rest hm hdata hpass hcall
  have htransition := (transition_of_returns hcall).1
  exact ⟨(htransition.moded (hm.block_moded hpass)).clear, length_lt_of_returns hm hpass hcall⟩

end Rikitiki.IResponseMemory
