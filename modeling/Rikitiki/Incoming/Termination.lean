import Rikitiki.Incoming.Run

/-!
# The read loop comes to an end

The length mode is for the chunk that a chunk size announces. But the size is only read while the expected size
is `(size_t)-1`, and every line that is delivered has set it to its own length, so no chunk size is ever read
and the mode is never on. What is left are lines, which are not empty, and the mode that leaves the loop.

Nothing here rests on how a call that has no meaning ends: a `Platform` says what such a call does instead.
-/

namespace Rikitiki.IResponseMemory

open BufferedReader (Loop onDataLoop onDataPasses)

/-- What becomes of a start line that is rejected, and of the body when a write leaves its block. -/
structure Platform where
  status : Str → HttpStatus
  body : IResponseMemory → Str → Str

namespace Platform

variable (platform : Platform)

/-- `OnBufferedData` where every call has a meaning. -/
def onBufferedData (m : IResponseMemory) (data : Str) : Outcome IResponseMemory :=
  match m.onBufferedData data with
  | .undefined =>
    match m.derived.streamState with
    | .startLine => .returns false ((m.setStatus (platform.status data)).setState .headers)
    | _ =>
      let written : IResponseMemory := { m with derived := { m.derived with body := platform.body m data } }
      (written.afterChunk (sizeSub m.expectedSize 2)).report
  | outcome => outcome

/-- `OnData` on a fragment that there is room for beside the buffer. -/
def step (m : IResponseMemory) (data : Str) : Option (Reply × IResponseMemory) :=
  if m.buffer.length + data.length < npos then
    answer (onDataLoop platform.onBufferedData [nul] (fuel data) m data)
  else none

def Reachable (m : IResponseMemory) : Prop :=
  ∃ fragments replies, Run.run platform.step fresh fragments = some (replies, m)

/-- **A call that has a meaning** is the same on every platform. -/
theorem onDataLoop_eq {fuel : Nat} {m : IResponseMemory} {data after : Str}
    (h : onDataLoop IResponseMemory.onBufferedData after fuel m data ≠ .undefined) :
    onDataLoop platform.onBufferedData after fuel m data
      = onDataLoop IResponseMemory.onBufferedData after fuel m data := by
  have hsame : ∀ {m : IResponseMemory} {data : Str}, m.onBufferedData data ≠ .undefined →
      platform.onBufferedData m data = m.onBufferedData data := by
    intro m data hdefined
    rw [onBufferedData]
    split
    · rename_i hundefined
      exact absurd hundefined hdefined
    · rfl
  induction fuel generalizing m data with
  | zero => rfl
  | succ fuel ih =>
      by_cases hdata : data = []
      · simp only [onDataLoop, if_pos hdata]
      simp only [onDataLoop, if_neg hdata] at h ⊢
      cases hpass : m.pass data after with
      | cantProcess reader => rfl
      | handOver =>
          simp only [hpass] at h
          exact hsame h
      | deliver block rest =>
          simp only [hpass] at h ⊢
          have hcall : IResponseMemory.onBufferedData block block.buffer ≠ .undefined := by
            intro hundefined
            simp only [hundefined] at h
            exact h rfl
          rw [hsame hcall]
          split at h
          · rfl
          · exact ih h
          · rfl

/-! ### The invariant -/

/-- The length mode is off, nothing is kept for the mode that hands everything on, and no chunked body is read
in that. -/
structure Lined (m : IResponseMemory) : Prop where
  mode_ne_length : m.bufferMode ≠ .length
  buffer_of_none : m.bufferMode = .none → m.buffer = []
  mode_of_chunked : m.derived.streamState = .body → m.derived.bodyType = .chunked → m.bufferMode ≠ .none

theorem lined_fresh : Lined fresh where
  mode_ne_length := by simp [fresh]
  buffer_of_none h := by simp [fresh] at h
  mode_of_chunked h := by simp [fresh] at h

theorem Lined.moded {m : IResponseMemory} (h : Lined m) : Moded m :=
  ⟨fun hlength => absurd hlength h.mode_ne_length, h.mode_of_chunked⟩

theorem Lined.of_newline {m : IResponseMemory} (h : m.bufferMode = .newline) : Lined m where
  mode_ne_length := by simp [h]
  buffer_of_none hnone := by simp [h] at hnone
  mode_of_chunked _ _ := by simp [h]

variable {platform} {m block next : IResponseMemory} {data rest : Str}

theorem Lined.deliver (h : Lined m) (hfits : m.buffer.length + data.length < npos)
    (hpass : m.pass data [nul] = .deliver block rest) :
    rest.length < data.length ∧ block.bufferMode = .newline ∧ block.derived = m.derived ∧
      block.expectedSize ≠ npos := by
  rcases BufferedReader.pass_eq_deliver hpass with ⟨length, hmode, hline, hle, rfl, rfl⟩ | ⟨hmode, -⟩
  · have hpos := (lineLength_nul hline).1
    refine ⟨?_, hmode, rfl, ?_⟩
    · rw [List.length_drop]
      omega
    · change m.buffer.length + length ≠ npos
      omega
  · exact absurd hmode h.mode_ne_length

/-- **A call of `OnBufferedData`** that is not one for a chunk size leaves the length mode off. -/
theorem mode_of_returns {value : Bool} (hm : Moded block) (hmode : block.bufferMode ≠ .length)
    (hexpected : block.bufferMode = .none ∨ block.expectedSize ≠ npos)
    (hcall : platform.onBufferedData block data = .returns value next) :
    next.bufferMode ≠ .length ∧ Moded next ∧ next.buffer = block.buffer := by
  rw [onBufferedData] at hcall
  split at hcall
  · split at hcall
    · obtain ⟨-, rfl⟩ := Outcome.returns.inj hcall
      exact ⟨hmode, ⟨fun hlength => absurd hlength hmode, fun hstate => by simp at hstate⟩, rfl⟩
    · obtain ⟨-, rfl⟩ := Outcome.returns.inj hcall
      exact ⟨by simp, (Lined.of_newline rfl).moded, rfl⟩
  · obtain ⟨htransition, -⟩ := transition_of_returns hcall
    refine ⟨fun hlength => ?_, htransition.moded hm, htransition.buffer_eq⟩
    rcases htransition.bufferMode_length hlength with hold | ⟨hstate, hbody⟩
    · exact hmode hold
    · cases htransition with
      | chunkSize hopen hchunked hnpos =>
          rcases hexpected with hnone | hne
          · exact hm.mode_of_chunked hopen hchunked hnone
          · exact hne hnpos
      | endHeaders =>
          rw [endHeaders_bufferMode] at hlength
          split at hlength
          · cases hlength
          · cases hlength
      | chunk => cases hlength
      | knownSize => cases hlength
      | _ => exact hmode hlength

/-! ### The loop -/

/-- What a pass of the loop does. -/
structure Advances (reader : IResponseMemory) (data : Str) : Prop where
  /-- The length mode is not on with all that it waits for. -/
  room : reader.bufferMode = .length → reader.expectedSize ≠ reader.buffer.length
  /-- A pass that does not leave the loop takes some of the data. -/
  consumes : ∀ block rest, reader.pass data [nul] = .deliver block rest → rest.length < data.length

theorem Lined.advances (h : Lined m) (hfits : m.buffer.length + data.length < npos) : Advances m data where
  room hlength := absurd hlength h.mode_ne_length
  consumes _ _ hpass := (h.deliver hfits hpass).1

theorem Lined.keep (h : Lined m) {reader : IResponseMemory} (hpass : m.pass data [nul] = .cantProcess reader) :
    Lined (reader.keep data) := by
  rcases BufferedReader.pass_eq_cantProcess hpass with ⟨hmode, hreader⟩ | ⟨hmode, -⟩
  · apply Lined.of_newline
    rw [hreader]
    exact hmode
  · exact absurd hmode h.mode_ne_length

theorem Lined.goesOn (h : Lined m) (hfits : m.buffer.length + data.length < npos)
    (hpass : m.pass data [nul] = .deliver block rest) {value : Bool}
    (hcall : platform.onBufferedData block block.buffer = .returns value next) :
    Lined next.clear ∧ next.clear.buffer.length + rest.length < npos := by
  obtain ⟨hlt, hmode, -, hexpected⟩ := h.deliver hfits hpass
  have hblock : Moded block := (Lined.of_newline hmode).moded
  obtain ⟨hnext, hmoded, -⟩ := mode_of_returns hblock (by simp [hmode]) (.inr hexpected) hcall
  refine ⟨⟨hnext, fun _ => rfl, hmoded.mode_of_chunked⟩, ?_⟩
  rw [BufferedReader.clear_buffer, List.length_nil]
  omega

/-- **Every pass advances**, in whatever number of them. -/
theorem Lined.passes (h : Lined m) (hfits : m.buffer.length + data.length < npos) (fuel : Nat) :
    ∀ pass ∈ onDataPasses platform.onBufferedData [nul] fuel m data, Advances pass.1 pass.2 := by
  induction fuel generalizing m data with
  | zero => simp [onDataPasses]
  | succ fuel ih =>
      rw [onDataPasses]
      split
      · simp
      · rw [List.forall_mem_cons]
        refine ⟨h.advances hfits, ?_⟩
        split
        · rename_i hpass
          split
          · rename_i hcall
            obtain ⟨hnext, hrest⟩ := h.goesOn hfits hpass hcall
            exact ih hnext hrest
          · simp
        · simp

theorem onBufferedData_ne_running (platform : Platform) (m : IResponseMemory) (data : Str) :
    platform.onBufferedData m data ≠ .running := by
  rw [onBufferedData]
  split
  · split
    · simp
    · simp [report]
  · exact IResponseMemory.onBufferedData_ne_running m data

/-- **The loop ends** within a pass for each byte, and one more. -/
theorem Lined.ne_running (h : Lined m) (hfits : m.buffer.length + data.length < npos) {fuel : Nat}
    (hfuel : data.length < fuel) : onDataLoop platform.onBufferedData [nul] fuel m data ≠ .running := by
  induction fuel generalizing m data with
  | zero => omega
  | succ fuel ih =>
      by_cases hdata : data = []
      · simp [onDataLoop, hdata]
      simp only [onDataLoop, if_neg hdata]
      cases hpass : m.pass data [nul] with
      | cantProcess reader => simp
      | handOver => exact platform.onBufferedData_ne_running m data
      | deliver block rest =>
          have hlt := (h.deliver hfits hpass).1
          cases hcall : platform.onBufferedData block block.buffer with
          | returns value next =>
              cases value with
              | true => simp [hcall]
              | false =>
                  obtain ⟨hnext, hrest⟩ := h.goesOn hfits hpass hcall
                  simp only [hcall]
                  exact ih hnext hrest (by omega)
          | throws error next => simp [hcall]
          | undefined => simp [hcall]
          | running => exact absurd hcall (platform.onBufferedData_ne_running block block.buffer)

/-! ### Reachable states -/

theorem eq_of_throws {error : Exception} (hcall : platform.onBufferedData m data = .throws error next) :
    next = m := by
  rw [onBufferedData] at hcall
  split at hcall
  · split at hcall
    · cases hcall
    · cases hcall
  · exact (throws_iff.mp hcall).2.2

theorem Lined.loop {calls : List (IResponseMemory × Str)} {outcome : Outcome IResponseMemory} {reply : Reply}
    (hloop : Loop platform.onBufferedData [nul] m data calls outcome) (h : Lined m)
    (hfits : m.buffer.length + data.length < npos) (hanswer : answer outcome = some (reply, next)) :
    Lined next := by
  induction hloop with
  | idle m =>
      obtain ⟨-, rfl⟩ := Prod.mk.inj (Option.some.inj hanswer)
      exact h
  | cantProcess hdata hpass =>
      obtain ⟨-, rfl⟩ := Prod.mk.inj (Option.some.inj hanswer)
      exact h.keep hpass
  | @handOver m data hdata hpass =>
      have hmode := BufferedReader.pass_eq_handOver hpass
      cases hcall : platform.onBufferedData m data with
      | returns value last =>
          rw [hcall, answer] at hanswer
          obtain ⟨-, rfl⟩ := Prod.mk.inj (Option.some.inj hanswer)
          obtain ⟨hnext, hmoded, hbuffer⟩ := mode_of_returns h.moded h.mode_ne_length (.inl hmode) hcall
          exact ⟨hnext, fun _ => hbuffer.trans (h.buffer_of_none hmode), hmoded.mode_of_chunked⟩
      | throws error last =>
          rw [hcall, answer] at hanswer
          obtain ⟨-, rfl⟩ := Prod.mk.inj (Option.some.inj hanswer)
          exact eq_of_throws hcall ▸ h
      | undefined => simp [hcall, answer] at hanswer
      | running => simp [hcall, answer] at hanswer
  | finishes hdata hpass hcall =>
      obtain ⟨-, rfl⟩ := Prod.mk.inj (Option.some.inj hanswer)
      exact (h.goesOn hfits hpass hcall).1
  | @fails m block data rest outcome hdata hpass hcall hfails =>
      cases outcome with
      | returns value last => exact absurd rfl (hfails value last)
      | throws error last =>
          obtain ⟨-, rfl⟩ := Prod.mk.inj (Option.some.inj hanswer)
          exact eq_of_throws hcall ▸ .of_newline (h.deliver hfits hpass).2.1
      | undefined => simp [answer] at hanswer
      | running => simp [answer] at hanswer
  | goesOn hdata hpass hcall hrest ih =>
      obtain ⟨hlast, hroom⟩ := h.goesOn hfits hpass hcall
      exact ih hlast hroom hanswer

/-- **One call** keeps the invariant. -/
theorem Lined.step (h : Lined m) {reply : Reply} (hstep : platform.step m data = some (reply, next)) :
    Lined next := by
  rw [Platform.step] at hstep
  split at hstep
  · rename_i hfits
    have hends : onDataLoop platform.onBufferedData [nul] (fuel data) m data ≠ .running :=
      h.ne_running hfits (length_lt_fuel data)
    exact Lined.loop (BufferedReader.loop_of_ne_running hends) h hfits hstep
  · cases hstep

theorem lined_of_reachable (h : platform.Reachable m) : Lined m := by
  obtain ⟨fragments, replies, hrun⟩ := h
  exact Run.run_invariant (fun _ _ _ _ hm hstep => hm.step hstep) lined_fresh hrun

/-- **The read loop terminates** from every state that can be reached: it ends, and each of its passes leaves
it or takes some of the data. -/
theorem read_loop_terminates (platform : Platform) (hm : platform.Reachable m)
    (hfits : m.buffer.length + data.length < npos) :
    (∀ fuel, data.length < fuel → onDataLoop platform.onBufferedData [nul] fuel m data ≠ .running) ∧
      ∀ fuel, ∀ pass ∈ onDataPasses platform.onBufferedData [nul] fuel m data, Advances pass.1 pass.2 := by
  have hlined := lined_of_reachable hm
  exact ⟨fun _ hfuel => hlined.ne_running hfits hfuel, fun fuel => hlined.passes hfits fuel⟩

def harmless : Platform := ⟨fun _ => .ok, fun m _ => m.derived.body⟩

theorem read_loop_terminates_chunked :
    ∃ m, harmless.Reachable m ∧ m.derived.streamState = .body ∧
      (∀ fuel, (lit "-2\r\n").length < fuel →
        onDataLoop harmless.onBufferedData [nul] fuel m (lit "-2\r\n") ≠ .running) ∧
      ∀ fuel, ∀ pass ∈ onDataPasses harmless.onBufferedData [nul] fuel m (lit "-2\r\n"),
        Advances pass.1 pass.2 := by
  obtain ⟨replies, m, hrun, hstate, hbuffer⟩ : ∃ replies m,
      Run.run harmless.step fresh [lit "HTTP/1.1 200 OK\r\nTransfer-Encoding: chunked\r\n\r\n"]
        = some (replies, m) ∧ m.derived.streamState = .body ∧ m.buffer = [] := ⟨_, _, rfl, rfl, rfl⟩
  have hreachable : harmless.Reachable m := ⟨_, replies, hrun⟩
  refine ⟨m, hreachable, hstate, read_loop_terminates harmless hreachable ?_⟩
  rw [hbuffer]
  decide

end Platform

end Rikitiki.IResponseMemory
