import Rikitiki.Incoming.Termination

/-!
# Completion

A message moves forward only, reports its completion once, and is left alone from then on, whatever the platform
does in a call that has no meaning. A finished message is safe to feed: every later call is defined, whatever bytes
it carries.
-/

namespace Rikitiki.IResponseMemory

open BufferedReader (Loop onDataLoop)

theorem onBufferedData_of_finished {m : IResponseMemory} (h : m.derived.streamState = .finished)
    (data : Str) : m.onBufferedData data = .throws (.exception "Unexpected input") m := by
  simp [onBufferedData, h]

theorem Loop.defined_of_finished {m : IResponseMemory} {data after : Str}
    {calls : List (IResponseMemory × Str)} {outcome : Outcome IResponseMemory}
    (h : Loop onBufferedData after m data calls outcome) (hm : Framed m)
    (hfinished : m.derived.streamState = .finished) : ∃ reply m', answer outcome = some (reply, m') := by
  cases h with
  | idle reader => exact ⟨_, _, rfl⟩
  | cantProcess hdata hpass => exact ⟨_, _, rfl⟩
  | handOver hdata hpass =>
      rw [onBufferedData_of_finished hfinished]
      exact ⟨_, _, rfl⟩
  | finishes hdata hpass hcall => exact ⟨_, _, rfl⟩
  | fails hdata hpass hcall hfails =>
      obtain ⟨-, hderived, -⟩ := expectedSize_of_deliver hm hpass
      rw [← hcall, onBufferedData_of_finished (by rw [hderived, hfinished])]
      exact ⟨_, _, rfl⟩
  | goesOn hdata hpass hcall hrest =>
      obtain ⟨-, hderived, -⟩ := expectedSize_of_deliver hm hpass
      rw [onBufferedData_of_finished (by rw [hderived, hfinished])] at hcall
      cases hcall

/-- **A finished message stays as it is**, however it is fed on. -/
theorem feed_of_finished {m : IResponseMemory} (hm : Framed m)
    (hfinished : m.derived.streamState = .finished) (later : List Str) :
    ∃ replies m', feed m later = some (replies, m') ∧ .returned true ∉ replies ∧
      replies.length = later.length ∧ m'.derived = m.derived := by
  induction later generalizing m with
  | nil => exact ⟨[], m, rfl, by simp, rfl, rfl⟩
  | cons fragment later ih =>
      obtain ⟨reply, m₁, hanswer⟩ := Loop.defined_of_finished (loop_onData hm fragment) hm hfinished
      have hadvance := advance_of_answer hm hanswer
      have hderived := hadvance.frozen hfinished
      obtain ⟨replies, m₂, hfeed, hreplies, hlength, hlast⟩ :=
        ih hadvance.framed (by rw [hderived, hfinished])
      refine ⟨reply :: replies, m₂, ?_, ?_, by simp [hlength], hlast.trans hderived⟩
      · rw [feed, Run.run_cons_of_some hanswer, ← feed, hfeed]
        rfl
      · intro hmem
        rcases List.mem_cons.mp hmem with rfl | hmem
        · exact (hadvance.finishes_iff.mp rfl).1 hfinished
        · exact hreplies hmem

/-! ### On a platform -/

namespace Platform

variable (platform : Platform)

/-- `OnData` -/
def call (m : IResponseMemory) (data : Str) : Option (Reply × IResponseMemory) :=
  answer (onDataLoop platform.onBufferedData [nul] (fuel data) m data)

def feed : IResponseMemory → List Str → Option (List Reply × IResponseMemory) := Run.run platform.call

variable {platform} {m m' : IResponseMemory}

theorem call_of_answer {data : Str} {reply : Reply} (h : answer (m.onData data) = some (reply, m')) :
    platform.call m data = some (reply, m') := by
  have hdefined : onDataLoop IResponseMemory.onBufferedData [nul] (fuel data) m data ≠ .undefined := by
    intro hundefined
    rw [onData, onDataIn, hundefined] at h
    cases h
  rw [call, platform.onDataLoop_eq hdefined]
  exact h

theorem feed_of_feed {fragments : List Str} {replies : List Reply}
    (h : IResponseMemory.feed m fragments = some (replies, m')) : platform.feed m fragments = some (replies, m') := by
  induction fragments generalizing m replies with
  | nil => exact h
  | cons fragment fragments ih =>
      obtain ⟨reply, others, m₁, hanswer, hrest, rfl⟩ := Run.run_cons_eq_some.mp h
      rw [feed, Run.run_cons_of_some (call_of_answer hanswer), ← feed, ih hrest]
      rfl

theorem driven_onBufferedData (platform : Platform) : Driven platform.onBufferedData where
  moves {m m' data value} h := by
    rw [onBufferedData] at h
    split at h
    · rename_i hundefined
      split at h
      · rename_i hstart
        obtain ⟨rfl, rfl⟩ := Outcome.returns.inj h
        refine ⟨by simp [hstart], ?_, by simp, rfl, fun hm => ?_⟩
        · rw [hstart]
          simp [MessageState.le_def, MessageState.toNat]
        · refine ⟨fun hlength => ?_, fun hstate => by simp at hstate⟩
          exact absurd (hm.body_of_length hlength).1 (by simp [hstart])
      · obtain ⟨rfl, rfl⟩ := Outcome.returns.inj h
        refine ⟨fun hfinished => ?_, ?_, rfl, rfl, fun _ => (Framed.of_newline rfl).moded⟩
        · rw [onBufferedData_of_finished hfinished] at hundefined
          cases hundefined
        · rw [afterChunk_derived_streamState]
          split
          · exact MessageState.le_finished _
          · exact MessageState.le_refl _
    · exact IResponseMemory.driven_onBufferedData.moves h
  throws h := by
    rw [onBufferedData] at h
    split at h
    · split at h
      · cases h
      · cases h
    · exact IResponseMemory.driven_onBufferedData.throws h

theorem advance_of_call {data : Str} {reply : Reply} (hm : Framed m)
    (hcall : platform.call m data = some (reply, m')) : Advance m reply m' := by
  have hends : onDataLoop platform.onBufferedData [nul] (fuel data) m data ≠ .running := by
    intro hrunning
    rw [call, hrunning] at hcall
    cases hcall
  exact Loop.advance platform.driven_onBufferedData (BufferedReader.loop_of_ne_running hends) hm hcall

theorem framed_of_feed {fragments : List Str} {replies : List Reply} (hm : Framed m)
    (hfeed : platform.feed m fragments = some (replies, m')) : Framed m' :=
  Run.run_invariant (fun _ _ _ _ hs hstep => (advance_of_call hs hstep).framed) hm hfeed

theorem not_reported {fragments : List Str} {replies : List Reply} (hm : Framed m)
    (hfeed : platform.feed m fragments = some (replies, m')) (hstate : m'.derived.streamState ≠ .finished) :
    .returned true ∉ replies := by
  induction fragments generalizing m replies with
  | nil =>
      obtain ⟨rfl, -⟩ := Prod.mk.inj (Option.some.inj hfeed)
      simp
  | cons fragment fragments ih =>
      obtain ⟨reply, others, m₁, hanswer, hrest, rfl⟩ := Run.run_cons_eq_some.mp hfeed
      have hadvance := advance_of_call hm hanswer
      intro hmem
      rcases List.mem_cons.mp hmem with rfl | hmem
      · obtain ⟨-, hdone⟩ := hadvance.finishes_iff.mp rfl
        obtain ⟨_, m₂, hfeed₂, -, -, hderived⟩ := feed_of_finished hadvance.framed hdone fragments
        obtain ⟨-, rfl⟩ := Prod.mk.inj (Option.some.inj ((feed_of_feed hfeed₂).symm.trans hrest))
        exact hstate (by rw [hderived, hdone])
      · exact ih hadvance.framed hrest hmem

end Platform

/-- **Completion is monotone and final**, on every platform. After any calls on a fresh reader, a call moves the message
forward, answers `true` exactly when the message becomes finished in it, and no call before or after it
answers `true` then; later calls have a meaning and leave status, headers and body as they are. -/
theorem completion_monotone_final (platform : Platform) {before : List Str} {fragment : Str} {replies : List Reply}
    {reply : Reply} {m₀ m₁ : IResponseMemory} (hbefore : platform.feed fresh before = some (replies, m₀))
    (hcall : platform.call m₀ fragment = some (reply, m₁)) :
    m₀.derived.streamState ≤ m₁.derived.streamState ∧
      (reply = .returned true ↔
        m₀.derived.streamState ≠ .finished ∧ m₁.derived.streamState = .finished) ∧
      (reply = .returned true → .returned true ∉ replies ∧
        ∀ later, ∃ others m₂, feed m₁ later = some (others, m₂) ∧ platform.feed m₁ later = some (others, m₂) ∧
          .returned true ∉ others ∧
          m₂.derived.streamState = .finished ∧ m₂.derived.status = m₁.derived.status ∧
          m₂.derived.headers = m₁.derived.headers ∧ m₂.derived.body = m₁.derived.body) := by
  have hadvance := Platform.advance_of_call (Platform.framed_of_feed framed_fresh hbefore) hcall
  refine ⟨hadvance.streamState_le, hadvance.finishes_iff, fun hreply => ?_⟩
  obtain ⟨hopen, hdone⟩ := hadvance.finishes_iff.mp hreply
  refine ⟨Platform.not_reported framed_fresh hbefore hopen, fun later => ?_⟩
  obtain ⟨others, m₂, hfeed, hothers, -, hderived⟩ := feed_of_finished hadvance.framed hdone later
  exact ⟨others, m₂, hfeed, Platform.feed_of_feed hfeed, hothers, by rw [hderived, hdone], by rw [hderived],
    by rw [hderived], by rw [hderived]⟩

/-- A start line without its blanks and a response behind it: the platform goes on with some status. -/
theorem completion_at_blank_line :
    let head := [lit "HTTP/1.1\r\n", lit "Content-Length: 0\r\n"]
    ∃ replies m₀ m₁, Platform.harmless.feed fresh head = some (replies, m₀) ∧
      Platform.harmless.call m₀ (lit "\r\n") = some (.returned true, m₁) ∧
      m₀.derived.streamState ≤ m₁.derived.streamState ∧ .returned true ∉ replies := by
  intro head
  obtain ⟨replies, m₀, hbefore⟩ : ∃ replies m₀, Platform.harmless.feed fresh head = some (replies, m₀) := ⟨_, _, rfl⟩
  obtain ⟨m₁, hcall⟩ : ∃ m₁, Platform.harmless.call m₀ (lit "\r\n") = some (.returned true, m₁) := by
    obtain ⟨-, rfl⟩ := Prod.mk.inj (Option.some.inj hbefore)
    exact ⟨_, rfl⟩
  obtain ⟨hle, -, hfinal⟩ := completion_monotone_final Platform.harmless hbefore hcall
  exact ⟨replies, m₀, m₁, hbefore, hcall, hle, (hfinal rfl).1⟩

end Rikitiki.IResponseMemory
