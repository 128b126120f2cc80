import Rikitiki.Incoming.Run

/-!
# The framing of the body

In the body, the body type says how much is still to come and the buffer mode says how it is cut. The
end of the head sets them from the same two headers, but the type lets the length win and the mode lets
the encoding win, so a head with both leaves them apart. `BodyFramed` is what they should have in
common, and every run in which no head ends that way keeps it.
-/

namespace Rikitiki.IResponseMemory

/-- What the body type and the buffer mode have in common while the body is read. -/
structure BodyFramed (m : IResponseMemory) : Prop where
  chunked_iff : m.derived.streamState = .body →
    (m.derived.bodyType = .chunked ↔ m.bufferMode = .newline ∨ m.bufferMode = .length)
  knownSize : m.derived.streamState = .body → m.derived.bodyType = .knownSize →
    m.bufferMode = .none ∧
      m.expectedSize + m.derived.body.length = contentLength m.derived.headers

/-- The call that ends a head with a length of its own and the chunked encoding. -/
def EndsWithBoth (m : IResponseMemory) (data : Str) : Prop :=
  m.derived.streamState = .headers ∧ (data.head?).any isNewline = true ∧
    contentLength m.derived.headers ≠ 0 ∧ contentLength m.derived.headers ≠ npos ∧
    transferEncoding m.derived.headers = .chunked

/-- `BodyFramed` with what the head has to hold for it. -/
structure Framing (m : IResponseMemory) : Prop where
  framed : BodyFramed m
  body_nil : m.derived.streamState ≤ .headers → m.derived.body = []

theorem framing_fresh : Framing fresh where
  framed := ⟨fun h => (nomatch h), fun h => (nomatch h)⟩
  body_nil _ := rfl

theorem framing_endHeaders {m : IResponseMemory} {data : Str} (hbody : m.derived.body = [])
    (hstate : m.derived.streamState = .headers) (hblank : (data.head?).any isNewline = true)
    (hone : ¬ EndsWithBoth m data) : Framing m.endHeaders := by
  by_cases hlength : contentLength m.derived.headers = 0
  · have hdone : m.endHeaders.derived.streamState = .finished := by simp [hlength]
    refine ⟨⟨fun h => ?_, fun h => ?_⟩, fun _ => hbody⟩
    · rw [hdone] at h
      cases h
    · rw [hdone] at h
      cases h
  · have hencoding : contentLength m.derived.headers ≠ npos →
        transferEncoding m.derived.headers ≠ .chunked := fun hnpos hencoding =>
      hone ⟨hstate, hblank, hlength, hnpos, hencoding⟩
    refine ⟨⟨fun _ => ?_, fun _ hknown => ?_⟩, fun _ => hbody⟩
    · rw [endHeaders_derived_bodyType, BodyType.from_eq_chunked, endHeaders_bufferMode]
      by_cases hchunked : transferEncoding m.derived.headers = .chunked
      · have hnpos := mt hencoding (not_not.mpr hchunked)
        simp [hchunked, not_not.mp hnpos]
      · simp [hchunked]
    · rw [endHeaders_derived_bodyType, BodyType.from_eq_knownSize] at hknown
      simp [hencoding hknown, hbody]

theorem Transition.not_le_headers {m m' : IResponseMemory} {data : Str} (h : Transition m data m')
    (hstate : m.derived.streamState = .body) : ¬ m'.derived.streamState ≤ .headers := by
  intro hle
  have hge := h.streamState_le
  rw [hstate] at hge
  exact absurd (MessageState.le_trans hge hle) (by decide)

theorem framing_knownSize {m : IResponseMemory} {data : Str} (h : Framing m)
    (hstate : m.derived.streamState = .body) (hbody : m.derived.bodyType = .knownSize) (hdata : data ≠ []) :
    Framing (((writeBody { m with bufferMode := .none } data).afterBody data.length).finishBody) := by
  obtain ⟨hmode, hsum⟩ := h.framed.knownSize hstate hbody
  refine ⟨⟨?_, fun hopen _ => ?_⟩,
    fun hle => absurd hle ((Transition.knownSize hstate hbody hdata).not_le_headers hstate)⟩
  · simp [hbody]
  · -- the body goes on, so the block was shorter than what was expected
    simp only [finishBody_derived_streamState, afterBody_expectedSize, writeBody_expectedSize] at hopen
    have hlt : data.length < m.expectedSize := by
      by_contra hge
      rw [if_pos (by split <;> omega)] at hopen
      cases hopen
    simp only [finishBody_bufferMode, afterBody_bufferMode, writeBody_bufferMode,
      finishBody_expectedSize, afterBody_expectedSize, writeBody_expectedSize, if_pos hlt.le,
      finishBody_derived_body, finishBody_derived_headers, afterBody_derived,
      writeBody_derived_body, writeBody_derived_headers, List.length_append, true_and]
    omega

/-- The body type and the buffer mode are kept together by every callback but the one that ends a head
with both headers. -/
theorem framing_invariant : Invariant Framing fun m data => ¬ EndsWithBoth m data where
  same := by
    intro m m' h hderived hmode hexpected
    refine ⟨⟨?_, ?_⟩, ?_⟩
    · rw [hderived, hmode]
      exact h.framed.chunked_iff
    · intro hstate htype
      rw [hderived] at hstate htype
      obtain ⟨hnone, hsum⟩ := h.framed.knownSize hstate htype
      rw [hderived, hmode, hexpected hnone]
      exact ⟨hnone, hsum⟩
    · rw [hderived]
      exact h.body_nil
  step := by
    intro m m' data h htransition hone
    have hmoves := htransition
    cases htransition with
    | startLine hstate status hstatus =>
        refine ⟨⟨?_, ?_⟩, fun _ => ?_⟩
        · simp
        · simp
        · exact h.body_nil (by rw [hstate]; decide)
    | endHeaders hstate hblank =>
        exact framing_endHeaders (h.body_nil (by rw [hstate]; exact MessageState.le_refl _)) hstate hblank hone
    | header hstate hfield =>
        refine ⟨⟨?_, ?_⟩, fun _ => ?_⟩
        · simp [hstate]
        · simp [hstate]
        · exact h.body_nil (by rw [hstate]; exact MessageState.le_refl _)
    | chunkSize hstate hbody hexpected =>
        refine ⟨⟨?_, ?_⟩, fun hle => absurd hle (hmoves.not_le_headers hstate)⟩
        · simp [hbody]
        · simp [hbody]
    | chunk hstate hbody hexpected hsize =>
        refine ⟨⟨?_, ?_⟩, fun hle => absurd hle (hmoves.not_le_headers hstate)⟩
        · simp [hbody]
        · simp [hbody]
    | knownSize hstate hbody hdata => exact framing_knownSize h hstate hbody hdata
    | knownSizeEmpty hstate hbody hdata =>
        exact ⟨⟨fun _ => h.framed.chunked_iff hstate, fun _ _ => h.framed.knownSize hstate hbody⟩,
          fun hle => absurd hle (hmoves.not_le_headers hstate)⟩
    | stream hstate hbody =>
        refine ⟨⟨fun _ => h.framed.chunked_iff hstate, fun _ hknown => ?_⟩,
          fun hle => absurd hle (hmoves.not_le_headers hstate)⟩
        rcases hbody with hbody | hbody <;> rw [writeBody_derived_bodyType, hbody] at hknown <;>
          cases hknown
    | ignored hstate hbody => exact h
    | unknown hstate => exact h

/-- **The framing of a body is consistent** after every run in which no head ends with both a length
and the chunked encoding. -/
theorem bodyFramed_of_feed {fragments : List Str} {replies : List Reply} {m : IResponseMemory}
    (hone : ∀ call ∈ feedCalls fresh fragments, ¬ EndsWithBoth call.1 call.2)
    (hfeed : feed fresh fragments = some (replies, m)) : BodyFramed m :=
  (framing_invariant.feed framed_fresh framing_fresh hone hfeed).framed

theorem bodyFramed_of_length :
    ∃ replies m, feed fresh [lit "HTTP/1.1 200 OK\r\nContent-Length: 5\r\n\r\nab"] = some (replies, m) ∧
      m.derived.streamState = .body ∧ BodyFramed m := by
  obtain ⟨replies, m, hfeed, hstate⟩ : ∃ replies m,
      feed fresh [lit "HTTP/1.1 200 OK\r\nContent-Length: 5\r\n\r\nab"] = some (replies, m) ∧
        m.derived.streamState = .body := ⟨_, _, rfl, rfl⟩
  refine ⟨replies, m, hfeed, hstate, bodyFramed_of_feed ?_ hfeed⟩
  have hcalls : ∀ call ∈ feedCalls fresh [lit "HTTP/1.1 200 OK\r\nContent-Length: 5\r\n\r\nab"],
      transferEncoding call.1.derived.headers ≠ .chunked := by decide
  exact fun call hcall hboth => hcalls call hcall hboth.2.2.2.2

/-- A head with a length and the chunked encoding leaves a body of known size to be read by lines. -/
theorem not_bodyFramed_of_both :
    ¬ ∀ fragments replies m, feed fresh fragments = some (replies, m) → BodyFramed m := by
  intro h
  have hframed := h
    [lit "HTTP/1.1 200 OK\r\nContent-Length: 5\r\nTransfer-Encoding: chunked\r\n\r\n"] _ _ rfl
  have hmode := (hframed.knownSize rfl rfl).1
  exact absurd hmode (by decide)

end Rikitiki.IResponseMemory
