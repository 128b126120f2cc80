import Rikitiki.Outgoing.Done
import Rikitiki.Outgoing.Framed

/-!
# What a refused call leaves behind

A header or a payload is refused before anything is sent. `Done` ends the head before it looks whether
the body is complete, so with a size set it throws behind what it has already sent.
-/

namespace Rikitiki

namespace OResponseWriter

/-- What a caller sees of a writer is the same. -/
structure Unchanged (w w' : OResponseWriter) : Prop where
  wire : w'.wire = w.wire
  streamState : w'.streamState = w.streamState
  bodyType : w'.bodyType = w.bodyType
  buffer : w'.buffer = w.buffer

theorem Unchanged.refl (w : OResponseWriter) : Unchanged w w := ⟨rfl, rfl, rfl, rfl⟩

/-- If the call throws, it has changed nothing. -/
def Atomic (w : OResponseWriter) (c : Call) : Prop := (w.call c).1 ≠ none → Unchanged w (w.call c).2

def after (contentSize : Nat) (encoding : Encoding) (calls : List Call) : OResponseWriter :=
  (Machine.run call (framed contentSize encoding) calls).2

def chosenType (contentSize : Nat) (encoding : Encoding) : BodyType :=
  if BodyType.from contentSize encoding = .none then .buffering else BodyType.from contentSize encoding

theorem chosenType_cases (contentSize : Nat) (encoding : Encoding) :
    chosenType contentSize encoding = .buffering ∧ contentSize = npos ∨
      chosenType contentSize encoding = .chunked ∨ chosenType contentSize encoding = .knownSize := by
  rcases BodyType.from_cases contentSize encoding with (h | h) | ⟨hsize, -, h⟩
  · exact .inr (.inr (by simp [chosenType, h]))
  · exact .inr (.inl (by simp [chosenType, h]))
  · exact .inl ⟨by simp [chosenType, h], hsize⟩

/-- What is true of a writer after any calls. -/
structure Consistent (w : OResponseWriter) : Prop where
  state : w.streamState = .startLine ∨ w.streamState = .headers ∨ w.streamState = .body
  body : w.streamState = .body → w.bodyType = chosenType w.contentSize w.encoding
  head : w.streamState ≠ .body → w.contentSize ≠ npos → w.bodyType = .unknown

/-- The state in which `Done` throws behind what it has sent: a head that is not ended, and a size. -/
structure Abandons (w : OResponseWriter) : Prop where
  state : w.streamState = .startLine ∨ w.streamState = .headers
  contentSize : w.contentSize ≠ npos
  encoding : w.encoding ≠ .chunked

theorem Abandons.notBody {w : OResponseWriter} (h : Abandons w) : w.streamState ≠ .body := by
  rcases h.state with hstate | hstate <;> simp [hstate]

instance (w : OResponseWriter) : Decidable (Abandons w) :=
  decidable_of_iff ((w.streamState = .startLine ∨ w.streamState = .headers) ∧ w.contentSize ≠ npos ∧
      w.encoding ≠ .chunked)
    ⟨fun h => ⟨h.1, h.2.1, h.2.2⟩, fun h => ⟨h.state, h.contentSize, h.encoding⟩⟩

/-- What a call does to a consistent writer. -/
inductive Effect (w : OResponseWriter) : Call → Option Exception × OResponseWriter → Prop
  | refused (c : Call) (e : Exception) (hstate : w.streamState = .body) : Effect w c (some e, w)
  | status (status : HttpStatus) : Effect w (.stream (.status status)) (none, { w with status := status })
  | field (field : Field) (wire : Str) (hstate : w.streamState ≠ .body) :
      Effect w (.stream (.field field)) (none, { w with streamState := .headers, wire := wire })
  | payload (data wire buffer : Str) :
      Effect w (.stream (.payload data)) (none,
        { w with
          streamState := .body
          bodyType := chosenType w.contentSize w.encoding
          wire := wire
          buffer := buffer })
  | lastChunk (wire : Str) (hstate : w.streamState = .body) : Effect w .done (none, { w with wire := wire })
  | ended (wire : Str) (hsize : w.streamState = .body → w.contentSize = npos) (hgoes : ¬ Abandons w) :
      Effect w .done (none, { w with streamState := .headers, wire := wire })
  | abandoned (e : Exception) (wire : Str) (habandons : Abandons w) (hwire : wire ≠ w.wire) :
      Effect w .done (some e, { w with streamState := .headers, wire := wire })

/-! ### One call -/

variable {w : OResponseWriter}

theorem effect_field (hw : Consistent w) (field : Field) :
    Effect w (.stream (.field field)) (w.call (.stream (.field field))) := by
  obtain ⟨⟨streamState, bodyType, contentSize, encoding⟩, buffer, status, wire⟩ := w
  rcases hw.state with hstate | hstate | hstate
  · obtain rfl : streamState = .startLine := hstate
    exact .field field _ (by simp)
  · obtain rfl : streamState = .headers := hstate
    exact .field field _ (by simp)
  · obtain rfl : streamState = .body := hstate
    exact .refused _ _ rfl

theorem OMessage.writePayloadData_chosen (hw : Consistent w) (size : Nat) :
    w.toOMessage.writePayloadData size = .returns size
      { w.toOMessage with
        streamState := .body
        bodyType := chosenType w.contentSize w.encoding } := by
  rw [OMessage.writePayloadData]
  rcases hw.state with hstate | hstate | hstate
  · simp only [hstate]
    rfl
  · simp only [hstate]
    rfl
  · simp only [hstate, ← hw.body hstate]
    rw [← hstate]

theorem writePayloadData_chosen (hw : Consistent w) (data : Str) : ∃ wire buffer,
    w.stream (.payload data) = .returns ()
      { w with
        streamState := .body
        bodyType := chosenType w.contentSize w.encoding
        wire := wire
        buffer := buffer } := by
  rw [stream, writePayloadData]
  rcases chosenType_cases w.contentSize w.encoding with ⟨h, -⟩ | h | h
  all_goals
    by_cases hstart : w.streamState = .startLine
    · simp [writeStartLine, writeData, OMessage.writePayloadData_chosen hw, h, hstart,
        MessageState.le_def, MessageState.toNat]
    · by_cases hhead : w.streamState ≤ .headers
      · simp [writeData, OMessage.writePayloadData_chosen hw, h, hstart, hhead]
      · simp [writeData, OMessage.writePayloadData_chosen hw, h, hstart, hhead]

theorem effect_payload (hw : Consistent w) (data : Str) :
    Effect w (.stream (.payload data)) (w.call (.stream (.payload data))) := by
  obtain ⟨wire, buffer, hstream⟩ := writePayloadData_chosen hw data
  rw [call, step, hstream]
  exact .payload data wire buffer

theorem effect_done_body (hw : Consistent w) (hstate : w.streamState = .body) :
    Effect w .done (w.call .done) := by
  have htype := hw.body hstate
  rw [call, done, hstate]
  simp only [doneBody, htype]
  rcases chosenType_cases w.contentSize w.encoding with ⟨h, hsize⟩ | h | h
  · simp only [h, setState, writeHeader, Result.bind_returns]
    exact .ended _ (fun _ => hsize) fun h => h.contentSize hsize
  · simp only [h]
    exact .lastChunk _ hstate
  · simp only [h]
    exact .refused .done _ hstate

theorem doneBody_unknown {v : OResponseWriter} (htype : v.bodyType = .unknown) :
    v.doneBody = .throws (.invalidStateException "") v := by
  rw [doneBody, htype]

theorem effect_doneHeaders (hw : Consistent w)
    (hstate : w.streamState = .startLine ∨ w.streamState = .headers) {wire : Str}
    (hwire : w.wire.length ≤ wire.length) {v : OResponseWriter}
    (hv : v = { w with streamState := .headers, wire := wire }) :
    Effect w .done (v.doneHeaders.error, v.doneHeaders.state) := by
  have hnotBody : w.streamState ≠ .body := by rcases hstate with h | h <;> simp [h]
  have hlonger : wire ++ crlf ≠ w.wire := by
    intro h
    have hlength := congrArg List.length h
    rw [List.length_append, show crlf.length = 2 from rfl] at hlength
    omega
  subst hv
  rw [doneHeaders]
  split
  · rename_i hunframed
    exact .ended _ (fun h => absurd h hnotBody) fun h => h.contentSize hunframed.1
  · rename_i hframed
    split
    · rename_i hchunked
      exact .ended _ (fun h => absurd h hnotBody) fun h => h.encoding hchunked
    · rename_i hchunked
      have hsize : w.contentSize ≠ npos := fun h => hframed ⟨h, hchunked⟩
      have habandons : Abandons w := ⟨hstate, hsize, hchunked⟩
      have htype : w.bodyType = .unknown := hw.head hnotBody hsize
      dsimp only [writeData]
      by_cases hzero : w.contentSize = 0
      · rw [if_neg (not_not.mpr hzero)]
        rw [doneBody_unknown (v := { w with streamState := .headers, wire := wire ++ crlf }) htype]
        exact .abandoned _ _ habandons hlonger
      · rw [if_pos hzero]
        exact .abandoned _ _ habandons hlonger

/-- **Everything a call can do.** -/
theorem effect_call (hw : Consistent w) (c : Call) : Effect w c (w.call c) := by
  cases c with
  | stream op =>
      cases op with
      | status status => exact .status status
      | field field => exact effect_field hw field
      | payload data => exact effect_payload hw data
  | done =>
      rcases hw.state with hstate | hstate | hstate
      · have hdone : w.done = (w.writeStartLine.setState .headers).doneHeaders := by rw [done, hstate]
        rw [call, hdone]
        exact effect_doneHeaders hw (.inl hstate) (by simp [writeStartLine, writeData]) rfl
      · have hdone : w.done = w.doneHeaders := by rw [done, hstate]
        rw [call, hdone]
        apply effect_doneHeaders hw (.inr hstate) (Nat.le_refl _)
        rw [← hstate]
      · exact effect_done_body hw hstate

/-! ### All calls -/

theorem Effect.consistent {c : Call} {e : Option Exception} {v : OResponseWriter} (h : Effect w c (e, v))
    (hw : Consistent w) : Consistent v ∧ v.contentSize = w.contentSize ∧ v.encoding = w.encoding := by
  cases h with
  | refused c e => exact ⟨hw, rfl, rfl⟩
  | status status => exact ⟨⟨hw.state, hw.body, hw.head⟩, rfl, rfl⟩
  | field field wire hstate =>
      exact ⟨⟨.inr (.inl rfl), (fun h => by cases h), fun _ => hw.head hstate⟩, rfl, rfl⟩
  | payload data wire buffer => exact ⟨⟨.inr (.inr rfl), fun _ => rfl, fun h => absurd rfl h⟩, rfl, rfl⟩
  | lastChunk wire => exact ⟨⟨hw.state, hw.body, hw.head⟩, rfl, rfl⟩
  | ended wire hsize =>
      refine ⟨⟨.inr (.inl rfl), (fun h => by cases h), fun _ hset => ?_⟩, rfl, rfl⟩
      exact hw.head (fun hbody => hset (hsize hbody)) hset
  | abandoned e wire habandons hwire =>
      refine ⟨⟨.inr (.inl rfl), (fun h => by cases h), fun _ hset => ?_⟩, rfl, rfl⟩
      exact hw.head habandons.notBody hset

theorem run_consistent (hw : Consistent w) (calls : List Call) :
    Consistent (Machine.run call w calls).2 ∧ (Machine.run call w calls).2.contentSize = w.contentSize ∧
      (Machine.run call w calls).2.encoding = w.encoding := by
  induction calls generalizing w with
  | nil => exact ⟨hw, rfl, rfl⟩
  | cons c calls ih =>
      obtain ⟨hnext, hsize, hencoding⟩ := (effect_call hw c).consistent hw
      rw [Machine.run_cons]
      rw [← hsize, ← hencoding]
      exact ih hnext

theorem consistent_framed (contentSize : Nat) (encoding : Encoding) :
    Consistent (framed contentSize encoding) :=
  ⟨.inl rfl, (fun h => by cases h), fun _ _ => rfl⟩

theorem consistent_after (contentSize : Nat) (encoding : Encoding) (calls : List Call) :
    Consistent (after contentSize encoding calls) :=
  (run_consistent (consistent_framed contentSize encoding) calls).1

theorem done_of_abandons (hw : Consistent w) (habandons : Abandons w) :
    (w.call .done).1 ≠ none ∧ (w.call .done).2.wire ≠ w.wire := by
  have hstate : w.streamState ≠ .body := habandons.notBody
  have heffect := effect_call hw .done
  generalize w.call .done = next at heffect ⊢
  cases heffect with
  | refused c e hbody => exact absurd hbody hstate
  | lastChunk wire hbody => exact absurd hbody hstate
  | ended wire hsize hgoes => exact absurd habandons hgoes
  | abandoned e wire habandons hwire => exact ⟨by simp, hwire⟩

theorem Consistent.atomic_iff (hw : Consistent w) (c : Call) : Atomic w c ↔ ¬ (c = .done ∧ Abandons w) := by
  constructor
  · rintro hatomic ⟨rfl, habandons⟩
    obtain ⟨herror, hwire⟩ := done_of_abandons hw habandons
    exact hwire (hatomic herror).wire
  · intro hnot herror
    have heffect := effect_call hw c
    generalize w.call c = next at heffect herror ⊢
    cases heffect with
    | refused c e => exact .refl w
    | abandoned e wire habandons => exact absurd ⟨rfl, habandons⟩ hnot
    | _ => exact absurd rfl herror

/-- **A call that throws has changed nothing, unless it is `Done`, the head is not ended and a size is
set.** Then the blank line has been sent, behind the start line if there was none. -/
theorem atomic_after_iff (contentSize : Nat) (encoding : Encoding) (calls : List Call) (c : Call) :
    Atomic (after contentSize encoding calls) c
      ↔ ¬ (c = .done ∧ Abandons (after contentSize encoding calls)) :=
  (consistent_after contentSize encoding calls).atomic_iff c

theorem not_atomic_done_abandoned : ¬ Atomic (after 5 .unknown []) .done := by
  intro h
  exact absurd (h (by decide)).wire (by decide)

end OResponseWriter

end Rikitiki
