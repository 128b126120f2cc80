import Rikitiki.Incoming.Transition

/-!
# Calls and runs of the reader

`OnData` as a derivation of the read loop, what a call keeps, and the unfolding of a call into its first
block and the rest.
-/

namespace Rikitiki.IResponseMemory

open BufferedReader (Loop)

theorem length_lt_fuel (data : Str) : data.length < fuel data := by
  rw [fuel]
  omega

theorem loop_onDataIn {m : IResponseMemory} (hm : Framed m) (data after : Str) :
    Loop onBufferedData after m data (BufferedReader.onDataCalls onBufferedData after (fuel data) m data)
      (m.onDataIn data after) :=
  BufferedReader.loop_onDataLoop progress hm (length_lt_fuel data)

theorem loop_onData {m : IResponseMemory} (hm : Framed m) (data : Str) :
    Loop onBufferedData [nul] m data (m.onDataCalls data) (m.onData data) := loop_onDataIn hm data [nul]

/-! ### Unfolding a call -/

@[simp] theorem onData_nil (m : IResponseMemory) : m.onData [] = .returns false m := by
  simp [onData, onDataIn, fuel, BufferedReader.onDataLoop]

theorem onData_of_cantProcess {m reader : IResponseMemory} {data : Str} (hdata : data ≠ [])
    (hpass : m.pass data [nul] = .cantProcess reader) :
    m.onData data = .returns false (reader.keep data) := by
  simp only [onData, onDataIn, fuel, BufferedReader.onDataLoop, if_neg hdata, hpass]

theorem onData_of_handOver {m : IResponseMemory} {data : Str} (hdata : data ≠ [])
    (hpass : m.pass data [nul] = .handOver) : m.onData data = m.onBufferedData data := by
  simp only [onData, onDataIn, fuel, BufferedReader.onDataLoop, if_neg hdata, hpass]

theorem onData_of_finishes {m block next : IResponseMemory} {data rest : Str} (hdata : data ≠ [])
    (hpass : m.pass data [nul] = .deliver block rest)
    (hcall : block.onBufferedData block.buffer = .returns true next) :
    m.onData data = .returns true next.clear := by
  simp only [onData, onDataIn, fuel, BufferedReader.onDataLoop, if_neg hdata, hpass, hcall]

theorem onData_of_undefined {m block : IResponseMemory} {data rest : Str} (hdata : data ≠ [])
    (hpass : m.pass data [nul] = .deliver block rest)
    (hcall : block.onBufferedData block.buffer = .undefined) : m.onData data = .undefined := by
  simp only [onData, onDataIn, fuel, BufferedReader.onDataLoop, if_neg hdata, hpass, hcall]

theorem onData_of_goesOn {m block next : IResponseMemory} {data rest : Str} (hm : Framed m)
    (hdata : data ≠ []) (hpass : m.pass data [nul] = .deliver block rest)
    (hcall : block.onBufferedData block.buffer = .returns false next) :
    m.onData data = onData next.clear rest := by
  obtain ⟨hnext, hlt⟩ := progress hm hdata hpass hcall
  calc m.onData data
      = BufferedReader.onDataLoop onBufferedData [nul] (2 * data.length + 1) next.clear rest := by
        simp only [onData, onDataIn, fuel, BufferedReader.onDataLoop, if_neg hdata, hpass, hcall]
    _ = onData next.clear rest :=
        BufferedReader.onDataLoop_fuel progress hnext (by omega) (length_lt_fuel rest)

/-! ### What a call keeps -/

/-- The loop's invariant is kept, the message never goes back, the answer is `true` exactly when the
message is finished by the call, and a finished message is left alone. -/
structure Advance (m : IResponseMemory) (reply : Reply) (m' : IResponseMemory) : Prop where
  framed : Framed m'
  streamState_le : m.derived.streamState ≤ m'.derived.streamState
  finishes_iff : reply = .returned true ↔
    m.derived.streamState ≠ .finished ∧ m'.derived.streamState = .finished
  frozen : m.derived.streamState = .finished → m'.derived = m.derived

theorem Advance.of_derived {m m' : IResponseMemory} {reply : Reply} (hframed : Framed m')
    (hderived : m'.derived = m.derived) (hreply : reply ≠ .returned true) : Advance m reply m' where
  framed := hframed
  streamState_le := by rw [hderived]; exact MessageState.le_refl _
  finishes_iff := by
    rw [hderived]
    exact ⟨fun h => absurd h hreply, fun h => absurd h.2 h.1⟩
  frozen _ := hderived

/-- What a callback that returns does, as far as the loop goes by it. -/
structure Moves (m : IResponseMemory) (value : Bool) (m' : IResponseMemory) : Prop where
  not_finished : m.derived.streamState ≠ .finished
  streamState_le : m.derived.streamState ≤ m'.derived.streamState
  value_eq : value = decide (m'.derived.streamState = .finished)
  buffer_eq : m'.buffer = m.buffer
  moded : Moded m → Moded m'

/-- A callback that moves the message when it returns, and throws at a finished one only. -/
structure Driven (call : IResponseMemory → Str → Outcome IResponseMemory) : Prop where
  moves : ∀ {m m' data value}, call m data = .returns value m' → Moves m value m'
  throws : ∀ {m m' data error}, call m data = .throws error m' → m.derived.streamState = .finished ∧ m' = m

theorem driven_onBufferedData : Driven onBufferedData where
  moves h := by
    obtain ⟨htransition, hvalue⟩ := transition_of_returns h
    exact ⟨htransition.not_finished, htransition.streamState_le, hvalue, htransition.buffer_eq, htransition.moded⟩
  throws h := by
    obtain ⟨hfinished, -, rfl⟩ := throws_iff.mp h
    exact ⟨hfinished, rfl⟩

theorem Moves.advance {m m' reader : IResponseMemory} {value : Bool} (h : Moves m value m')
    (hreader : Framed reader) (hderived : reader.derived = m'.derived) :
    Advance m (.returned value) reader where
  framed := hreader
  streamState_le := by rw [hderived]; exact h.streamState_le
  finishes_iff := by simp [hderived, h.not_finished, h.value_eq]
  frozen hfinished := absurd hfinished h.not_finished

theorem Moves.advance_trans {m m' reader last : IResponseMemory} {reply : Reply} (h : Moves m false m')
    (hderived : reader.derived = m'.derived) (hrest : Advance reader reply last) : Advance m reply last where
  framed := hrest.framed
  streamState_le := by
    have hle := hrest.streamState_le
    rw [hderived] at hle
    exact MessageState.le_trans h.streamState_le hle
  finishes_iff := by
    have hgoes : m'.derived.streamState ≠ .finished := of_decide_eq_false h.value_eq.symm
    rw [hrest.finishes_iff, hderived]
    simp [hgoes, h.not_finished]
  frozen hfinished := absurd hfinished h.not_finished

theorem Advance.of_derived_eq {m block m' : IResponseMemory} {reply : Reply}
    (h : Advance block reply m') (hderived : block.derived = m.derived) : Advance m reply m' where
  framed := h.framed
  streamState_le := hderived ▸ h.streamState_le
  finishes_iff := hderived ▸ h.finishes_iff
  frozen := hderived ▸ h.frozen

theorem Loop.advance {call : IResponseMemory → Str → Outcome IResponseMemory} (hdriven : Driven call)
    {m m' : IResponseMemory} {data after : Str} {calls : List (IResponseMemory × Str)}
    {outcome : Outcome IResponseMemory} {reply : Reply} (h : Loop call after m data calls outcome) (hm : Framed m)
    (hanswer : answer outcome = some (reply, m')) : Advance m reply m' := by
  induction h with
  | idle reader =>
      obtain ⟨rfl, rfl⟩ := Prod.mk.inj (Option.some.inj hanswer)
      exact .of_derived hm rfl (by simp)
  | cantProcess hdata hpass =>
      obtain ⟨rfl, rfl⟩ := Prod.mk.inj (Option.some.inj hanswer)
      refine .of_derived (hm.keep hpass) ?_ (by simp)
      rcases BufferedReader.pass_eq_cantProcess hpass with ⟨-, hreader⟩ | ⟨-, rfl, -⟩
      · rw [hreader]
        rfl
      · rfl
  | @handOver reader data hdata hpass =>
      have hmode := BufferedReader.pass_eq_handOver hpass
      cases hcall : call reader data with
      | returns value next =>
          rw [hcall] at hanswer
          obtain ⟨rfl, rfl⟩ := Prod.mk.inj (Option.some.inj hanswer)
          have hmoves := hdriven.moves hcall
          have hbuffer : next.buffer = [] := hmoves.buffer_eq.trans (hm.buffer_of_none hmode)
          exact hmoves.advance (.of_moded (hmoves.moded hm.moded) hbuffer) rfl
      | throws error next =>
          rw [hcall] at hanswer
          obtain ⟨rfl, rfl⟩ := Prod.mk.inj (Option.some.inj hanswer)
          obtain ⟨-, rfl⟩ := hdriven.throws hcall
          exact .of_derived hm rfl (by simp)
      | undefined => simp [hcall, answer] at hanswer
      | running => simp [hcall, answer] at hanswer
  | @finishes reader block next data rest hdata hpass hcall =>
      obtain ⟨rfl, rfl⟩ := Prod.mk.inj (Option.some.inj hanswer)
      obtain ⟨-, hderived, -⟩ := expectedSize_of_deliver hm hpass
      have hmoves := hdriven.moves hcall
      exact (hmoves.advance (hmoves.moded (hm.block_moded hpass)).clear rfl).of_derived_eq hderived
  | @fails reader block data rest outcome hdata hpass hcall hfails =>
      obtain ⟨-, hderived, hmode, -⟩ := expectedSize_of_deliver hm hpass
      cases outcome with
      | returns value next => exact absurd rfl (hfails value next)
      | throws error next =>
          obtain ⟨rfl, rfl⟩ := Prod.mk.inj (Option.some.inj hanswer)
          obtain ⟨hfinished, rfl⟩ := hdriven.throws hcall
          refine .of_derived (.of_newline ?_) hderived (by simp)
          rcases next.bufferMode.eq_or with hlength | hnewline | hnone
          · simp [((hm.block_moded hpass).body_of_length hlength).1] at hfinished
          · exact hnewline
          · rw [BufferedReader.pass_of_none (hmode ▸ hnone)] at hpass
            cases hpass
      | undefined => simp [answer] at hanswer
      | running => simp [answer] at hanswer
  | @goesOn reader block next data rest calls outcome hdata hpass hcall hrest ih =>
      obtain ⟨-, hderived, -⟩ := expectedSize_of_deliver hm hpass
      have hmoves := hdriven.moves hcall
      have hlast := ih (hmoves.moded (hm.block_moded hpass)).clear hanswer
      exact (hmoves.advance_trans (BufferedReader.clear_derived next) hlast).of_derived_eq hderived

/-- **One call**, whatever lies behind the data. -/
theorem advance_of_answerIn {m m' : IResponseMemory} {data after : Str} {reply : Reply} (hm : Framed m)
    (hanswer : answer (m.onDataIn data after) = some (reply, m')) : Advance m reply m' :=
  Loop.advance driven_onBufferedData (loop_onDataIn hm data after) hm hanswer

theorem advance_of_answer {m m' : IResponseMemory} {data : Str} {reply : Reply} (hm : Framed m)
    (hanswer : answer (m.onData data) = some (reply, m')) : Advance m reply m' :=
  advance_of_answerIn hm hanswer

theorem Loop.ne_running {m : IResponseMemory} {data after : Str} {calls : List (IResponseMemory × Str)}
    {outcome : Outcome IResponseMemory} (h : Loop onBufferedData after m data calls outcome) :
    outcome ≠ .running := by
  induction h with
  | idle reader => simp
  | cantProcess hdata hpass => simp
  | handOver hdata hpass => exact onBufferedData_ne_running _ _
  | finishes hdata hpass hcall => simp
  | fails hdata hpass hcall hfails => exact hcall ▸ onBufferedData_ne_running _ _
  | goesOn hdata hpass hcall hrest ih => exact ih

/-- **A call comes to an end**: the fuel of the loop is enough. -/
theorem onDataIn_ne_running {m : IResponseMemory} (hm : Framed m) (data after : Str) :
    m.onDataIn data after ≠ .running := Loop.ne_running (loop_onDataIn hm data after)

/-! ### Runs -/

theorem framed_of_feed {m m' : IResponseMemory} {fragments : List Str} {replies : List Reply}
    (hm : Framed m) (hfeed : feed m fragments = some (replies, m')) : Framed m' :=
  Run.run_invariant (fun _ _ _ _ hs hstep => (advance_of_answer hs hstep).framed) hm hfeed

theorem feedCalls_cons {m m' : IResponseMemory} {fragment : Str} {reply : Reply}
    (hanswer : answer (m.onData fragment) = some (reply, m')) (fragments : List Str) :
    feedCalls m (fragment :: fragments) = m.onDataCalls fragment ++ feedCalls m' fragments := by
  rw [feedCalls, hanswer]

/-- An invariant of the reader: it does not depend on the carried buffer, nor on the expected size
unless everything is handed on, and the callbacks `Ok` admits keep it. -/
structure Invariant (Inv : IResponseMemory → Prop) (Ok : IResponseMemory → Str → Prop) : Prop where
  same : ∀ {m m' : IResponseMemory}, Inv m → m'.derived = m.derived → m'.bufferMode = m.bufferMode →
    (m.bufferMode = .none → m'.expectedSize = m.expectedSize) → Inv m'
  step : ∀ {m m' : IResponseMemory} {data : Str}, Inv m → Transition m data m' → Ok m data → Inv m'

namespace Invariant

variable {Inv : IResponseMemory → Prop} {Ok : IResponseMemory → Str → Prop}

theorem keep (h : Invariant Inv Ok) {m reader : IResponseMemory} {data : Str} (hinv : Inv m)
    (hpass : m.pass data [nul] = .cantProcess reader) : Inv (reader.keep data) := by
  rcases BufferedReader.pass_eq_cantProcess hpass with ⟨hmode, hreader⟩ | ⟨hmode, rfl, -⟩
  · rw [hreader]
    exact h.same hinv rfl rfl fun hnone => by simp [hmode] at hnone
  · exact h.same hinv rfl rfl fun _ => rfl

theorem block (h : Invariant Inv Ok) {m block : IResponseMemory} {data rest : Str} (hm : Framed m)
    (hinv : Inv m) (hpass : m.pass data [nul] = .deliver block rest) : Inv block := by
  obtain ⟨-, hderived, hmode, -⟩ := expectedSize_of_deliver hm hpass
  refine h.same hinv hderived hmode fun hnone => ?_
  rw [BufferedReader.pass_of_none hnone] at hpass
  cases hpass

theorem loop (h : Invariant Inv Ok) {m m' : IResponseMemory} {data : Str}
    {calls : List (IResponseMemory × Str)} {outcome : Outcome IResponseMemory} {reply : Reply}
    (hloop : Loop onBufferedData [nul] m data calls outcome) (hm : Framed m) (hinv : Inv m)
    (hok : ∀ call ∈ calls, Ok call.1 call.2) (hanswer : answer outcome = some (reply, m')) : Inv m' := by
  induction hloop with
  | idle reader =>
      obtain ⟨-, rfl⟩ := Prod.mk.inj (Option.some.inj hanswer)
      exact hinv
  | cantProcess hdata hpass =>
      obtain ⟨-, rfl⟩ := Prod.mk.inj (Option.some.inj hanswer)
      exact h.keep hinv hpass
  | @handOver reader data hdata hpass =>
      cases hcall : onBufferedData reader data with
      | returns value next =>
          rw [hcall] at hanswer
          obtain ⟨-, rfl⟩ := Prod.mk.inj (Option.some.inj hanswer)
          exact h.step hinv (transition_of_returns hcall).1 (hok (reader, data) (by simp))
      | throws error next =>
          rw [hcall] at hanswer
          obtain ⟨-, rfl⟩ := Prod.mk.inj (Option.some.inj hanswer)
          rw [(throws_iff.mp hcall).2.2]
          exact hinv
      | undefined => simp [hcall, answer] at hanswer
      | running => simp [hcall, answer] at hanswer
  | @finishes reader block next data rest hdata hpass hcall =>
      obtain ⟨-, rfl⟩ := Prod.mk.inj (Option.some.inj hanswer)
      have hnext := h.step (h.block hm hinv hpass) (transition_of_returns hcall).1
        (hok (block, block.buffer) (by simp))
      exact h.same hnext rfl rfl fun _ => rfl
  | @fails reader block data rest outcome hdata hpass hcall hfails =>
      cases outcome with
      | returns value next => exact absurd rfl (hfails value next)
      | throws error next =>
          obtain ⟨-, rfl⟩ := Prod.mk.inj (Option.some.inj hanswer)
          rw [(throws_iff.mp hcall).2.2]
          exact h.block hm hinv hpass
      | undefined => simp [answer] at hanswer
      | running => simp [answer] at hanswer
  | @goesOn reader block next data rest calls outcome hdata hpass hcall hrest ih =>
      have htransition := (transition_of_returns hcall).1
      have hnext := h.step (h.block hm hinv hpass) htransition (hok (block, block.buffer) (by simp))
      exact ih (htransition.moded (hm.block_moded hpass)).clear (h.same hnext rfl rfl fun _ => rfl)
        (fun call hcall => hok call (by simp [hcall])) hanswer

/-- **An invariant of the callbacks is an invariant of every run they make up.** -/
theorem feed (h : Invariant Inv Ok) {m m' : IResponseMemory} {fragments : List Str}
    {replies : List Reply} (hm : Framed m) (hinv : Inv m)
    (hok : ∀ call ∈ feedCalls m fragments, Ok call.1 call.2)
    (hfeed : feed m fragments = some (replies, m')) : Inv m' := by
  induction fragments generalizing m replies with
  | nil =>
      obtain ⟨-, rfl⟩ := Prod.mk.inj (Option.some.inj hfeed)
      exact hinv
  | cons fragment fragments ih =>
      obtain ⟨reply, others, m₁, hanswer, hrest, -⟩ := Run.run_cons_eq_some.mp hfeed
      rw [feedCalls_cons hanswer] at hok
      have hinv₁ := h.loop (loop_onData hm fragment) hm hinv
        (fun call hcall => hok call (List.mem_append_left _ hcall)) hanswer
      exact ih (advance_of_answer hm hanswer).framed hinv₁
        (fun call hcall => hok call (List.mem_append_right _ hcall)) hrest

end Invariant

end Rikitiki.IResponseMemory
