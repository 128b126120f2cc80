import Rikitiki.Incoming.Completion
import Rikitiki.Incoming.Stream

/-!
# Bodies that are handed on

In the mode without buffering every fragment is one call. A body without a size takes all of them; a
body of known size takes whole fragments until it has what it expects, the last one with all it carries.
-/

namespace Rikitiki.IResponseMemory

theorem answer_of_handOver {m : IResponseMemory} (hmode : m.bufferMode = .none) {data : Str}
    (hdata : data ≠ []) : m.onData data = m.onBufferedData data :=
  onData_of_handOver hdata (BufferedReader.pass_of_none hmode data)

theorem writeBody_nil (m : IResponseMemory) : m.writeBody [] = m := by
  simp [writeBody]

theorem writeBody_append (m : IResponseMemory) (data more : Str) :
    m.writeBody (data ++ more) = (m.writeBody data).writeBody more := by
  simp [writeBody]

def swallow (m : IResponseMemory) (data : Str) : IResponseMemory :=
  if m.derived.bodyType = .none then m else m.writeBody data

theorem onBufferedData_swallow {m : IResponseMemory} (hstate : m.derived.streamState = .body)
    (hknown : m.derived.bodyType ≠ .knownSize) (hchunked : m.derived.bodyType ≠ .chunked) (data : Str) :
    m.onBufferedData data = .returns false (m.swallow data) := by
  rw [onBufferedData, hstate]
  cases hbody : m.derived.bodyType with
  | unknown => simp [onBodyData_all, report, swallow, hbody, hstate]
  | none => simp [report, swallow, hbody, hstate]
  | buffering => simp [onBodyData_all, report, swallow, hbody, hstate]
  | knownSize => exact absurd hbody hknown
  | chunked => exact absurd hbody hchunked

theorem feed_swallow {m : IResponseMemory} (hmode : m.bufferMode = .none)
    (hstate : m.derived.streamState = .body) (hknown : m.derived.bodyType ≠ .knownSize)
    (hchunked : m.derived.bodyType ≠ .chunked) (fragments : List Str) :
    feed m fragments
      = some (List.replicate fragments.length (.returned false), m.swallow fragments.flatten) := by
  induction fragments generalizing m with
  | nil =>
      simp only [swallow, List.flatten_nil, writeBody_nil, ite_self]
      rfl
  | cons data fragments ih =>
      have hcall : answer (m.onData data) = some (.returned false, m.swallow data) := by
        by_cases hdata : data = []
        · simp [hdata, swallow, writeBody_nil, answer]
        · rw [answer_of_handOver hmode hdata, onBufferedData_swallow hstate hknown hchunked]
          rfl
      have hsame : (m.swallow data).bufferMode = m.bufferMode ∧
          (m.swallow data).derived.streamState = m.derived.streamState ∧
          (m.swallow data).derived.bodyType = m.derived.bodyType := by
        rw [swallow]
        split <;> simp
      have hswallow : (m.swallow data).swallow fragments.flatten = m.swallow (data ++ fragments.flatten) := by
        by_cases hbody : m.derived.bodyType = .none
        · simp [swallow, hbody]
        · simp [swallow, hbody, writeBody_append]
      rw [feed, Run.run_cons_of_some hcall, ← feed,
        ih (by rw [hsame.1, hmode]) (by rw [hsame.2.1, hstate]) (by rw [hsame.2.2]; exact hknown)
          (by rw [hsame.2.2]; exact hchunked), hswallow]
      rfl

/-! ### Bodies of known size -/

/-- A message in whose body of known size something is missing. -/
structure Missing (m : IResponseMemory) : Prop where
  mode : m.bufferMode = .none
  state : m.derived.streamState = .body
  type : m.derived.bodyType = .knownSize
  buffer : m.buffer = []
  missing : 0 < m.expectedSize

def part (m : IResponseMemory) (data : Str) : IResponseMemory :=
  { m.writeBody data with expectedSize := m.expectedSize - data.length }

def lastPart (m : IResponseMemory) (data : Str) : IResponseMemory :=
  { (m.writeBody data).setState .finished with expectedSize := 0 }

theorem onBufferedData_part {m : IResponseMemory} (hm : Missing m) {data : Str} (hdata : data ≠ [])
    (hlt : data.length < m.expectedSize) : m.onBufferedData data = .returns false (m.part data) := by
  have hne : ¬ m.expectedSize ≤ data.length := by omega
  rw [onBufferedData, hm.state]
  simp [hm.type, hdata, onBodyData_all, report, part, writeBody, afterBody, finishBody, hm.mode,
    hm.state, hlt.le, Nat.sub_eq_zero_iff_le, hne]

theorem onBufferedData_lastPart {m : IResponseMemory} (hm : Missing m) {data : Str} (hdata : data ≠ [])
    (hle : m.expectedSize ≤ data.length) : m.onBufferedData data = .returns true (m.lastPart data) := by
  have hzero : (if data.length ≤ m.expectedSize then m.expectedSize - data.length else 0) = 0 := by
    split <;> omega
  rw [onBufferedData, hm.state]
  simp [hm.type, hdata, onBodyData_all, report, lastPart, setState, writeBody, afterBody, finishBody,
    hm.mode, hzero]

theorem Missing.part {m : IResponseMemory} (hm : Missing m) {data : Str}
    (hlt : data.length < m.expectedSize) : Missing (m.part data) :=
  ⟨hm.mode, hm.state, hm.type, hm.buffer, Nat.sub_pos_of_lt hlt⟩

theorem part_append (m : IResponseMemory) (data more : Str) :
    (m.part data).part more = m.part (data ++ more) := by
  simp [part, writeBody, Nat.sub_sub]

theorem lastPart_part (m : IResponseMemory) (data more : Str) :
    (m.part data).lastPart more = m.lastPart (data ++ more) := by
  simp [part, lastPart, writeBody, setState]

theorem answer_part {m : IResponseMemory} (hm : Missing m) {data : Str}
    (hlt : data.length < m.expectedSize) :
    answer (m.onData data) = some (.returned false, m.part data) := by
  by_cases hdata : data = []
  · subst hdata
    simp [answer, IResponseMemory.part, writeBody_nil]
  · rw [answer_of_handOver hm.mode hdata, onBufferedData_part hm hdata hlt]
    rfl

theorem feed_part {m : IResponseMemory} (hm : Missing m) {fragments : List Str}
    (hlt : fragments.flatten.length < m.expectedSize) :
    feed m fragments
      = some (List.replicate fragments.length (.returned false), m.part fragments.flatten) := by
  induction fragments generalizing m with
  | nil =>
      simp only [part, List.flatten_nil, writeBody_nil, List.length_nil, Nat.sub_zero]
      rfl
  | cons data fragments ih =>
      rw [List.flatten_cons, List.length_append] at hlt
      have hdata : data.length < m.expectedSize := by omega
      rw [feed, Run.run_cons_of_some (answer_part hm hdata), ← feed,
        ih (hm.part hdata) (by simp only [part]; omega), part_append]
      rfl

/-- **A body of known size** is finished by the fragment in which its last byte comes, and has all that
this fragment carries. -/
theorem feed_lastPart {m : IResponseMemory} (hm : Missing m) (hframed : Framed m)
    {fragments : List Str} (hle : m.expectedSize ≤ fragments.flatten.length) :
    ∃ before fragment later others m₁, fragments = before ++ fragment :: later ∧
      before.flatten.length < m.expectedSize ∧
      m.expectedSize ≤ (before.flatten ++ fragment).length ∧
      feed m fragments = some (List.replicate before.length (.returned false) ++
        .returned true :: others, m₁) ∧
      others.length = later.length ∧
      m₁.derived = (m.lastPart (before.flatten ++ fragment)).derived := by
  induction fragments generalizing m with
  | nil =>
      have := hm.missing
      simp at hle
      omega
  | cons data fragments ih =>
      rw [List.flatten_cons, List.length_append] at hle
      by_cases hdata : data.length < m.expectedSize
      · have hcall := answer_part hm hdata
        obtain ⟨before, fragment, later, others, m₁, rfl, hbefore, hfragment, hfeed, hothers, hderived⟩ :=
          ih (hm.part hdata) (advance_of_answer hframed hcall).framed
            (by simp only [part]; omega)
        refine ⟨data :: before, fragment, later, others, m₁, rfl, ?_, ?_, ?_, hothers, ?_⟩
        · simp only [part] at hbefore
          rw [List.flatten_cons, List.length_append]
          omega
        · simp only [part, List.length_append] at hfragment
          rw [List.flatten_cons, List.length_append, List.length_append]
          omega
        · rw [feed, Run.run_cons_of_some hcall, ← feed, hfeed]
          rfl
        · rw [hderived, lastPart_part, List.flatten_cons, List.append_assoc]
      · have hne : data ≠ [] := by
          rintro rfl
          exact hdata hm.missing
        have hcall : answer (m.onData data) = some (.returned true, m.lastPart data) := by
          rw [answer_of_handOver hm.mode hne, onBufferedData_lastPart hm hne (by omega)]
          rfl
        obtain ⟨others, m₁, hfeed, -, hothers, hderived⟩ :=
          feed_of_finished (advance_of_answer hframed hcall).framed rfl fragments
        refine ⟨[], data, fragments, others, m₁, rfl, hm.missing, by simpa using hdata, ?_, hothers, ?_⟩
        · rw [feed, Run.run_cons_of_some hcall, ← feed, hfeed]
          rfl
        · simpa using hderived

end Rikitiki.IResponseMemory
