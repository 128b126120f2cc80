import Rikitiki.Parsing.Loop
import Rikitiki.Incoming.Message

/-!
# The memory behind a fragment

`OnData` is given the length of its data, but it searches for a newline with `strpbrk`, which stops at a NUL
only, and looks at the byte behind the newline it finds. What stands behind the data matters in a pass by lines
whose data are not closed: that have no end of a line, or one with nothing behind it.
-/

namespace Rikitiki.BufferedReader

variable {σ : Type}

/-- Data in which the search of a pass ends: at a NUL, or at a newline character with a byte behind it. -/
def Closed (data : Str) : Prop :=
  ∃ front b back, data = front ++ b :: back ∧ Plain front ∧ (b = nul ∨ (isNewline b = true ∧ back ≠ []))

/-- What is left of a call, whatever stands in memory behind its data, is the same. -/
def Independent (onBufferedData : BufferedReader σ → Str → Outcome (BufferedReader σ)) (fuel : Nat)
    (reader : BufferedReader σ) (data : Str) : Prop :=
  ∀ after after', onDataLoop onBufferedData after fuel reader data
    = onDataLoop onBufferedData after' fuel reader data

/-! ### The end of a line -/

theorem lineLength_of_newline {front : Str} {b : Byte} (hfront : Plain front) (hb : isNewline b = true)
    (rest : Str) :
    lineLength (front ++ b :: rest)
      = some (if (rest.head?).any isNewline then front.length + 2 else front.length + 1) := by
  have hnext : (front ++ b :: rest)[front.length + 1]? = rest.head? := by
    rw [List.getElem?_append_right (by omega), Nat.add_sub_cancel_left, List.getElem?_cons_succ,
      List.head?_eq_getElem?]
  rw [lineLength, strpbrk_plain_append hfront, strpbrk_cons_newline hb]
  simp only [Option.map_some, Nat.add_zero, hnext]

theorem lineLength_of_nul {front : Str} (hfront : Plain front) (rest : Str) :
    lineLength (front ++ nul :: rest) = none := by
  rw [lineLength, strpbrk_plain_append hfront]
  rfl

/-- **The line in closed data** does not depend on what stands behind them. -/
theorem Closed.lineLength_eq {data : Str} (h : Closed data) (after after' : Str) :
    lineLength (data ++ after) = lineLength (data ++ after') := by
  obtain ⟨front, b, back, rfl, hfront, hb⟩ := h
  rw [List.append_assoc, List.append_assoc, List.cons_append, List.cons_append]
  rcases hb with rfl | ⟨hb, hback⟩
  · rw [lineLength_of_nul hfront, lineLength_of_nul hfront]
  · rw [lineLength_of_newline hfront hb, lineLength_of_newline hfront hb, List.head?_append_of_ne_nil _ hback,
      List.head?_append_of_ne_nil _ hback]

theorem plain_or_of_not_closed {data : Str} (h : ¬ Closed data) :
    Plain data ∨ ∃ front b, data = front ++ [b] ∧ Plain front ∧ isNewline b = true := by
  induction data with
  | nil => exact .inl .nil
  | cons c data ih =>
      by_cases hnul : c = nul
      · exact absurd ⟨[], c, data, rfl, .nil, .inl hnul⟩ h
      by_cases hc : isNewline c = true
      · refine .inr ⟨[], c, ?_, .nil, hc⟩
        by_contra hne
        refine h ⟨[], c, data, rfl, .nil, .inr ⟨hc, fun hnil => hne ?_⟩⟩
        rw [hnil, List.nil_append]
      have hplain : ∀ {s : Str}, Plain s → Plain (c :: s) := fun hs =>
        List.forall_mem_cons.mpr ⟨⟨Bool.eq_false_iff.mpr hc, hnul⟩, hs⟩
      have hrest : ¬ Closed data := by
        rintro ⟨front, b, back, rfl, hfront, hb⟩
        exact h ⟨c :: front, b, back, rfl, hplain hfront, hb⟩
      rcases ih hrest with hdata | ⟨front, b, rfl, hfront, hb⟩
      · exact .inl (hplain hdata)
      · exact .inr ⟨c :: front, b, rfl, hplain hfront, hb⟩

/-! ### One pass -/

variable {reader : BufferedReader σ} {data : Str}

theorem pass_eq (h : reader.bufferMode = .newline → Closed data) (after after' : Str) :
    reader.pass data after = reader.pass data after' := by
  rcases reader.bufferMode.eq_or with hmode | hmode | hmode
  · rw [pass_of_length hmode, pass_of_length hmode]
  · simp only [pass, hmode, (h hmode).lineLength_eq after after']
  · rw [pass_of_none hmode, pass_of_none hmode]

theorem pass_of_long_line (hmode : reader.bufferMode = .newline) {after : Str} {length : Nat}
    (hline : lineLength (data ++ after) = some length) (hlong : data.length < length) :
    reader.pass data after = .cantProcess { reader with expectedSize := reader.buffer.length + length } := by
  have hremaining : sizeSub (reader.buffer.length + length) reader.buffer.length = length := by
    rw [sizeSub_of_le (Nat.le_add_right _ _), Nat.add_sub_cancel_left]
  rw [pass_of_line hmode hline, passLength, hremaining]
  exact if_neg (Nat.not_le.mpr hlong)

variable {onBufferedData : BufferedReader σ → Str → Outcome (BufferedReader σ)}

theorem onDataLoop_of_long_line (hmode : reader.bufferMode = .newline) (hdata : data ≠ []) {after : Str}
    {length : Nat} (hline : lineLength (data ++ after) = some length) (hlong : data.length < length) (fuel : Nat) :
    onDataLoop onBufferedData after (fuel + 1) reader data
      = .returns false ({ reader with expectedSize := reader.buffer.length + length } |>.keep data) := by
  simp only [onDataLoop, if_neg hdata, pass_of_long_line hmode hline hlong]

theorem buffer_of_deliver_all {after : Str} {block last : BufferedReader σ} (hdata : data ≠ [])
    (hpass : reader.pass data after = .deliver block []) {fuel : Nat}
    (hloop : onDataLoop onBufferedData after (fuel + 1) reader data = .returns false last) : last.buffer = [] := by
  simp only [onDataLoop, if_neg hdata, hpass] at hloop
  split at hloop
  · cases hloop
  · cases fuel with
    | zero => cases hloop
    | succ fuel =>
        simp only [onDataLoop, if_true] at hloop
        cases hloop
        rfl
  · rename_i hcall hfalse
    exact absurd hloop (hfalse last)

theorem pass_of_whole_line (hmode : reader.bufferMode = .newline) {after : Str}
    (hline : lineLength (data ++ after) = some data.length) :
    reader.pass data after = .deliver { reader with
      expectedSize := reader.buffer.length + data.length
      buffer := reader.buffer ++ data } [] := by
  have hremaining : sizeSub (reader.buffer.length + data.length) reader.buffer.length = data.length := by
    rw [sizeSub_of_le (Nat.le_add_right _ _), Nat.add_sub_cancel_left]
  rw [pass_of_line hmode hline, passLength, hremaining]
  simp only [Nat.le_refl, if_true, List.take_length, List.drop_length]

/-- **A pass by lines over data that are not closed** depends on what stands behind them. -/
theorem not_independent (hmode : reader.bufferMode = .newline) (hdata : data ≠ []) (hopen : ¬ Closed data)
    (fuel : Nat) : ¬ Independent onBufferedData (fuel + 1) reader data := by
  intro h
  rcases plain_or_of_not_closed hopen with hplain | ⟨front, b, rfl, hfront, hb⟩
  · -- one or two newline characters behind the data give two expected sizes
    have hone : lineLength (data ++ [lf, nul]) = some (data.length + 1) :=
      lineLength_of_newline hplain (by decide) [nul]
    have htwo : lineLength (data ++ [lf, lf]) = some (data.length + 2) :=
      lineLength_of_newline hplain (by decide) [lf]
    have hsame := h [lf, nul] [lf, lf]
    rw [onDataLoop_of_long_line hmode hdata hone (by omega), onDataLoop_of_long_line hmode hdata htwo (by omega)]
      at hsame
    have hsize := congrArg BufferedReader.expectedSize (Outcome.returns.inj hsame).2
    simp only [keep_expectedSize] at hsize
    omega
  · -- a newline character behind the data makes the line too long to be delivered
    have hlong : lineLength ((front ++ [b]) ++ [lf]) = some (front.length + 2) := by
      rw [List.append_assoc]
      exact lineLength_of_newline hfront hb [lf]
    have hwhole : lineLength ((front ++ [b]) ++ [nul]) = some (front ++ [b]).length := by
      rw [List.append_assoc, List.length_append]
      exact lineLength_of_newline hfront hb [nul]
    have hsame := h [nul] [lf]
    rw [onDataLoop_of_long_line hmode hdata hlong (by simp)] at hsame
    have hbuffer := buffer_of_deliver_all hdata (pass_of_whole_line hmode hwhole) hsame
    simp at hbuffer

/-! ### All passes -/

/-- **A call depends only on its data** exactly if in each of its passes by lines they are closed. -/
theorem independent_iff (onBufferedData : BufferedReader σ → Str → Outcome (BufferedReader σ)) (fuel : Nat)
    (reader : BufferedReader σ) (data : Str) :
    Independent onBufferedData fuel reader data ↔
      ∀ pass ∈ onDataPasses onBufferedData [nul] fuel reader data,
        pass.1.bufferMode = .newline → Closed pass.2 := by
  induction fuel generalizing reader data with
  | zero => simp [Independent, onDataLoop, onDataPasses]
  | succ fuel ih =>
      by_cases hdata : data = []
      · simp [Independent, onDataLoop, onDataPasses, hdata]
      by_cases hclosed : reader.bufferMode = .newline → Closed data
      · -- the passes behind this one decide
        have hpass : ∀ after, reader.pass data after = reader.pass data [nul] := fun after =>
          pass_eq hclosed after [nul]
        simp only [Independent, onDataLoop, onDataPasses, if_neg hdata, hpass, List.forall_mem_cons]
        rw [and_iff_right hclosed]
        cases hcase : reader.pass data [nul] with
        | cantProcess reader' => simp
        | handOver => simp
        | deliver block rest =>
            cases hcall : onBufferedData block block.buffer with
            | returns value next =>
                cases value with
                | true => simp [hcall]
                | false =>
                    simp only [hcall]
                    exact ih next.clear rest
            | throws error next => simp [hcall]
            | undefined => simp [hcall]
            | running => simp [hcall]
      · rw [Classical.not_imp] at hclosed
        constructor
        · intro h
          exact absurd h (not_independent hclosed.1 hdata hclosed.2 fuel)
        · intro h
          rw [onDataPasses, if_neg hdata, List.forall_mem_cons] at h
          exact absurd (h.1 hclosed.1) hclosed.2

/-- A start line whose CR comes in without its LF. -/
theorem not_forall_independent :
    ¬ ∀ (m : IResponseMemory) (data : Str),
      Independent IResponseMemory.onBufferedData (IResponseMemory.fuel data) m data := by
  intro h
  have hopen : ¬ Closed (lit "HTTP/1.1 200 OK\r") := by
    intro hclosed
    exact absurd (hclosed.lineLength_eq [nul] [lf]) (by decide)
  exact not_independent rfl (by decide) hopen _ (h .fresh (lit "HTTP/1.1 200 OK\r"))

end Rikitiki.BufferedReader
