import Rikitiki.Library.Run
import Rikitiki.Parsing.Loop

/-!
# The bytes of a reader

A callback that always goes on is given all bytes of all fragments in order, but for those that the buffer still
holds. It may set the buffer mode and the expected size as it likes, by all that it has seen.
-/

namespace Rikitiki.BufferedReader

variable {σ : Type}

/-- What a callback makes of a reader and a block: the fields of the reader that it sets, and its own. -/
structure Answer (σ : Type) where
  expectedSize : Nat
  bufferMode : BufferMode
  derived : σ

/-- An `OnBufferedData` that always returns false. -/
def goesOn (answer : BufferedReader σ → Str → Answer σ) (reader : BufferedReader σ) (data : Str) :
    Outcome (BufferedReader σ) :=
  .returns false { reader with
    expectedSize := (answer reader data).expectedSize
    bufferMode := (answer reader data).bufferMode
    derived := (answer reader data).derived }

/-- A call of `OnData`: its data, the memory behind them, and how many passes it may take. -/
structure DataCall where
  data : Str
  after : Str
  passes : Nat

/-- A call that returns: the blocks that are passed to the callback, and the reader behind the call. -/
def dataCall (answer : BufferedReader σ → Str → Answer σ) (reader : BufferedReader σ) (call : DataCall) :
    Option (List Str × BufferedReader σ) :=
  match onDataLoop (goesOn answer) call.after call.passes reader call.data with
  | .returns _ reader' =>
    some ((onDataCalls (goesOn answer) call.after call.passes reader call.data).map Prod.snd, reader')
  | _ => none

/-- The buffer is only used by lines, and for a length that it does not have yet. -/
def Settled (reader : BufferedReader σ) : Prop :=
  reader.buffer ≠ [] → reader.bufferMode = .newline ∨
    (reader.bufferMode = .length ∧ reader.buffer.length < reader.expectedSize)

variable {answer : BufferedReader σ → Str → Answer σ} {reader last : BufferedReader σ} {after : Str}

theorem settled_of_buffer_nil (h : reader.buffer = []) : Settled reader := fun hne => absurd h hne

theorem Settled.buffer_le (h : Settled reader) (hmode : reader.bufferMode = .length) :
    reader.buffer.length ≤ reader.expectedSize := by
  by_cases hnil : reader.buffer = []
  · simp [hnil]
  rcases h hnil with hnewline | ⟨-, hlt⟩
  · rw [hmode] at hnewline
    cases hnewline
  · exact hlt.le

/-! ### One pass -/

theorem Settled.keep {reader' : BufferedReader σ} {data : Str} (h : Settled reader)
    (hpass : reader.pass data after = .cantProcess reader') :
    (reader'.keep data).buffer = reader.buffer ++ data ∧ Settled (reader'.keep data) := by
  rcases pass_eq_cantProcess hpass with ⟨hmode, hreader⟩ | ⟨hmode, rfl, hlt⟩
  · rw [hreader]
    exact ⟨rfl, fun _ => .inl hmode⟩
  · have hle := h.buffer_le hmode
    rw [sizeSub_of_le hle] at hlt
    refine ⟨rfl, fun _ => .inr ⟨hmode, ?_⟩⟩
    rw [keep_buffer, keep_expectedSize, List.length_append]
    omega

theorem Settled.buffer_of_handOver {data : Str} (h : Settled reader)
    (hpass : reader.pass data after = .handOver) : reader.buffer = [] := by
  by_contra hnil
  have hmode := pass_eq_handOver hpass
  rw [Settled, hmode] at h
  rcases h hnil with hnewline | ⟨hlength, -⟩
  · cases hnewline
  · cases hlength

theorem append_of_deliver {block : BufferedReader σ} {data rest : Str}
    (h : reader.pass data after = .deliver block rest) : block.buffer ++ rest = reader.buffer ++ data := by
  rcases pass_eq_deliver h with ⟨length, -, -, -, rfl, rfl⟩ | ⟨-, -, rfl, rfl⟩
  · rw [List.append_assoc, List.take_append_drop]
  · rw [List.append_assoc, List.take_append_drop]

/-! ### Calls -/

/-- **One call** passes on what was kept and its data, but for what it keeps. -/
theorem Settled.loop {data : Str} {calls : List (BufferedReader σ × Str)} {outcome : Outcome (BufferedReader σ)}
    (h : Settled reader) (hloop : Loop (goesOn answer) after reader data calls outcome) {value : Bool}
    (hreturns : outcome = .returns value last) :
    (calls.map Prod.snd).flatten ++ last.buffer = reader.buffer ++ data ∧ Settled last := by
  induction hloop with
  | idle reader =>
      obtain ⟨-, rfl⟩ := Outcome.returns.inj hreturns
      exact ⟨(List.append_nil _).symm, h⟩
  | cantProcess hdata hpass =>
      obtain ⟨-, rfl⟩ := Outcome.returns.inj hreturns
      exact h.keep hpass
  | handOver hdata hpass =>
      obtain ⟨-, rfl⟩ := Outcome.returns.inj hreturns
      have hnil := h.buffer_of_handOver hpass
      refine ⟨?_, settled_of_buffer_nil hnil⟩
      simp [hnil]
  | finishes hdata hpass hcall => cases hcall
  | fails hdata hpass hcall hfails => exact absurd hreturns (hfails value last)
  | goesOn hdata hpass hcall hrest ih =>
      obtain ⟨hblocks, hlast⟩ := ih (settled_of_buffer_nil rfl) hreturns
      refine ⟨?_, hlast⟩
      rw [clear_buffer, List.nil_append] at hblocks
      rw [List.map_cons, List.flatten_cons, List.append_assoc, hblocks]
      exact append_of_deliver hpass

theorem run_dataCall {calls : List DataCall} {blocks : List (List Str)} (h : Settled reader)
    (hrun : Run.run (dataCall answer) reader calls = some (blocks, last)) :
    blocks.flatten.flatten ++ last.buffer = reader.buffer ++ calls.flatMap DataCall.data ∧ Settled last := by
  induction calls generalizing reader blocks with
  | nil =>
      obtain ⟨rfl, rfl⟩ := Prod.mk.inj (Option.some.inj hrun)
      exact ⟨by simp, h⟩
  | cons call calls ih =>
      obtain ⟨block, others, reader', hcall, hrest, rfl⟩ := Run.run_cons_eq_some.mp hrun
      rw [dataCall] at hcall
      split at hcall
      · rename_i value last' hloop
        obtain ⟨rfl, rfl⟩ := Prod.mk.inj (Option.some.inj hcall)
        have hends : onDataLoop (goesOn answer) call.after call.passes reader call.data ≠ .running := by
          rw [hloop]
          simp
        obtain ⟨hfirst, hsettled⟩ := h.loop (loop_of_ne_running hends) hloop
        obtain ⟨hothers, hlast⟩ := ih hsettled hrest
        refine ⟨?_, hlast⟩
        rw [List.flatten_cons, List.flatten_append, List.append_assoc, hothers, List.flatMap_cons,
          ← List.append_assoc, hfirst, List.append_assoc]
      · cases hcall

/-- **No byte is lost, doubled or moved**: the blocks that are passed on and the buffer are all the data, and
between the calls the buffer is only used by lines and for a length that it does not have. -/
theorem conserved {derived : σ} {calls : List DataCall} {blocks : List (List Str)}
    (hrun : Run.run (dataCall answer) { derived } calls = some (blocks, last)) :
    blocks.flatten.flatten ++ last.buffer = calls.flatMap DataCall.data ∧ Settled last ∧
      (last.bufferMode = .length → last.buffer.length ≤ last.expectedSize) := by
  obtain ⟨hbytes, hlast⟩ := run_dataCall (settled_of_buffer_nil rfl) hrun
  exact ⟨hbytes, hlast, hlast.buffer_le⟩

def lineThenThree (_ : BufferedReader Unit) (_ : Str) : Answer Unit := ⟨3, .length, ()⟩

theorem conserved_lineThenThree :
    [[lit "ab\n", lit "cde"], [lit "fgh"]].flatten.flatten ++ lit "ij"
        = [(⟨lit "ab\ncdef", [nul], 9⟩ : DataCall), ⟨lit "ghij", [nul], 9⟩].flatMap DataCall.data ∧
      Settled (⟨3, .length, lit "ij", ()⟩ : BufferedReader Unit) ∧
      (BufferMode.length = .length → (lit "ij").length ≤ 3) := by
  have hrun : Run.run (dataCall lineThenThree) { derived := () }
      [⟨lit "ab\ncdef", [nul], 9⟩, ⟨lit "ghij", [nul], 9⟩]
        = some ([[lit "ab\n", lit "cde"], [lit "fgh"]], ⟨3, .length, lit "ij", ()⟩) := rfl
  exact conserved hrun

end Rikitiki.BufferedReader
