import Rikitiki.Incoming.Run

/-!
# The body writes

Whether `OnBodyData` and `OnChunkedData` stay inside the block they are called for. Only a chunked body
takes the size from a field, less the two characters of a line end; the field is the length of the block,
so what matters is whether the block has two characters to take off.
-/

namespace Rikitiki.IResponseMemory

open BufferedReader (Loop)

/-- A call of `OnBufferedData` as the loop makes it: the mode means what it should, and the expected
size is the length of the block unless everything is handed on. -/
structure Sized (m : IResponseMemory) (data : Str) : Prop where
  moded : Moded m
  expectedSize : m.bufferMode ≠ .none → m.expectedSize = data.length

theorem Loop.sized {m : IResponseMemory} {data : Str} {calls : List (IResponseMemory × Str)}
    {outcome : Outcome IResponseMemory} (h : Loop onBufferedData [nul] m data calls outcome)
    (hm : Framed m) : ∀ call ∈ calls, Sized call.1 call.2 := by
  have hdelivered : ∀ {m block : IResponseMemory} {data rest : Str}, Framed m →
      m.pass data [nul] = .deliver block rest → Sized block block.buffer := by
    intro m block data rest hm hpass
    obtain ⟨hexpected, -⟩ := expectedSize_of_deliver hm hpass
    exact ⟨hm.block_moded hpass, fun _ => hexpected⟩
  induction h with
  | idle reader => simp
  | cantProcess hdata hpass => simp
  | handOver hdata hpass =>
      intro call hcall
      rw [List.mem_singleton.mp hcall]
      exact ⟨hm.moded, fun hmode => absurd (BufferedReader.pass_eq_handOver hpass) hmode⟩
  | finishes hdata hpass hcall =>
      intro call hmem
      rw [List.mem_singleton.mp hmem]
      exact hdelivered hm hpass
  | fails hdata hpass hcall hfails =>
      intro call hmem
      rw [List.mem_singleton.mp hmem]
      exact hdelivered hm hpass
  | goesOn hdata hpass hcall hrest ih =>
      intro call hmem
      rcases List.mem_cons.mp hmem with rfl | hmem
      · exact hdelivered hm hpass
      · exact ih ((transition_of_returns hcall).1.moded (hm.block_moded hpass)).clear call hmem

theorem sized_of_mem_feedCalls {m : IResponseMemory} {fragments : List Str} (hm : Framed m) :
    ∀ call ∈ feedCalls m fragments, Sized call.1 call.2 := by
  induction fragments generalizing m with
  | nil => simp [feedCalls]
  | cons fragment fragments ih =>
      intro call hcall
      rw [feedCalls] at hcall
      rcases List.mem_append.mp hcall with hcall | hcall
      · exact Loop.sized (loop_onData hm fragment) hm call hcall
      · cases hanswer : answer (m.onData fragment) with
        | none => simp [hanswer] at hcall
        | some next =>
            rw [hanswer] at hcall
            exact ih (advance_of_answer hm hanswer).framed call hcall

/-- The body writes of a call stay inside its block. -/
def Inside (m : IResponseMemory) (data : Str) : Prop :=
  ∀ write ∈ bodyCalls m data, write.1 + write.2 ≤ data.length

instance (m : IResponseMemory) (data : Str) : Decidable (Inside m data) :=
  inferInstanceAs (Decidable (∀ write ∈ bodyCalls m data, _))

/-- A block of a chunked body, not a chunk size, that is shorter than a line end of two characters. -/
def ShortLine (m : IResponseMemory) (data : Str) : Prop :=
  m.derived.streamState = .body ∧ m.derived.bodyType = .chunked ∧ m.expectedSize ≠ npos ∧
    data.length < 2

theorem bodyCalls_of_chunked {m : IResponseMemory} (hstate : m.derived.streamState = .body)
    (hbody : m.derived.bodyType = .chunked) (hexpected : m.expectedSize ≠ npos) (data : Str) :
    m.bodyCalls data = [(0, sizeSub m.expectedSize 2)] := by
  simp [bodyCalls, hstate, hbody, hexpected]

theorem eq_of_mem_bodyCalls {m : IResponseMemory} {data : Str} {write : Nat × Nat}
    (hother : ¬ (m.derived.streamState = .body ∧ m.derived.bodyType = .chunked ∧ m.expectedSize ≠ npos))
    (hwrite : write ∈ m.bodyCalls data) : write = (0, data.length) := by
  rw [bodyCalls] at hwrite
  split at hwrite
  · rename_i hstate hbody
    split at hwrite
    · cases hwrite
    · rename_i hexpected
      exact absurd ⟨hstate, hbody, hexpected⟩ hother
  · split at hwrite
    · cases hwrite
    · exact List.mem_singleton.mp hwrite
  · exact List.mem_singleton.mp hwrite
  · exact List.mem_singleton.mp hwrite
  · cases hwrite

theorem inside_iff {m : IResponseMemory} {data : Str} (h : Sized m data) :
    Inside m data ↔ ¬ ShortLine m data := by
  by_cases hchunked : m.derived.streamState = .body ∧ m.derived.bodyType = .chunked ∧
      m.expectedSize ≠ npos
  · obtain ⟨hstate, hbody, hexpected⟩ := hchunked
    have hsize := h.expectedSize (h.moded.mode_of_chunked hstate hbody)
    have hshort : ShortLine m data ↔ data.length < 2 := by simp [ShortLine, hstate, hbody, hexpected]
    have hinside : Inside m data ↔ sizeSub data.length 2 ≤ data.length := by
      simp [Inside, bodyCalls_of_chunked hstate hbody hexpected, hsize]
    rw [hshort, hinside, sizeSub]
    split <;> omega
  · constructor
    · exact fun _ hshort => hchunked ⟨hshort.1, hshort.2.1, hshort.2.2.1⟩
    · intro _ write hwrite
      rw [eq_of_mem_bodyCalls hchunked hwrite, Nat.zero_add]

/-- **Body writes stay inside the received block** in a run exactly when no line of a chunked body is
shorter than two characters, that is, ends in a single newline character and is empty otherwise. -/
theorem body_calls_inside_iff (fragments : List Str) :
    (∀ call ∈ feedCalls fresh fragments, Inside call.1 call.2) ↔
      ∀ call ∈ feedCalls fresh fragments, ¬ ShortLine call.1 call.2 :=
  forall₂_congr fun call hcall => inside_iff (sized_of_mem_feedCalls framed_fresh call hcall)

/-- An empty line ending in a single newline character makes a write of `2 ^ 64 - 1` bytes. -/
theorem not_inside_of_newline :
    ¬ ∀ fragments, ∀ call ∈ feedCalls fresh fragments, Inside call.1 call.2 := by
  intro h
  have hinside := h [lit "HTTP/1.1 200 OK\r\nTransfer-Encoding: chunked\r\n\r\n", lit "\n"]
  revert hinside
  decide

end Rikitiki.IResponseMemory
