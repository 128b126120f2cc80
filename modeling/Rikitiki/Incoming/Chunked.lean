import Rikitiki.Incoming.Head

/-!
# Chunked bodies

The line splitter sets the expected size for every line, so the value that stands for a chunk size to
come is gone when the next line of a chunked body is looked at: every line of it is taken for a chunk,
the size lines too. The body then holds what no decoding yields: it never has a newline character, and
with chunks free of those it is longer than they are.
-/

namespace Rikitiki

def chunkBytes (chunk : Str) : Str := hexadecimal chunk.length ++ (crlf ++ (chunk ++ crlf))

def chunkedBytes (chunks : List Str) : Str :=
  (chunks.map chunkBytes).flatten ++ (lit "0" ++ (crlf ++ crlf))

theorem chunkedBytes_cons (chunk : Str) (chunks : List Str) :
    chunkedBytes (chunk :: chunks)
      = hexadecimal chunk.length ++ (crlf ++ (chunk ++ (crlf ++ chunkedBytes chunks))) := by
  simp [chunkedBytes, chunkBytes]

def NewlineFree (s : Str) : Prop := ∀ b ∈ s, isNewline b = false

theorem newlineFree_append {s t : Str} : NewlineFree (s ++ t) ↔ NewlineFree s ∧ NewlineFree t := by
  simp only [NewlineFree, List.mem_append]
  exact ⟨fun h => ⟨fun b hb => h b (.inl hb), fun b hb => h b (.inr hb)⟩,
    fun h b hb => hb.elim (h.1 b) (h.2 b)⟩

theorem NewlineFree.take {s : Str} (h : NewlineFree s) (n : Nat) : NewlineFree (s.take n) :=
  fun b hb => h b (List.mem_of_mem_take hb)

theorem strpbrk_of_nul {line : Str} (hline : NewlineFree line) (hnul : nul ∈ line) (rest : Str) :
    strpbrk (line ++ rest) = none := by
  induction line with
  | nil => cases hnul
  | cons b line ih =>
      rw [List.cons_append, strpbrk]
      split
      · rfl
      · rename_i hb
        have hmem : nul ∈ line := by
          rcases List.mem_cons.mp hnul with h | h
          · exact absurd h.symm hb
          · exact h
        rw [if_neg (by simp [hline b (by simp)]), ih (fun c hc => hline c (by simp [hc])) hmem]
        rfl

namespace IResponseMemory

structure Chunking (m : IResponseMemory) : Prop where
  mode : m.bufferMode = .newline
  state : m.derived.streamState = .body
  type : m.derived.bodyType = .chunked

theorem Chunking.framed {m : IResponseMemory} (h : Chunking m) : Framed m := .of_newline h.mode

theorem onBufferedData_chunk_line {m : IResponseMemory} (hm : Chunking m) {line : Str}
    (hsize : line.length + 2 < npos) :
    (m.withLine line).onBufferedData (line ++ crlf)
      = .returns (decide (line.length = 0))
          (((m.withLine line).writeBody line).afterChunk line.length) := by
  have hexpected : (m.withLine line).expectedSize ≠ npos := by
    simp only [withLine]
    omega
  have hrelevant : sizeSub (m.withLine line).expectedSize 2 = line.length := by
    simp only [withLine]
    rw [sizeSub_of_le (by omega), Nat.add_sub_cancel]
  have hstate : (m.withLine line).derived.streamState = .body := hm.state
  have htype : (m.withLine line).derived.bodyType = .chunked := hm.type
  rw [onBufferedData, hstate]
  simp only [htype, if_neg hexpected, hrelevant, onBodyData, List.length_append,
    Nat.le_add_right, if_true, List.take_left, report, afterChunk_derived_streamState,
    writeBody_derived_streamState, hstate]
  split <;> simp_all

theorem onData_chunk_line {m : IResponseMemory} (hm : Chunking m) (hbuffer : m.buffer = []) {line : Str}
    (hline : Plain line) (hne : line ≠ []) (hsize : line.length + 2 < npos) (rest : Str) :
    ∃ next, m.onData (line ++ (crlf ++ rest)) = next.onData rest ∧ Chunking next ∧
      next.buffer = [] ∧ next.derived.body = m.derived.body ++ line := by
  have hlength : line.length ≠ 0 := fun h => hne (List.eq_nil_of_length_eq_zero h)
  have hcall := onBufferedData_chunk_line hm hsize
  rw [decide_eq_false hlength] at hcall
  have hstep : LineStep [] (m, line ++ (crlf ++ rest))
      ((((m.withLine line).writeBody line).afterChunk line.length).clear, rest) :=
    .intro hm.mode hbuffer hline (by simp) hcall
  refine ⟨_, (onData_of_path (.single hstep) hm.framed).1, ⟨rfl, ?_, hm.type⟩, rfl, rfl⟩
  exact (if_neg hlength).trans hm.state

theorem onData_empty_chunk_line {m : IResponseMemory} (hm : Chunking m) (hbuffer : m.buffer = [])
    (rest : Str) :
    ∃ next, m.onData ([] ++ (crlf ++ rest)) = .returns true next ∧
      next.derived.body = m.derived.body := by
  have hcall := onBufferedData_chunk_line hm (show ([] : Str).length + 2 < npos by decide)
  refine ⟨_, onData_of_finishes (by simp [crlf]) (pass_line hm.mode hbuffer .nil rest) hcall, ?_⟩
  simp [withLine]

theorem onData_nul_line {m : IResponseMemory} (hm : Chunking m) {line : Str} (hline : NewlineFree line)
    (hnul : nul ∈ line) (rest : Str) :
    ∃ next, m.onData (line ++ rest) = .returns false next := by
  have hsearch : BufferedReader.lineLength (line ++ rest ++ [nul]) = none := by
    rw [BufferedReader.lineLength, List.append_assoc, strpbrk_of_nul hline hnul]
    rfl
  have hne : line ++ rest ≠ [] := by
    rintro h
    rw [(List.append_eq_nil_iff.mp h).1] at hnul
    cases hnul
  exact ⟨_, onData_of_cantProcess hne (BufferedReader.pass_of_no_line hm.mode hsearch)⟩

/-- **Chunks without newline characters** leave a body that is longer than they are, if the call answers
`true` at all. -/
theorem length_lt_of_newlineFree {m m' : IResponseMemory} {chunks : List Str} (hm : Chunking m)
    (hbuffer : m.buffer = []) (hchunks : ∀ chunk ∈ chunks, chunk ≠ [] ∧ NewlineFree chunk)
    (hsize : (chunkedBytes chunks).length < npos)
    (hcall : m.onData (chunkedBytes chunks) = .returns true m') :
    m.derived.body.length + chunks.flatten.length < m'.derived.body.length := by
  induction chunks generalizing m with
  | nil =>
      obtain ⟨m₁, hzero, hm₁, hbuffer₁, hbody₁⟩ := onData_chunk_line hm hbuffer
        (show Plain (lit "0") by decide) (by decide) (by decide) crlf
      obtain ⟨m₂, hlast, hbody₂⟩ := onData_empty_chunk_line hm₁ hbuffer₁ []
      rw [chunkedBytes, List.map_nil, List.flatten_nil, List.nil_append, hzero] at hcall
      rw [List.nil_append, List.append_nil, hcall] at hlast
      obtain ⟨-, rfl⟩ := Outcome.returns.inj hlast
      rw [hbody₂, hbody₁, List.length_append, List.flatten_nil]
      simp [lit]
  | cons chunk chunks ih =>
      obtain ⟨hne, hfree⟩ := hchunks chunk (by simp)
      rw [chunkedBytes_cons] at hcall hsize
      simp only [List.length_append, show crlf.length = 2 from rfl] at hsize
      obtain ⟨m₁, hhex, hm₁, hbuffer₁, hbody₁⟩ := onData_chunk_line hm hbuffer
        (plain_hexadecimal chunk.length) (Numeral.numeral_ne_nil 16 _) (by omega)
        (chunk ++ (crlf ++ chunkedBytes chunks))
      rw [hhex] at hcall
      by_cases hnul : nul ∈ chunk
      · obtain ⟨_, hfalse⟩ := onData_nul_line hm₁ hfree hnul (crlf ++ chunkedBytes chunks)
        rw [hcall] at hfalse
        cases hfalse
      · have hplain : Plain chunk := fun b hb => ⟨hfree b hb, fun h => hnul (h ▸ hb)⟩
        obtain ⟨m₂, hdata, hm₂, hbuffer₂, hbody₂⟩ := onData_chunk_line hm₁ hbuffer₁ hplain hne (by omega)
          (chunkedBytes chunks)
        rw [hdata] at hcall
        have hrest := ih hm₂ hbuffer₂ (fun c hc => hchunks c (by simp [hc])) (by omega) hcall
        rw [hbody₂, hbody₁] at hrest
        simp only [List.length_append, List.flatten_cons] at hrest ⊢
        omega

theorem newlineFree_line {carried data : Str} {length size : Nat} (hcarried : NewlineFree carried)
    (hline : BufferedReader.lineLength (data ++ [nul]) = some length)
    (hsize : size + 2 ≤ carried.length + length) :
    NewlineFree ((carried ++ data.take length).take size) := by
  have hle := (lineLength_nul hline).2
  obtain ⟨pos, hpos, hlength⟩ := Option.map_eq_some_iff.mp hline
  obtain ⟨b, t, -, -, hplain, -⟩ := strpbrk_eq_some hpos
  have hlt : length ≤ pos + 2 := by split at hlength <;> omega
  have hpos' : pos < data.length := by split at hlength <;> omega
  rw [List.take_append_of_le_length (by omega)] at hplain
  rw [List.take_append, newlineFree_append]
  refine ⟨hcarried.take size, ?_⟩
  have hfront : (data.take length).take (size - carried.length)
      = (data.take pos).take (size - carried.length) := by
    rw [List.take_take, List.take_take, Nat.min_eq_left (by omega), Nat.min_eq_left (by omega)]
  rw [hfront]
  exact NewlineFree.take (fun b hb => (hplain b hb).1) _

theorem Chunking.block {m block next : IResponseMemory} {data rest : Str} {value : Bool}
    (hm : Chunking m) (hbuffer : NewlineFree m.buffer) (hbody : NewlineFree m.derived.body)
    (hsize : m.buffer.length + data.length < npos) (hpass : m.pass data [nul] = .deliver block rest)
    (hcall : block.onBufferedData block.buffer = .returns value next) :
    NewlineFree next.derived.body ∧ rest.length ≤ data.length ∧
      (value = false → Chunking next.clear) := by
  rcases BufferedReader.pass_eq_deliver hpass with
    ⟨length, hmode, hline, hle, rfl, rfl⟩ | ⟨hlength, -⟩
  · obtain ⟨htransition, hvalue⟩ := transition_of_returns hcall
    have hstate := hm.state
    have htype := hm.type
    cases htransition with
    | chunkSize _ _ hexpected =>
        simp only at hexpected
        omega
    | chunk _ _ _ hfits =>
        have htwo : 2 ≤ m.buffer.length + length := by
          by_contra hlt
          simp only [sizeSub, if_neg hlt, List.length_append, List.length_take,
            Nat.min_eq_left hle] at hfits
          omega
        refine ⟨?_, by simp, fun hfalse => ⟨rfl, ?_, htype⟩⟩
        · simp only [afterChunk_derived_body, writeBody_derived_body, newlineFree_append,
            sizeSub_of_le htwo]
          exact ⟨hbody, newlineFree_line hbuffer hline (by omega)⟩
        · rw [hfalse] at hvalue
          have hgoes := of_decide_eq_false hvalue.symm
          simp only [BufferedReader.clear_derived, afterChunk_derived_streamState] at hgoes ⊢
          split
          · rename_i hzero
            exact absurd (if_pos hzero) hgoes
          · exact hstate
    | _ => simp_all
  · rw [hm.mode] at hlength
    cases hlength

/-- **A chunked body never holds a newline character.** -/
theorem Loop.newlineFree {m m' : IResponseMemory} {data : Str} {calls : List (IResponseMemory × Str)}
    {outcome : Outcome IResponseMemory} {value : Bool}
    (h : BufferedReader.Loop onBufferedData [nul] m data calls outcome) (hm : Chunking m)
    (hbuffer : NewlineFree m.buffer) (hbody : NewlineFree m.derived.body)
    (hsize : m.buffer.length + data.length < npos) (houtcome : outcome = .returns value m') :
    NewlineFree m'.derived.body := by
  induction h with
  | idle reader =>
      obtain ⟨-, rfl⟩ := Outcome.returns.inj houtcome
      exact hbody
  | cantProcess hdata hpass =>
      obtain ⟨-, rfl⟩ := Outcome.returns.inj houtcome
      rcases BufferedReader.pass_eq_cantProcess hpass with ⟨-, hreader⟩ | ⟨-, rfl, -⟩
      · rw [hreader]
        exact hbody
      · exact hbody
  | handOver hdata hpass =>
      have hnone := BufferedReader.pass_eq_handOver hpass
      rw [hm.mode] at hnone
      cases hnone
  | finishes hdata hpass hcall =>
      obtain ⟨-, rfl⟩ := Outcome.returns.inj houtcome
      exact (hm.block hbuffer hbody hsize hpass hcall).1
  | fails hdata hpass hcall hfails => exact absurd houtcome (hfails value m')
  | goesOn hdata hpass hcall hrest ih =>
      obtain ⟨hfree, hle, hnext⟩ := hm.block hbuffer hbody hsize hpass hcall
      refine ih (hnext rfl) (fun b hb => by cases hb) hfree ?_ houtcome
      rw [BufferedReader.clear_buffer, List.length_nil]
      omega

/-- One call on a response with a chunked body finishes it, answers `true`, and leaves the chunks. -/
def DecodesChunks (head : ResponseHead) (chunks : List Str) : Prop :=
  ∃ m, fresh.onData (head.bytes ++ chunkedBytes chunks) = .returns true m ∧
    m.derived.streamState = .finished ∧ m.derived.body = chunks.flatten

/-- **No chunked body is decoded**, whatever the chunks are. -/
theorem not_decodesChunks {head : ResponseHead} {chunks : List Str}
    (hencoding : transferEncoding head.headers = .chunked)
    (hlength : head.headers.get (lit "Content-Length") = none)
    (hchunks : ∀ chunk ∈ chunks, chunk ≠ [])
    (hsize : (head.bytes ++ chunkedBytes chunks).length < 2 ^ 64) : ¬ DecodesChunks head chunks := by
  rintro ⟨m, hcall, -, hbody⟩
  have hnpos : contentLength head.headers = npos := by simp [contentLength, hlength]
  have hbound : (chunkedBytes chunks).length < npos := by
    simp only [ResponseHead.bytes, List.length_append, show crlf.length = 2 from rfl] at hsize
    rw [npos]
    omega
  cases hstatus : setStartline (head.startLine ++ crlf) with
  | none =>
      rw [onData_bad_start hstatus] at hcall
      cases hcall
  | some status =>
      obtain ⟨hhead, hframed⟩ := onData_head hstatus (by rw [hnpos]; decide) (chunkedBytes chunks)
      rw [hhead] at hcall
      have hm : Chunking (afterHead status head.headers) := by
        constructor
        · simp [afterHead, inHeaders, hencoding]
        · simp [afterHead, inHeaders, hnpos, npos]
        · simp [afterHead, inHeaders, BodyType.from_eq_chunked, hnpos, hencoding]
      have hfree : NewlineFree m.derived.body :=
        Loop.newlineFree (loop_onData hframed _) hm (fun b hb => by cases hb) (fun b hb => by cases hb)
          (by simpa [afterHead] using hbound) hcall
      have hchunksFree : ∀ chunk ∈ chunks, chunk ≠ [] ∧ NewlineFree chunk := by
        intro chunk hchunk
        refine ⟨hchunks chunk hchunk, fun b hb => hfree b ?_⟩
        rw [hbody]
        exact List.mem_flatten.mpr ⟨chunk, hchunk, hb⟩
      have hlt := length_lt_of_newlineFree hm rfl hchunksFree hbound hcall
      rw [hbody] at hlt
      omega

def chunkedHead : ResponseHead where
  startLine := lit "HTTP/1.1 200 OK"
  lines := [lit "Transfer-Encoding: chunked"]
  startLine_plain := plain_ok
  lines_plain := by decide

theorem not_decodesChunks_hello : ¬ DecodesChunks chunkedHead [lit "hello"] :=
  not_decodesChunks (by decide) (by decide) (by decide) (by decide)

/-- The size lines of a chunked body come to stand in it. -/
theorem not_forall_decodesChunks :
    ¬ ∀ (head : ResponseHead) (chunks : List Str), transferEncoding head.headers = .chunked →
      head.headers.get (lit "Content-Length") = none → (∀ chunk ∈ chunks, chunk ≠ []) →
      DecodesChunks head chunks := by
  intro h
  obtain ⟨m, hcall, -, hm⟩ := h chunkedHead [lit "hello"] (by decide) (by decide) (by decide)
  have hbody : (answer (fresh.onData (chunkedHead.bytes ++ chunkedBytes [lit "hello"]))).map
      (fun run => run.2.derived.body) = some (lit "5hello0") := by decide
  rw [hcall] at hbody
  exact absurd (hm.symm.trans (Option.some.inj hbody)) (by decide)

end IResponseMemory

end Rikitiki
