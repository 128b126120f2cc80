import Rikitiki.Incoming.HandOver

/-!
# Fragments of a stream

A clean cutting is read like the stream itself. What a fragment leaves over is carried as a block that is
not complete yet (`Carried`), the next fragment is searched as if the carried bytes stood in front of it
(`pass_spec`), and the first block of the stream is delivered by the fragment it ends in
(`feed_first_block`). `ends_of_reads` follows the derivation of the reading block by block.
-/

namespace Rikitiki

theorem lineEnd_eq_none {stream : Str} : lineEnd stream = none ↔ stream.findIdx? isNewline = none := by
  rw [lineEnd, Option.map_eq_none_iff]

theorem findIdx_append {carried data : Str} (hcarried : carried.findIdx? isNewline = none) :
    (carried ++ data).findIdx? isNewline = (data.findIdx? isNewline).map (carried.length + ·) := by
  rw [List.findIdx?_append, hcarried, Option.none_or]
  simp only [Nat.add_comm]

theorem lineEnd_append {carried data : Str} {pos : Nat} (hcarried : carried.findIdx? isNewline = none)
    (hpos : data.findIdx? isNewline = some pos) :
    lineEnd (carried ++ data)
      = some (carried.length + if (data[pos + 1]?).any isNewline then pos + 2 else pos + 1) := by
  have hget : (carried ++ data)[carried.length + pos + 1]? = data[pos + 1]? := by
    rw [Nat.add_assoc, List.getElem?_append_right (by omega), Nat.add_sub_cancel_left]
  rw [lineEnd, findIdx_append hcarried, hpos, Option.map_some, Option.map_some, hget]
  split <;> rfl

theorem take_carried (carried more : Str) {data : Str} {k : Nat} (hk : k ≤ data.length) :
    (carried ++ (data ++ more)).take (carried.length + k) = carried ++ data.take k := by
  rw [List.take_length_add_append, List.take_append_of_le_length hk]

theorem drop_carried (carried more : Str) {data : Str} {k : Nat} (hk : k ≤ data.length) :
    (carried ++ (data ++ more)).drop (carried.length + k) = data.drop k ++ more := by
  rw [List.drop_length_add_append, List.drop_append_of_le_length hk]

namespace IResponseMemory

/-- What is carried over is not a whole block. -/
def Carried (m : IResponseMemory) : Prop := nextBlock m.clear m.buffer = none

theorem carried_of_buffer_nil {m : IResponseMemory} (h : m.buffer = []) : Carried m := by
  rw [Carried, h, nextBlock]
  split <;> simp [lineEnd]

theorem carried_of_newline {m : IResponseMemory} (hmode : m.bufferMode = .newline) :
    Carried m ↔ m.buffer.findIdx? isNewline = none := by
  rw [Carried, nextBlock]
  simp only [BufferedReader.clear_bufferMode, hmode, Option.map_eq_none_iff]
  exact lineEnd_eq_none

theorem carried_of_length {m : IResponseMemory} (hmode : m.bufferMode = .length) :
    Carried m ↔ m.buffer.length < m.expectedSize ∨ m.buffer = [] := by
  rw [Carried, nextBlock]
  simp only [BufferedReader.clear_bufferMode, BufferedReader.clear_expectedSize, hmode]
  split
  · rename_i h
    simp only [reduceCtorEq, false_iff, not_or, not_lt]
    exact h
  · rename_i h
    simp only [true_iff]
    by_contra hnot
    rw [not_or, not_lt] at hnot
    exact h hnot

/-- A newline character of a clean fragment is found: no NUL stands in front of it. -/
theorem findIdx_of_no_line {m : IResponseMemory} {boundaries : List Nat} {data : Str}
    {fragments : List Str} (hmode : m.bufferMode = .newline)
    (hcarried : m.buffer.findIdx? isNewline = none)
    (hclean : CleanBlock boundaries m.clear (m.buffer ++ (data ++ fragments.flatten)))
    (hmarks : Cuts.Marks boundaries (data :: fragments))
    (hline : BufferedReader.lineLength (data ++ [nul]) = none) : data.findIdx? isNewline = none := by
  by_contra hsome
  obtain ⟨pos, hpos⟩ := Option.ne_none_iff_exists'.mp hsome
  have hlt := (List.findIdx?_eq_some_iff_getElem.mp hpos).1
  have hpos' : (data ++ [nul]).findIdx? isNewline = some pos := by
    rw [List.findIdx?_append, hpos]
    rfl
  obtain ⟨q, hq, hnul⟩ := exists_nul_of_strpbrk (Option.map_eq_none_iff.mp hline) hpos'
  have hstream : (m.buffer ++ (data ++ fragments.flatten)).findIdx? isNewline
      = some (m.buffer.length + pos) := by
    rw [findIdx_append hcarried, List.findIdx?_append, hpos]
    rfl
  have hget : (m.buffer ++ (data ++ fragments.flatten))[m.buffer.length + q]? = some nul := by
    rw [List.getElem?_append_right (by omega), Nat.add_sub_cancel_left,
      List.getElem?_append_left (by omega), ← hnul, List.getElem?_append_left (by omega)]
  obtain ⟨l, hmem, hge, hl⟩ := hclean.visible hmode _ hstream _ (by omega) hget
  simp only [List.length_append] at hge hl
  exact hmarks.notMem (by omega) (by rw [List.length_append]; omega) hmem

theorem lineEnd_of_line {m : IResponseMemory} {boundaries : List Nat} {data : Str}
    {fragments : List Str} {length : Nat} (hmode : m.bufferMode = .newline)
    (hcarried : m.buffer.findIdx? isNewline = none) (hdata : data ≠ [])
    (hclean : CleanBlock boundaries m.clear (m.buffer ++ (data ++ fragments.flatten)))
    (hmarks : Cuts.Marks boundaries (data :: fragments))
    (hline : BufferedReader.lineLength (data ++ [nul]) = some length) :
    lineEnd (m.buffer ++ (data ++ fragments.flatten)) = some (m.buffer.length + length) := by
  obtain ⟨pos, hpos, hlength⟩ := Option.map_eq_some_iff.mp hline
  have hfound := findIdx_of_strpbrk hpos
  have hlt : pos < data.length := by
    have hle := (lineLength_nul hline).2
    split at hlength <;> omega
  have hdataPos : data.findIdx? isNewline = some pos := by
    rw [List.findIdx?_append] at hfound
    cases hnone : data.findIdx? isNewline with
    | none =>
        rw [hnone, Option.none_or] at hfound
        cases hfound
    | some i =>
        rw [hnone, Option.some_or] at hfound
        exact hfound
  have hstreamPos : (data ++ fragments.flatten).findIdx? isNewline = some pos := by
    rw [List.findIdx?_append, hdataPos]
    rfl
  have hnext : ((data ++ fragments.flatten)[pos + 1]?).any isNewline
      = ((data ++ [nul])[pos + 1]?).any isNewline := by
    by_cases hinside : pos + 1 < data.length
    · rw [List.getElem?_append_left hinside, List.getElem?_append_left hinside]
    · have hend : pos + 1 = data.length := by omega
      rw [hend, List.getElem?_concat_length]
      by_contra hnewline
      have htwo : ((data ++ fragments.flatten)[pos + 1]?).any isNewline = true := by
        rw [hend]
        cases hany : ((data ++ fragments.flatten)[data.length]?).any isNewline with
        | true => rfl
        | false => exact absurd hany hnewline
      refine hclean.whole hmode (m.buffer.length + pos) ?_ ?_ ?_
      · rw [findIdx_append hcarried, hstreamPos]
        rfl
      · rwa [Nat.add_assoc, List.getElem?_append_right (by omega), Nat.add_sub_cancel_left]
      · have hbehind : (m.buffer ++ (data ++ fragments.flatten)).length - (m.buffer.length + pos + 1)
            = fragments.flatten.length := by
          simp only [List.length_append]
          omega
        rw [hbehind]
        exact hmarks.mem_end hdata
  rw [lineEnd_append hcarried hstreamPos, hnext, hlength]

/-- **A fragment in a clean cutting** is kept whole, or it delivers the first block of the stream. -/
theorem pass_spec {m : IResponseMemory} {boundaries : List Nat} {data : Str} {fragments : List Str}
    (hcarried : Carried m) (hmode : m.bufferMode ≠ .none) (hdata : data ≠ [])
    (hclean : CleanBlock boundaries m.clear (m.buffer ++ (data ++ fragments.flatten)))
    (hmarks : Cuts.Marks boundaries (data :: fragments)) :
    (m.pass data [nul] = .cantProcess m ∧ Carried (m.keep data)) ∨
      ∃ block length rest, m.pass data [nul] = .deliver block rest ∧
        nextBlock m.clear (m.buffer ++ (data ++ fragments.flatten)) = some (block, length) ∧
        (m.buffer ++ (data ++ fragments.flatten)).take length = block.buffer ∧
        (m.buffer ++ (data ++ fragments.flatten)).drop length = rest ++ fragments.flatten ∧
        rest.length ≤ data.length := by
  rcases m.bufferMode.eq_or with hlength | hnewline | hnone
  · have hroom := (carried_of_length hlength).mp hcarried
    have hle : m.buffer.length ≤ m.expectedSize := by
      rcases hroom with hlt | hnil
      · exact hlt.le
      · simp [hnil]
    rw [BufferedReader.pass_of_length hlength, BufferedReader.passLength, sizeSub_of_le hle]
    split
    · rename_i hfits
      have hsize : m.buffer.length + (m.expectedSize - m.buffer.length) = m.expectedSize := by omega
      have htake := take_carried m.buffer fragments.flatten hfits
      have hdrop := drop_carried m.buffer fragments.flatten hfits
      rw [hsize] at htake hdrop
      refine .inr ⟨_, m.expectedSize, _, rfl, ?_, htake, hdrop, by simp⟩
      rw [nextBlock]
      simp only [BufferedReader.clear_bufferMode, BufferedReader.clear_expectedSize, hlength]
      rw [if_pos ⟨by simp only [List.length_append]; omega, by simp [hdata]⟩, htake]
      simp [BufferedReader.clear, hlength]
    · rename_i hshort
      have hkeep : (m.keep data).bufferMode = .length := hlength
      refine .inl ⟨rfl, (carried_of_length hkeep).mpr (.inl ?_)⟩
      simp only [BufferedReader.keep_buffer, BufferedReader.keep_expectedSize, List.length_append]
      omega
  · have hnone := (carried_of_newline hnewline).mp hcarried
    cases hline : BufferedReader.lineLength (data ++ [nul]) with
    | none =>
        have hkeep : (m.keep data).bufferMode = .newline := hnewline
        refine .inl ⟨BufferedReader.pass_of_no_line hnewline hline, (carried_of_newline hkeep).mpr ?_⟩
        rw [BufferedReader.keep_buffer, findIdx_append hnone,
          findIdx_of_no_line hnewline hnone hclean hmarks hline]
        rfl
    | some length =>
        have hle := (lineLength_nul hline).2
        have hend := lineEnd_of_line hnewline hnone hdata hclean hmarks hline
        have htake := take_carried m.buffer fragments.flatten hle
        have hdrop := drop_carried m.buffer fragments.flatten hle
        rw [BufferedReader.pass_of_line hnewline hline, BufferedReader.passLength,
          sizeSub_of_le (Nat.le_add_right _ _), Nat.add_sub_cancel_left, if_pos hle]
        refine .inr ⟨_, m.buffer.length + length, _, rfl, ?_, htake, hdrop, by simp⟩
        rw [nextBlock]
        simp only [BufferedReader.clear_bufferMode, hnewline, hend, Option.map_some, htake]
        simp [BufferedReader.clear, hnewline]
  · exact absurd hnone hmode

/-- How fragments bring the first block of what is carried and they hold: not yet, or with the fragment
it ends in, of which `rest` is left. -/
inductive FirstBlock (boundaries : List Nat) (m : IResponseMemory) (fragments : List Str) : Prop
  | carried {m₁ : IResponseMemory} (hblock : nextBlock m.clear (m.buffer ++ fragments.flatten) = none)
      (hfeed : feed m fragments = some (List.replicate fragments.length (.returned false), m₁))
      (hderived : m₁.derived = m.derived)
  | delivered {before later : List Str} {fragment rest : Str} {block m₁ : IResponseMemory} {length : Nat}
      (hfragments : fragments = before ++ fragment :: later)
      (hfeed : feed m before = some (List.replicate before.length (.returned false), m₁))
      (hm₁ : Framed m₁) (hfragment : fragment ≠ [])
      (hpass : m₁.pass fragment [nul] = .deliver block rest)
      (hblock : nextBlock m.clear (m.buffer ++ fragments.flatten) = some (block, length))
      (htake : (m.buffer ++ fragments.flatten).take length = block.buffer)
      (hdrop : (m.buffer ++ fragments.flatten).drop length = rest ++ later.flatten)
      (hrest : rest.length ≤ fragment.length) (hmarks : Cuts.Marks boundaries (rest :: later))

theorem FirstBlock.cons {boundaries : List Nat} {m : IResponseMemory} {data : Str}
    {fragments : List Str} (hcall : m.onData data = .returns false (m.keep data))
    (h : FirstBlock boundaries (m.keep data) fragments) :
    FirstBlock boundaries m (data :: fragments) := by
  have hanswer : answer (m.onData data) = some (.returned false, m.keep data) := by rw [hcall]; rfl
  have hclear : (m.keep data).clear = m.clear := rfl
  have hstream : (m.keep data).buffer ++ fragments.flatten = m.buffer ++ (data :: fragments).flatten := by
    rw [BufferedReader.keep_buffer, List.flatten_cons, List.append_assoc]
  cases h with
  | carried hblock hfeed hderived =>
      rw [hclear, hstream] at hblock
      refine .carried hblock ?_ hderived
      rw [feed, Run.run_cons_of_some hanswer, ← feed, hfeed]
      rfl
  | @delivered before later fragment _ _ _ _ hfragments hfeed hm₁ hfragment hpass hblock htake hdrop hrest hmarks =>
      rw [hclear, hstream] at hblock
      rw [hstream] at htake hdrop
      have hcons : data :: fragments = (data :: before) ++ fragment :: later := by
        rw [hfragments, List.cons_append]
      refine .delivered hcons ?_ hm₁ hfragment hpass hblock htake hdrop hrest hmarks
      rw [feed, Run.run_cons_of_some hanswer, ← feed, hfeed]
      rfl

/-- **The first block of a stream** is delivered by the fragment in which it ends, or everything is
carried over. -/
theorem feed_first_block {m : IResponseMemory} {boundaries : List Nat} {fragments : List Str}
    (hm : Framed m) (hcarried : Carried m) (hmode : m.bufferMode ≠ .none)
    (hclean : CleanBlock boundaries m.clear (m.buffer ++ fragments.flatten))
    (hmarks : Cuts.Marks boundaries fragments) : FirstBlock boundaries m fragments := by
  induction fragments generalizing m with
  | nil =>
      refine .carried ?_ rfl rfl
      rw [List.flatten_nil, List.append_nil]
      exact hcarried
  | cons data fragments ih =>
      have hkept : m.onData data = .returns false (m.keep data) → Carried (m.keep data) →
          FirstBlock boundaries m (data :: fragments) := by
        intro hcall hcarried₁
        have hframed : Framed (m.keep data) :=
          (advance_of_answer hm (by rw [hcall]; rfl : answer (m.onData data) = some (.returned false, _))).framed
        refine .cons hcall (ih hframed hcarried₁ hmode ?_ hmarks.tail)
        rwa [List.flatten_cons, ← List.append_assoc] at hclean
      by_cases hdata : data = []
      · subst hdata
        rw [BufferedReader.keep_nil] at hkept
        exact hkept (onData_nil m) hcarried
      · rcases pass_spec hcarried hmode hdata (by rwa [List.flatten_cons] at hclean) hmarks with
          ⟨hpass, hcarried₁⟩ | ⟨block, length, rest, hpass, hblock, htake, hdrop, hle⟩
        · exact hkept (onData_of_cantProcess hdata hpass) hcarried₁
        · exact .delivered (List.nil_append _).symm rfl hm hdata hpass hblock htake hdrop hle
            (hmarks.of_rest hle)

/-! ### Whole readings -/

/-- What feeding the fragments of a stream comes to, for a reading of the stream: the calls answer
`false` up to the one that brings the last byte read, which answers `true`. -/
inductive Ends (fragments : List Str) : Reading → Option (List Reply × IResponseMemory) → Prop
  | undefined : Ends fragments .undefined none
  | waits {m m₁ : IResponseMemory} (hderived : m₁.derived = m.derived) :
      Ends fragments (.waits m) (some (List.replicate fragments.length (.returned false), m₁))
  | finishes {before later : List Str} {fragment unread : Str} {others : List Reply}
      {m m₁ : IResponseMemory} (hfragments : fragments = before ++ fragment :: later)
      (hlater : later.flatten.length ≤ unread.length)
      (hfragment : unread.length < (fragment ++ later.flatten).length)
      (hothers : others.length = later.length) (hderived : m₁.derived = m.derived) :
      Ends fragments (.finishes m unread)
        (some (List.replicate before.length (.returned false) ++ .returned true :: others, m₁))

theorem Ends.prepend {m m₁ m₂ : IResponseMemory} {before later : List Str} {fragment rest : Str}
    {reading : Reading}
    (hfeed : feed m before = some (List.replicate before.length (.returned false), m₁))
    (hcall : m₁.onData fragment = m₂.onData rest) (hrest : rest.length ≤ fragment.length)
    (h : Ends (rest :: later) reading (feed m₂ (rest :: later))) :
    Ends (before ++ fragment :: later) reading (feed m (before ++ fragment :: later)) := by
  have hsame : feed m₁ (fragment :: later) = feed m₂ (rest :: later) :=
    Run.run_cons_congr (congrArg answer hcall) later
  rw [feed, Run.run_append_of_some hfeed, ← feed, hsame]
  generalize feed m₂ (rest :: later) = outcome at h
  cases h with
  | undefined => exact .undefined
  | waits hderived =>
      have hreplies : List.replicate before.length (Reply.returned false)
          ++ List.replicate (rest :: later).length (Reply.returned false)
          = List.replicate (before ++ fragment :: later).length (Reply.returned false) := by
        rw [List.replicate_append_replicate]
        simp
      simp only [Option.map_some, hreplies]
      exact .waits hderived
  | @finishes before' later' fragment' unread others m' m₁' hfragments hlater hfragment hothers hderived =>
      cases before' with
      | nil =>
          obtain ⟨rfl, rfl⟩ := List.cons.inj hfragments
          refine .finishes rfl hlater ?_ hothers hderived
          rw [List.length_append] at hfragment ⊢
          omega
      | cons data before' =>
          obtain ⟨rfl, rfl⟩ := List.cons.inj hfragments
          have hreplies : List.replicate before.length (Reply.returned false)
              ++ (List.replicate (rest :: before').length (Reply.returned false)
                ++ .returned true :: others)
              = List.replicate (before ++ fragment :: before').length (Reply.returned false)
                ++ .returned true :: others := by
            rw [← List.append_assoc, List.replicate_append_replicate]
            simp
          simp only [Option.map_some, hreplies]
          exact .finishes (by simp) hlater hfragment hothers hderived

theorem nextBlock_of_none {m : IResponseMemory} {stream : Str} (hmode : m.bufferMode = .none)
    (hstream : stream ≠ []) (hopen : m.derived.bodyType = .knownSize → stream.length < m.expectedSize) :
    m.nextBlock stream = some (m, stream.length) := by
  rw [nextBlock]
  simp only [hmode, if_neg hstream]
  rw [if_neg fun h => Nat.not_lt_of_le h.2 (hopen h.1)]

theorem reads_of_none {m next : IResponseMemory} {stream : Str} {reading : Reading}
    (hmode : m.bufferMode = .none) (hstream : stream ≠ [])
    (hopen : m.derived.bodyType = .knownSize → stream.length < m.expectedSize)
    (hcall : m.onBufferedData stream = .returns false next) (hnext : next.bufferMode = .none)
    (hreads : Reads m stream reading) : reading = .waits next.clear := by
  have hrest := hreads.rest (nextBlock_of_none hmode hstream hopen)
    (by rw [List.take_length]; exact hcall)
  rw [List.drop_length] at hrest
  apply hrest.eq_waits
  rw [nextBlock]
  simp [hnext]

theorem ends_of_knownSize {m : IResponseMemory} {boundaries : List Nat} {fragments : List Str}
    {reading : Reading} (hm : Framed m) (hmissing : Missing m)
    (hreads : Reads m fragments.flatten reading)
    (hclean : CleanBlock boundaries m fragments.flatten) (hmarks : Cuts.Marks boundaries fragments) :
    Ends fragments reading (feed m fragments) := by
  by_cases hlt : fragments.flatten.length < m.expectedSize
  · rw [feed_part hmissing hlt]
    by_cases hnil : fragments.flatten = []
    · rw [hnil] at hreads ⊢
      have hwaits := hreads.eq_waits (by rw [nextBlock]; simp [hmissing.mode])
      rw [hwaits]
      exact .waits (by simp [part, writeBody_nil])
    · have hwaits := reads_of_none hmissing.mode hnil (fun _ => hlt)
        (onBufferedData_part hmissing hnil hlt) hmissing.mode hreads
      rw [hwaits]
      exact .waits rfl
  · rw [not_lt] at hlt
    obtain ⟨before, fragment, later, others, m₁, hfragments, hbefore, hfragment, hfeed, hothers, hderived⟩ :=
      feed_lastPart hmissing hm hlt
    have hpos := hmissing.missing
    have hflatten : fragments.flatten = (before.flatten ++ fragment) ++ later.flatten := by
      rw [hfragments]
      simp
    have hnil : fragments.flatten ≠ [] := List.ne_nil_of_length_pos (by omega)
    -- the last byte that is expected is the last of the fragment it comes in
    have hend : fragments.flatten.length - m.expectedSize = later.flatten.length := by
      have hmem : fragments.flatten.length - m.expectedSize ∈
          Cuts.boundaries (before ++ fragment :: later) := by
        rw [← hfragments]
        exact (hmarks _ (by omega)).mp (hclean.bounded hmissing.mode hmissing.type hlt)
      have htotal : fragments.flatten.length
          = before.flatten.length + fragment.length + later.flatten.length := by
        rw [hflatten, List.length_append, List.length_append]
      rw [List.length_append] at hfragment
      refine Cuts.eq_of_mem_boundaries hmem (by omega) ?_
      rw [List.length_append]
      omega
    have hsize : (before.flatten ++ fragment).length = m.expectedSize := by
      rw [hflatten, List.length_append] at hend
      omega
    have htake : fragments.flatten.take m.expectedSize = before.flatten ++ fragment := by
      rw [hflatten, ← hsize, List.take_left]
    have hdrop : fragments.flatten.drop m.expectedSize = later.flatten := by
      rw [hflatten, ← hsize, List.drop_left]
    have hblock : m.nextBlock fragments.flatten = some (m, m.expectedSize) := by
      rw [nextBlock]
      simp only [hmissing.mode, if_neg hnil]
      rw [if_pos ⟨hmissing.type, hlt⟩]
    have hne : before.flatten ++ fragment ≠ [] := List.ne_nil_of_length_pos (by omega)
    have hfinishes := hreads.eq_finishes hblock
      (by rw [htake]; exact onBufferedData_lastPart hmissing hne hsize.symm.le)
    rw [hfinishes, hdrop, hfeed]
    refine .finishes hfragments (Nat.le_refl _) ?_ hothers hderived
    rw [List.length_append] at hsize ⊢
    omega

theorem ends_of_handOver {m : IResponseMemory} {boundaries : List Nat} {fragments : List Str}
    {reading : Reading} (hm : Framed m) (hlive : Live m) (hmode : m.bufferMode = .none)
    (hreads : Reads m fragments.flatten reading)
    (hclean : CleanBlock boundaries m fragments.flatten) (hmarks : Cuts.Marks boundaries fragments) :
    Ends fragments reading (feed m fragments) := by
  have hstate := hlive.body_of_none hmode
  by_cases hknown : m.derived.bodyType = .knownSize
  · exact ends_of_knownSize hm
      ⟨hmode, hstate, hknown, hm.buffer_of_none hmode, hlive.missing hmode hknown⟩ hreads hclean hmarks
  · have hchunked : m.derived.bodyType ≠ .chunked := fun h => hm.mode_of_chunked hstate h hmode
    rw [feed_swallow hmode hstate hknown hchunked]
    by_cases hnil : fragments.flatten = []
    · rw [hnil] at hreads ⊢
      rw [hreads.eq_waits (by rw [nextBlock]; simp [hmode])]
      exact .waits (by simp [swallow, writeBody_nil])
    · have hnext : (m.swallow fragments.flatten).bufferMode = .none := by
        rw [swallow]
        split <;> simp [hmode]
      rw [reads_of_none hmode hnil (fun h => absurd h hknown)
        (onBufferedData_swallow hstate hknown hchunked _) hnext hreads]
      exact .waits rfl

/-- A clean cutting is read like its stream if, behind the first block, the rest of it is. -/
theorem ends_of_first_block {m : IResponseMemory} {boundaries : List Nat} {fragments : List Str}
    {reading : Reading} (hlive : Live m) (hfirst : FirstBlock boundaries m fragments)
    (hreads : Reads m.clear (m.buffer ++ fragments.flatten) reading)
    (hnext : ∀ (block next : IResponseMemory) (length : Nat) (rest : Str) (later : List Str),
      nextBlock m.clear (m.buffer ++ fragments.flatten) = some (block, length) →
      block.onBufferedData ((m.buffer ++ fragments.flatten).take length) = .returns false next →
      (m.buffer ++ fragments.flatten).drop length = (rest :: later).flatten →
      Cuts.Marks boundaries (rest :: later) →
      Ends (rest :: later) reading (feed next.clear (rest :: later))) :
    Ends fragments reading (feed m fragments) := by
  cases hfirst with
  | carried hblock hfeed hderived =>
      rw [hreads.eq_waits hblock, hfeed]
      exact .waits hderived
  | @delivered before later fragment rest block m₁ length hfragments hfeed hm₁ hfragment hpass hblock htake
      hdrop hrest hmarks =>
      cases hcall : block.onBufferedData block.buffer with
      | returns value next =>
          have hlt := length_lt_of_returns hm₁ hpass hcall
          cases value with
          | true =>
              have hanswer : answer (m₁.onData fragment) = some (.returned true, next.clear) := by
                rw [onData_of_finishes hfragment hpass hcall]
                rfl
              have hadvance := advance_of_answer hm₁ hanswer
              obtain ⟨others, m₂, hlater, -, hothers, hderived⟩ :=
                feed_of_finished hadvance.framed (hadvance.finishes_iff.mp rfl).2 later
              rw [hreads.eq_finishes hblock (by rw [htake]; exact hcall), hdrop, feed, hfragments,
                Run.run_append_of_some hfeed, Run.run_cons_of_some hanswer, ← feed, hlater]
              exact .finishes rfl (by simp) (by simpa using hlt) hothers hderived
          | false =>
              have hends := hnext block next length rest later hblock (by rw [htake]; exact hcall) hdrop hmarks
              rw [hfragments]
              exact .prepend hfeed (onData_of_goesOn hm₁ hfragment hpass hcall) hrest hends
      | throws error next =>
          have hfinished := (throws_iff.mp hcall).1
          rw [(nextBlock_derived hblock).1] at hfinished
          exact absurd hfinished hlive.not_finished
      | undefined =>
          have hanswer : answer (m₁.onData fragment) = none := by
            rw [onData_of_undefined hfragment hpass hcall]
            rfl
          rw [hreads.eq_undefined hblock (by rw [htake]; exact hcall), feed, hfragments,
            Run.run_append_of_some hfeed, Run.run_cons_of_none hanswer]
          exact .undefined
      | running => exact absurd hcall (onBufferedData_ne_running _ _)

/-- **A clean cutting is read like its stream.** -/
theorem ends_of_reads {m : IResponseMemory} {boundaries : List Nat} {fragments : List Str}
    {reading : Reading} (hm : Framed m) (hlive : Live m) (hcarried : Carried m)
    (hreads : Reads m.clear (m.buffer ++ fragments.flatten) reading)
    (hclean : Clean boundaries m.clear (m.buffer ++ fragments.flatten))
    (hmarks : Cuts.Marks boundaries fragments) : Ends fragments reading (feed m fragments) := by
  induction hlength : (m.buffer ++ fragments.flatten).length using Nat.strong_induction_on
    generalizing m fragments with
  | _ n ih =>
      by_cases hmode : m.bufferMode = .none
      · have hbuffer := hm.buffer_of_none hmode
        rw [BufferedReader.clear_of_buffer_nil hbuffer, hbuffer, List.nil_append] at hreads hclean
        exact ends_of_handOver hm hlive hmode hreads hclean.first hmarks
      · apply ends_of_first_block hlive (feed_first_block hm hcarried hmode hclean.first hmarks) hreads
        intro block next length rest later hblock hcall hdrop hmarks'
        have hlive' : Live m.clear := hlive.same rfl rfl fun _ => rfl
        have hmoded : Moded m.clear := ⟨hm.body_of_length, hm.mode_of_chunked⟩
        obtain ⟨hpos, hle⟩ := length_pos_of_nextBlock hmoded hlive' hblock hcall
        obtain ⟨hnext, hnextLive⟩ := next_of_nextBlock hmoded hlive' hblock hcall
        have hrest := hreads.rest hblock hcall
        have hcleanRest := hclean.next hblock hcall
        rw [hdrop] at hrest hcleanRest
        refine ih (rest :: later).flatten.length ?_ hnext hnextLive (carried_of_buffer_nil rfl) hrest
          hcleanRest hmarks' (by simp)
        rw [← hdrop, List.length_drop]
        omega

/-- **Feeding a clean cutting to a fresh reader** comes to what the reading of its stream says. -/
theorem ends_of_clean {fragments : List Str} {reading : Reading}
    (hreads : Reads fresh fragments.flatten reading)
    (hclean : Clean (Cuts.boundaries fragments) fresh fragments.flatten) :
    Ends fragments reading (feed fresh fragments) :=
  ends_of_reads framed_fresh live_fresh (carried_of_buffer_nil rfl) hreads hclean
    (Cuts.marks_boundaries fragments)

/-! ### Independence of the cutting -/

/-- What feeding comes to: the parsed message, and whether it was reported to be finished. -/
structure Parsed where
  status : HttpStatus
  headers : HeaderCollection
  body : Str
  streamState : MessageState
  reported : Bool

/-- What a run comes to, if none of its calls is undefined. -/
def parsed : Option (List Reply × IResponseMemory) → Option Parsed :=
  Option.map fun (replies, m) =>
    ⟨m.derived.status, m.derived.headers, m.derived.body, m.derived.streamState,
      decide (.returned true ∈ replies)⟩

def Reading.parsed : Reading → Option Parsed
  | .undefined => none
  | .waits m =>
    some ⟨m.derived.status, m.derived.headers, m.derived.body, m.derived.streamState, false⟩
  | .finishes m _ =>
    some ⟨m.derived.status, m.derived.headers, m.derived.body, m.derived.streamState, true⟩

theorem Ends.parsed_eq {fragments : List Str} {reading : Reading}
    {outcome : Option (List Reply × IResponseMemory)} (h : Ends fragments reading outcome) :
    parsed outcome = reading.parsed := by
  cases h with
  | undefined => rfl
  | waits hderived =>
      simp only [parsed, Option.map_some, Reading.parsed, hderived]
      simp
  | finishes hfragments hlater hfragment hothers hderived =>
      simp only [parsed, Option.map_some, Reading.parsed, hderived]
      simp

/-- **Two clean cuttings of a stream are read alike**: the same status, headers, body and state, and
the same answer to whether the message is finished. -/
theorem parsed_eq_of_clean {fragments fragments' : List Str}
    (hstream : fragments.flatten = fragments'.flatten)
    (hclean : Clean (Cuts.boundaries fragments) fresh fragments.flatten)
    (hclean' : Clean (Cuts.boundaries fragments') fresh fragments'.flatten) :
    parsed (feed fresh fragments) = parsed (feed fresh fragments') := by
  obtain ⟨reading, hreads⟩ := exists_reads framed_fresh live_fresh fragments.flatten
  rw [(ends_of_clean hreads hclean).parsed_eq]
  rw [hstream] at hreads
  rw [(ends_of_clean hreads hclean').parsed_eq]

theorem parsed_eq_in_two_cuttings :
    let head := lit "HTTP/1.1 200 OK\r\nContent-Length: 4\r\n"
    parsed (feed fresh [head ++ lit "\r\nabcd"])
      = parsed (feed fresh [head.take 25, head.drop 25 ++ lit "\r\nab", lit "cd"]) := by
  intro head
  apply parsed_eq_of_clean
  · decide
  · exact clean_of_checkClean (by decide : checkClean _ 5 _ _ = true)
  · exact clean_of_checkClean (by decide : checkClean _ 5 _ _ = true)

/-- A cut inside the line end of a header ends the head there. -/
theorem not_parsed_eq_in_line_end :
    ¬ ∀ fragments fragments' : List Str, (∀ f ∈ fragments, f ≠ []) → (∀ f ∈ fragments', f ≠ []) →
      fragments.flatten = fragments'.flatten →
      parsed (feed fresh fragments) = parsed (feed fresh fragments') := by
  intro h
  have hsame := h [lit "HTTP/1.1 200 OK\r\nA: b\r\nContent-Length: 0\r\n\r\n"]
    [lit "HTTP/1.1 200 OK\r\nA: b\r", lit "\nContent-Length: 0\r\n\r\n"]
    (by decide) (by decide) (by decide)
  have hreported := congrArg (Option.map Parsed.reported) hsame
  exact absurd hreported (by decide)

end IResponseMemory

end Rikitiki
