import Rikitiki.Incoming.Run
import Rikitiki.Library.Cuts
import Mathlib.Logic.Relation

/-!
# Reading a stream

What the reader is for, without fragments: a stream is read block by block, each block being what the
buffer mode asks for of the whole rest of the stream. `Reads` is that reading as a derivation, and
`Clean` says of a cutting that it never touches what the reader looks for: no boundary splits the two
characters of a line end, a NUL never hides a line end from the search, and a body of known size ends at a
boundary.
-/

namespace Rikitiki

/-! ### Line ends -/

/-- The length of the first line of a stream, up to and including its one or two newline characters. -/
def lineEnd (stream : Str) : Option Nat :=
  (stream.findIdx? isNewline).map fun pos =>
    if (stream[pos + 1]?).any isNewline then pos + 2 else pos + 1

theorem findIdx_of_strpbrk {s : Str} {pos : Nat} (h : strpbrk s = some pos) :
    s.findIdx? isNewline = some pos := by
  induction s generalizing pos with
  | nil => cases h
  | cons b s ih =>
      rw [strpbrk] at h
      rw [List.findIdx?_cons]
      split at h
      · cases h
      · split at h
        · rename_i hb
          rw [if_pos hb]
          exact h
        · rename_i hb
          obtain ⟨i, hi, rfl⟩ := Option.map_eq_some_iff.mp h
          rw [if_neg hb, ih hi, Option.map_some]

theorem exists_nul_of_strpbrk {s : Str} {pos : Nat} (h : strpbrk s = none)
    (hpos : s.findIdx? isNewline = some pos) : ∃ q < pos, s[q]? = some nul := by
  induction s generalizing pos with
  | nil => cases hpos
  | cons b s ih =>
      rw [strpbrk] at h
      rw [List.findIdx?_cons] at hpos
      split at h
      · rename_i hb
        subst hb
        rw [if_neg (by decide)] at hpos
        obtain ⟨i, -, rfl⟩ := Option.map_eq_some_iff.mp hpos
        exact ⟨0, by omega, rfl⟩
      · split at h
        · cases h
        · rename_i hb
          rw [if_neg hb] at hpos
          obtain ⟨i, hi, rfl⟩ := Option.map_eq_some_iff.mp hpos
          obtain ⟨q, hq, hnul⟩ := ih (Option.map_eq_none_iff.mp h) hi
          exact ⟨q + 1, by omega, by simpa using hnul⟩

theorem lineEnd_pos {stream : Str} {length : Nat} (h : lineEnd stream = some length) :
    0 < length ∧ length ≤ stream.length := by
  obtain ⟨pos, hpos, rfl⟩ := Option.map_eq_some_iff.mp h
  have hlt := (List.findIdx?_eq_some_iff_getElem.mp hpos).1
  split
  · rename_i hnext
    have : pos + 1 < stream.length := by
      by_contra hge
      rw [List.getElem?_eq_none (by omega)] at hnext
      cases hnext
    omega
  · omega

namespace IResponseMemory

/-! ### Blocks -/

def nextBlock (m : IResponseMemory) (stream : Str) : Option (IResponseMemory × Nat) :=
  match m.bufferMode with
  | .newline => (lineEnd stream).map fun length =>
      ({ m with expectedSize := length, buffer := stream.take length }, length)
  | .length =>
    if m.expectedSize ≤ stream.length ∧ stream ≠ [] then
      some ({ m with buffer := stream.take m.expectedSize }, m.expectedSize)
    else none
  | .none =>
    if stream = [] then none
    else if m.derived.bodyType = .knownSize ∧ m.expectedSize ≤ stream.length then
      some (m, m.expectedSize)
    else some (m, stream.length)

inductive BlockStep : IResponseMemory × Str → IResponseMemory × Str → Prop
  | intro {m block next : IResponseMemory} {stream : Str} {length : Nat}
      (hblock : m.nextBlock stream = some (block, length))
      (hcall : block.onBufferedData (stream.take length) = .returns false next) :
      BlockStep (m, stream) (next.clear, stream.drop length)

/-- What becomes of a message: it waits for more, or is finished with some of the stream unread. -/
inductive Reading where
  | undefined
  | waits (m : IResponseMemory)
  | finishes (m : IResponseMemory) (unread : Str)

/-- Reading a stream to its end or to the end of the message. -/
inductive Reads : IResponseMemory → Str → Reading → Prop
  | waits {m : IResponseMemory} {stream : Str} (hblock : m.nextBlock stream = none) :
      Reads m stream (.waits m)
  | undefined {m block : IResponseMemory} {stream : Str} {length : Nat}
      (hblock : m.nextBlock stream = some (block, length))
      (hcall : block.onBufferedData (stream.take length) = .undefined) : Reads m stream .undefined
  | finishes {m block next : IResponseMemory} {stream : Str} {length : Nat}
      (hblock : m.nextBlock stream = some (block, length))
      (hcall : block.onBufferedData (stream.take length) = .returns true next) :
      Reads m stream (.finishes next (stream.drop length))
  | goesOn {m block next : IResponseMemory} {stream : Str} {length : Nat} {reading : Reading}
      (hblock : m.nextBlock stream = some (block, length))
      (hcall : block.onBufferedData (stream.take length) = .returns false next)
      (hrest : Reads next.clear (stream.drop length) reading) : Reads m stream reading

theorem Reads.eq_waits {m : IResponseMemory} {stream : Str} {reading : Reading}
    (h : Reads m stream reading) (hblock : m.nextBlock stream = none) : reading = .waits m := by
  cases h <;> simp_all

theorem Reads.rest {m block next : IResponseMemory} {stream : Str} {length : Nat} {reading : Reading}
    (h : Reads m stream reading) (hblock : m.nextBlock stream = some (block, length))
    (hcall : block.onBufferedData (stream.take length) = .returns false next) :
    Reads next.clear (stream.drop length) reading := by
  cases h with
  | goesOn hblock' hcall' hrest =>
      obtain ⟨rfl, rfl⟩ := Prod.mk.inj (Option.some.inj (hblock.symm.trans hblock'))
      obtain ⟨-, rfl⟩ := Outcome.returns.inj (hcall.symm.trans hcall')
      exact hrest
  | _ => simp_all

theorem Reads.eq_undefined {m block : IResponseMemory} {stream : Str} {length : Nat} {reading : Reading}
    (h : Reads m stream reading) (hblock : m.nextBlock stream = some (block, length))
    (hcall : block.onBufferedData (stream.take length) = .undefined) : reading = .undefined := by
  cases h <;> simp_all

theorem Reads.eq_finishes {m block next : IResponseMemory} {stream : Str} {length : Nat}
    {reading : Reading} (h : Reads m stream reading)
    (hblock : m.nextBlock stream = some (block, length))
    (hcall : block.onBufferedData (stream.take length) = .returns true next) :
    reading = .finishes next (stream.drop length) := by
  cases h <;> simp_all

/-! ### Cuttings that touch nothing -/

/-- What a cutting must leave alone in the first block of a stream. -/
structure CleanBlock (boundaries : List Nat) (m : IResponseMemory) (stream : Str) : Prop where
  /-- The two characters of a line end come in one fragment. -/
  whole : m.bufferMode = .newline → ∀ pos ∈ stream.findIdx? isNewline,
    (stream[pos + 1]?).any isNewline = true → stream.length - (pos + 1) ∉ boundaries
  /-- A NUL in a line does not come in the fragment in which the line ends. -/
  visible : m.bufferMode = .newline → ∀ pos ∈ stream.findIdx? isNewline,
    ∀ q < pos, stream[q]? = some nul → ∃ l ∈ boundaries, stream.length - pos ≤ l ∧ l < stream.length - q
  /-- The last byte of a body of known size is the last of its fragment. -/
  bounded : m.bufferMode = .none → m.derived.bodyType = .knownSize →
    m.expectedSize ≤ stream.length → stream.length - m.expectedSize ∈ boundaries

instance (boundaries : List Nat) (m : IResponseMemory) (stream : Str) :
    Decidable (CleanBlock boundaries m stream) :=
  decidable_of_iff
    ((m.bufferMode = .newline → ∀ pos ∈ stream.findIdx? isNewline,
        (stream[pos + 1]?).any isNewline = true → stream.length - (pos + 1) ∉ boundaries) ∧
      (m.bufferMode = .newline → ∀ pos ∈ stream.findIdx? isNewline, ∀ q < pos, stream[q]? = some nul →
        ∃ l ∈ boundaries, stream.length - pos ≤ l ∧ l < stream.length - q) ∧
      (m.bufferMode = .none → m.derived.bodyType = .knownSize → m.expectedSize ≤ stream.length →
        stream.length - m.expectedSize ∈ boundaries))
    ⟨fun h => ⟨h.1, h.2.1, h.2.2⟩, fun h => ⟨h.whole, h.visible, h.bounded⟩⟩

/-- A cutting that leaves every block alone that is read from the stream. -/
def Clean (boundaries : List Nat) (m : IResponseMemory) (stream : Str) : Prop :=
  ∀ point, Relation.ReflTransGen BlockStep (m, stream) point → CleanBlock boundaries point.1 point.2

theorem Clean.first {boundaries : List Nat} {m : IResponseMemory} {stream : Str}
    (h : Clean boundaries m stream) : CleanBlock boundaries m stream :=
  h (m, stream) .refl

theorem Clean.next {boundaries : List Nat} {m block next : IResponseMemory} {stream : Str} {length : Nat}
    (h : Clean boundaries m stream) (hblock : m.nextBlock stream = some (block, length))
    (hcall : block.onBufferedData (stream.take length) = .returns false next) :
    Clean boundaries next.clear (stream.drop length) :=
  fun point hpoint => h point (.head (.intro hblock hcall) hpoint)

theorem clean_of_first {boundaries : List Nat} {m : IResponseMemory} {stream : Str}
    (hfirst : CleanBlock boundaries m stream)
    (hnext : ∀ block next length, m.nextBlock stream = some (block, length) →
      block.onBufferedData (stream.take length) = .returns false next →
      Clean boundaries next.clear (stream.drop length)) : Clean boundaries m stream := by
  intro point hpoint
  rcases hpoint.cases_head with rfl | ⟨next, hstep, hrest⟩
  · exact hfirst
  · cases hstep with
    | intro hblock hcall => exact hnext _ _ _ hblock hcall point hrest

/-- Check that a cutting is clean, over as many blocks as there is fuel. -/
def checkClean (boundaries : List Nat) : Nat → IResponseMemory → Str → Bool
  | 0, _, _ => false
  | fuel + 1, m, stream =>
    decide (CleanBlock boundaries m stream) &&
      match m.nextBlock stream with
      | none => true
      | some (block, length) =>
        match block.onBufferedData (stream.take length) with
        | .returns false next => checkClean boundaries fuel next.clear (stream.drop length)
        | _ => true

theorem clean_of_checkClean {boundaries : List Nat} {fuel : Nat} {m : IResponseMemory} {stream : Str}
    (h : checkClean boundaries fuel m stream = true) : Clean boundaries m stream := by
  induction fuel generalizing m stream with
  | zero => cases h
  | succ fuel ih =>
      rw [checkClean, Bool.and_eq_true, decide_eq_true_eq] at h
      refine clean_of_first h.1 fun block next length hblock hcall => ih ?_
      have hrest := h.2
      rw [hblock] at hrest
      simp only [hcall] at hrest
      exact hrest

/-! ### Messages that are still read -/

/-- The message is not finished, and where everything is handed on a body is being read, of which
something is missing if its size is known. -/
structure Live (m : IResponseMemory) : Prop where
  not_finished : m.derived.streamState ≠ .finished
  body_of_none : m.bufferMode = .none → m.derived.streamState = .body
  missing : m.bufferMode = .none → m.derived.bodyType = .knownSize → 0 < m.expectedSize

theorem live_fresh : Live fresh := ⟨by decide, by decide, by decide⟩

theorem Live.same {m m' : IResponseMemory} (h : Live m) (hderived : m'.derived = m.derived)
    (hmode : m'.bufferMode = m.bufferMode)
    (hexpected : m.bufferMode = .none → m'.expectedSize = m.expectedSize) : Live m' where
  not_finished := by rw [hderived]; exact h.not_finished
  body_of_none := by rw [hderived, hmode]; exact h.body_of_none
  missing hnone hknown := by
    rw [hmode] at hnone
    rw [hderived] at hknown
    rw [hexpected hnone]
    exact h.missing hnone hknown

theorem Transition.live {m m' : IResponseMemory} {data : Str} (h : Transition m data m') (hm : Live m)
    (hgoes : m'.derived.streamState ≠ .finished) : Live m' where
  not_finished := hgoes
  body_of_none hnone := by
    have hbody : m.derived.streamState = .body → m'.derived.streamState = .body := fun hstate =>
      MessageState.eq_body (hstate ▸ h.streamState_le) hgoes
    cases h with
    | startLine hstate => simp [hm.body_of_none hnone] at hstate
    | endHeaders hstate =>
        rw [endHeaders_derived_streamState] at hgoes ⊢
        split
        · rename_i hlength
          exact absurd (if_pos hlength) hgoes
        · rfl
    | header hstate => simp [hm.body_of_none hnone] at hstate
    | chunkSize hstate => exact hstate
    | chunk => cases hnone
    | knownSize hstate => exact hbody hstate
    | knownSizeEmpty hstate => exact hbody hstate
    | stream hstate => exact hstate
    | ignored hstate => exact hstate
    | unknown hstate => simp [hm.body_of_none hnone] at hstate
  missing hnone hknown := by
    cases h with
    | startLine hstate => simp [hm.body_of_none hnone] at hstate
    | endHeaders hstate =>
        simp only [endHeaders_derived_streamState, endHeaders_expectedSize] at hgoes ⊢
        by_contra hzero
        simp [show contentLength m.derived.headers = 0 by omega] at hgoes
    | header hstate => simp [hm.body_of_none hnone] at hstate
    | chunkSize => cases hnone
    | chunk => cases hnone
    | knownSize =>
        simp only [finishBody_derived_streamState, finishBody_expectedSize] at hgoes ⊢
        by_contra hzero
        exact hgoes (if_pos (by omega))
    | knownSizeEmpty =>
        simp only [finishBody_derived_streamState, finishBody_expectedSize] at hgoes ⊢
        by_contra hzero
        exact hgoes (if_pos (by omega))
    | stream hstate hbody => rcases hbody with hbody | hbody <;> simp [hbody] at hknown
    | ignored hstate hbody => simp [hbody] at hknown
    | unknown hstate => simp [hm.body_of_none hnone] at hstate

/-! ### Every stream has a reading -/

theorem nextBlock_derived {m block : IResponseMemory} {stream : Str} {length : Nat}
    (h : m.nextBlock stream = some (block, length)) :
    block.derived = m.derived ∧ block.bufferMode = m.bufferMode ∧
      (m.bufferMode = .none → block = m) := by
  rw [nextBlock] at h
  split at h
  · obtain ⟨l, -, heq⟩ := Option.map_eq_some_iff.mp h
    obtain ⟨rfl, rfl⟩ := Prod.mk.inj heq
    simp_all
  · split at h
    · obtain ⟨rfl, rfl⟩ := Prod.mk.inj (Option.some.inj h)
      simp_all
    · cases h
  · split at h
    · cases h
    · split at h <;> obtain ⟨rfl, rfl⟩ := Prod.mk.inj (Option.some.inj h) <;> simp

theorem nextBlock_moded {m block : IResponseMemory} {stream : Str} {length : Nat} (hm : Moded m)
    (h : m.nextBlock stream = some (block, length)) : Moded block := by
  obtain ⟨hderived, hmode, -⟩ := nextBlock_derived h
  exact ⟨by rw [hderived, hmode]; exact hm.body_of_length,
    by rw [hderived, hmode]; exact hm.mode_of_chunked⟩

theorem nextBlock_live {m block : IResponseMemory} {stream : Str} {length : Nat} (hlive : Live m)
    (h : m.nextBlock stream = some (block, length)) : Live block := by
  obtain ⟨hderived, hmode, hsame⟩ := nextBlock_derived h
  exact hlive.same hderived hmode fun hnone => by rw [hsame hnone]

theorem length_pos_of_nextBlock {m block next : IResponseMemory} {stream : Str} {length : Nat}
    (hm : Moded m) (hlive : Live m) (h : m.nextBlock stream = some (block, length))
    (hcall : block.onBufferedData (stream.take length) = .returns false next) :
    0 < length ∧ length ≤ stream.length := by
  rw [nextBlock] at h
  split at h
  · obtain ⟨l, hline, heq⟩ := Option.map_eq_some_iff.mp h
    obtain ⟨rfl, rfl⟩ := Prod.mk.inj heq
    exact lineEnd_pos hline
  · rename_i hmode
    obtain ⟨hstate, hbody⟩ := hm.body_of_length hmode
    split at h
    · rename_i hfits
      obtain ⟨rfl, rfl⟩ := Prod.mk.inj (Option.some.inj h)
      refine ⟨Nat.pos_of_ne_zero fun hzero => ?_, hfits.1⟩
      cases (transition_of_returns hcall).1 with
      | chunkSize _ _ hnpos => exact absurd (hzero.symm.trans hnpos) (by decide)
      | chunk _ _ _ hsize =>
          simp only [hzero, List.take_zero] at hsize
          exact absurd hsize (by decide)
      | _ => simp_all
    · cases h
  · rename_i hmode
    split at h
    · cases h
    · rename_i hstream
      split at h
      · rename_i hknown
        obtain ⟨rfl, rfl⟩ := Prod.mk.inj (Option.some.inj h)
        exact ⟨hlive.missing hmode hknown.1, hknown.2⟩
      · obtain ⟨rfl, rfl⟩ := Prod.mk.inj (Option.some.inj h)
        exact ⟨List.length_pos_iff.mpr hstream, Nat.le_refl _⟩

theorem next_of_nextBlock {m block next : IResponseMemory} {stream : Str} {length : Nat}
    (hm : Moded m) (hlive : Live m) (h : m.nextBlock stream = some (block, length))
    (hcall : block.onBufferedData (stream.take length) = .returns false next) :
    Framed next.clear ∧ Live next.clear := by
  obtain ⟨htransition, hvalue⟩ := transition_of_returns hcall
  have hlive' := htransition.live (nextBlock_live hlive h) (of_decide_eq_false hvalue.symm)
  exact ⟨(htransition.moded (nextBlock_moded hm h)).clear, hlive'.same rfl rfl fun _ => rfl⟩

/-- **Every stream has a reading.** -/
theorem exists_reads {m : IResponseMemory} (hm : Framed m) (hlive : Live m) (stream : Str) :
    ∃ reading, Reads m stream reading := by
  induction hlength : stream.length using Nat.strong_induction_on generalizing m stream with
  | _ n ih =>
      cases hblock : m.nextBlock stream with
      | none => exact ⟨_, .waits hblock⟩
      | some answer =>
          obtain ⟨block, length⟩ := answer
          cases hcall : block.onBufferedData (stream.take length) with
          | returns value next =>
              cases value with
              | true => exact ⟨_, .finishes hblock hcall⟩
              | false =>
                  obtain ⟨hpos, hle⟩ := length_pos_of_nextBlock hm.moded hlive hblock hcall
                  obtain ⟨hnext, hlive'⟩ := next_of_nextBlock hm.moded hlive hblock hcall
                  obtain ⟨reading, hreading⟩ := ih (stream.drop length).length
                    (by rw [List.length_drop]; omega) hnext hlive' (stream.drop length) rfl
                  exact ⟨reading, .goesOn hblock hcall hreading⟩
          | throws error next =>
              have hfinished := (throws_iff.mp hcall).1
              rw [(nextBlock_derived hblock).1] at hfinished
              exact absurd hfinished hlive.not_finished
          | undefined => exact ⟨_, .undefined hblock hcall⟩
          | running => exact absurd hcall (onBufferedData_ne_running _ _)

end IResponseMemory

end Rikitiki
