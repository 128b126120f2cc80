import Rikitiki.Websocket.Receive

/-!
# The size of a message

`Message::Ingest` adds the length of a frame to the size of its message in 64 bits. The guard in front of it
compares the sum with the largest number of 64 bits, so it never holds; what stops a message that is too large
is `std::vector::resize`, if the sum has not wrapped. All memory that a vector may ask for is there.
-/

namespace Rikitiki.Websocket

/-- How a call of `Ingest` that comes back ends. -/
inductive IngestEnd where
  | stored
  | threw
  deriving DecidableEq, Repr

/-- A message with the sum of the lengths that have been ingested. -/
structure Ledger where
  message : Message
  total : Nat

/-- The message that `Ingest` is first called on by the constructor. -/
def Ledger.start (opCode : Byte) : Ledger := ⟨⟨opCode, [], 0⟩, 0⟩

/-- A call of `Ingest` that neither fails its assertion nor leaves its memory. -/
def Ledger.ingest (ledger : Ledger) (frame : Frame) : Option (IngestEnd × Ledger) :=
  match ledger.message.ingest frame with
  | .ok message => some (.stored, ⟨message, ledger.total + frame.info.length⟩)
  | .error (.threw message) => some (.threw, ⟨message, ledger.total⟩)
  | .error _ => none

/-- After a call an exception was thrown and the data are the same, or their size is the sum. -/
def Exact (before : Ledger) (result : IngestEnd) (after : Ledger) : Prop :=
  (result = .threw ∧ after.message.data = before.message.data) ∨ after.message.data.length = after.total

/-- A frame for a message: it has the opcode of the message, and a length of 64 bits that counts the bytes it
points to. -/
structure Ingestible (opCode : Byte) (frame : Frame) : Prop where
  opcode : frame.info.opCode = opCode
  length_lt : frame.info.length < 2 ^ 64
  memory : frame.info.length ≤ frame.data.length

/-- No sum wraps: each length is added to those that were stored before it, and is stored itself if a vector can
have the size. -/
def NoWrap : Nat → List Nat → Prop
  | _, [] => True
  | total, length :: lengths =>
    total + length < 2 ^ 64 ∧ NoWrap (if total + length ≤ maxSize then total + length else total) lengths

instance decidableNoWrap : ∀ (total : Nat) (lengths : List Nat), Decidable (NoWrap total lengths)
  | _, [] => isTrue trivial
  | total, length :: lengths =>
    have := decidableNoWrap (if total + length ≤ maxSize then total + length else total) lengths
    inferInstanceAs (Decidable (_ ∧ _))

/-- A ledger whose total is the size of the data. -/
structure Ledger.Balanced (opCode : Byte) (ledger : Ledger) : Prop where
  opcode : ledger.message.opCode = opCode
  size : ledger.message.data.length = ledger.total
  le : ledger.total ≤ maxSize

/-! ### One frame -/

variable {opCode : Byte} {ledger : Ledger} {frame : Frame}

theorem Ledger.Balanced.opcode_eq (h : ledger.Balanced opCode) (hframe : Ingestible opCode frame) :
    ¬ ledger.message.opCode ≠ frame.info.opCode := by
  rw [h.opcode, hframe.opcode]
  exact not_not.mpr rfl

theorem Ledger.Balanced.ingest_stored (h : ledger.Balanced opCode) (hframe : Ingestible opCode frame)
    (hle : ledger.total + frame.info.length ≤ maxSize) :
    ∃ after, ledger.ingest frame = some (.stored, after) ∧ after.Balanced opCode ∧
      after.total = ledger.total + frame.info.length := by
  have hmemory := hframe.memory
  have hsize := h.size
  rw [maxSize] at hle
  by_cases hempty : frame.info.length = 0
  · refine ⟨⟨{ ledger.message with frameLength := ledger.message.frameLength + 1 },
      ledger.total + frame.info.length⟩, ?_, ?_, rfl⟩
    · rw [Ledger.ingest, Message.ingest, if_neg (h.opcode_eq hframe)]
      simp only [if_pos hempty]
    · exact ⟨h.opcode, by simpa [hempty] using hsize, by simpa [hempty] using h.le⟩
  · refine ⟨⟨{ ledger.message with
      frameLength := ledger.message.frameLength + 1
      data := ledger.message.data ++ frame.data.take frame.info.length },
      ledger.total + frame.info.length⟩, ?_, ?_, rfl⟩
    · have hsum : (ledger.message.data.length + frame.info.length) % 2 ^ 64
          = ledger.message.data.length + frame.info.length := Nat.mod_eq_of_lt (by omega)
      rw [Ledger.ingest, Message.ingest, if_neg (h.opcode_eq hframe)]
      simp only [if_neg hempty, hsum]
      rw [if_neg (by rw [npos, maxSize]; omega), if_neg (by omega)]
    · refine ⟨h.opcode, ?_, hle⟩
      rw [List.length_append, List.length_take_of_le hmemory, hsize]

theorem Ledger.Balanced.ingest_threw (h : ledger.Balanced opCode) (hframe : Ingestible opCode frame)
    (hlarge : maxSize < ledger.total + frame.info.length) (hlt : ledger.total + frame.info.length < 2 ^ 64) :
    ∃ after, ledger.ingest frame = some (.threw, after) ∧ after.Balanced opCode ∧
      after.message.data = ledger.message.data ∧ after.total = ledger.total := by
  have hsize := h.size
  have hle := h.le
  have hsum : (ledger.message.data.length + frame.info.length) % 2 ^ 64
      = ledger.message.data.length + frame.info.length := Nat.mod_eq_of_lt (by omega)
  refine ⟨⟨{ ledger.message with frameLength := ledger.message.frameLength + 1 }, ledger.total⟩, ?_,
    ⟨h.opcode, hsize, hle⟩, rfl, rfl⟩
  rw [Ledger.ingest, Message.ingest, if_neg (h.opcode_eq hframe)]
  simp only [if_neg (show frame.info.length ≠ 0 by omega), hsum]
  rw [if_pos (.inr (by omega))]

/-- **A sum that wraps** passes the guard and the vector, and the copy leaves the memory of the data. -/
theorem Ledger.Balanced.ingest_wraps (h : ledger.Balanced opCode) (hframe : Ingestible opCode frame)
    (hwraps : 2 ^ 64 ≤ ledger.total + frame.info.length) : ledger.ingest frame = none := by
  have hsize := h.size
  have hle := h.le
  have hlength := hframe.length_lt
  rw [maxSize] at hle
  rw [Ledger.ingest, Message.ingest, if_neg (h.opcode_eq hframe)]
  simp only [if_neg (show frame.info.length ≠ 0 by omega)]
  rw [if_neg (by rw [npos, maxSize]; omega), if_pos (.inl (by omega))]

/-! ### All frames -/

theorem always_iff {frames : List Frame} (hframes : ∀ frame ∈ frames, Ingestible opCode frame)
    (h : ledger.Balanced opCode) :
    Run.Always Ledger.ingest Exact ledger frames ↔
      NoWrap ledger.total (frames.map fun frame => frame.info.length) := by
  induction frames generalizing ledger with
  | nil => exact iff_of_true (Run.always_nil _ _ _) trivial
  | cons frame frames ih =>
      obtain ⟨hframe, hrest⟩ := List.forall_mem_cons.mp hframes
      rw [List.map_cons, NoWrap]
      by_cases hwraps : 2 ^ 64 ≤ ledger.total + frame.info.length
      · have hstep := h.ingest_wraps hframe hwraps
        exact iff_of_false (Run.not_always_cons_of_none hstep _) fun hno => Nat.not_lt.mpr hwraps hno.1
      have hlt := Nat.lt_of_not_le hwraps
      rw [and_iff_right hlt]
      by_cases hle : ledger.total + frame.info.length ≤ maxSize
      · obtain ⟨after, hstep, hafter, htotal⟩ := h.ingest_stored hframe hle
        have hexact : Exact ledger .stored after := .inr hafter.size
        rw [Run.always_cons_of_some hstep, and_iff_right hexact, ih hrest hafter, if_pos hle, htotal]
      · obtain ⟨after, hstep, hafter, hdata, htotal⟩ := h.ingest_threw hframe (Nat.lt_of_not_le hle) hlt
        have hexact : Exact ledger .threw after := .inl ⟨rfl, hdata⟩
        rw [Run.always_cons_of_some hstep, and_iff_right hexact, ih hrest hafter, if_neg hle, htotal]

theorem balanced_start (opCode : Byte) : (Ledger.start opCode).Balanced opCode := ⟨rfl, rfl, Nat.zero_le _⟩

/-- **The accounting is exact** just if no sum wraps. -/
theorem accounted_iff (opCode : Byte) {frames : List Frame} (hframes : ∀ frame ∈ frames, Ingestible opCode frame) :
    Run.Always Ledger.ingest Exact (.start opCode) frames ↔
      NoWrap 0 (frames.map fun frame => frame.info.length) :=
  always_iff hframes (balanced_start opCode)

def textFrame (data : Str) : Frame := ⟨⟨OpCode.text, data.length, false⟩, data⟩

theorem ingestible_textFrame {data : Str} (h : data.length < 2 ^ 64) : Ingestible OpCode.text (textFrame data) where
  opcode := show OpCode.text &&& 0xFF = OpCode.text by decide
  length_lt := h
  memory := Nat.le_refl _

theorem accounted_hello :
    Run.Always Ledger.ingest Exact (.start OpCode.text) [textFrame (lit "hel"), textFrame (lit "lo")] := by
  refine (accounted_iff OpCode.text ?_).mpr (by decide)
  intro frame hframe
  simp only [List.mem_cons, List.not_mem_nil, or_false] at hframe
  rcases hframe with rfl | rfl
  · exact ingestible_textFrame (by decide)
  · exact ingestible_textFrame (by decide)

/-- Five bytes and `2 ^ 64 - 3` more. -/
theorem not_forall_accounted :
    ¬ ∀ frames : List Frame, (∀ frame ∈ frames, Ingestible OpCode.text frame) →
      Run.Always Ledger.ingest Exact (.start OpCode.text) frames := by
  intro h
  obtain ⟨data, hdata⟩ : ∃ data : Str, data.length = 2 ^ 64 - 3 := ⟨List.replicate _ 0, List.length_replicate⟩
  have hframes : ∀ frame ∈ [textFrame (lit "hello"), textFrame data], Ingestible OpCode.text frame := by
    intro frame hframe
    simp only [List.mem_cons, List.not_mem_nil, or_false] at hframe
    rcases hframe with rfl | rfl
    · exact ingestible_textFrame (by decide)
    · exact ingestible_textFrame (by omega)
  have hhello : (lit "hello").length = 5 := by decide
  obtain ⟨-, hwraps, -⟩ := (always_iff hframes (balanced_start OpCode.text)).mp (h _ hframes)
  change (if 0 + (lit "hello").length ≤ maxSize then 0 + (lit "hello").length else 0) + data.length < 2 ^ 64 at hwraps
  rw [hhello, hdata, if_pos (by rw [maxSize]; omega)] at hwraps
  omega

end Rikitiki.Websocket
