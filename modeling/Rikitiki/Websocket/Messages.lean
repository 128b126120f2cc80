import Rikitiki.Library.Machine
import Rikitiki.Websocket.Write

/-!
# Messages that are written

A context sends one message for each call of `Write`. The loop of `Write` makes no turn for empty data, so a
message without a payload is not sent, and the receiver cannot know that there was one.
-/

namespace Rikitiki.Websocket

open Endian (ByteOrder)
open WebsocketFrames (WireFrame DataMessage Carries)

structure WriteCall where
  buffer : Str
  opcode : Byte
  opcode_data : opcode = OpCode.text ∨ opcode = OpCode.binary

def WriteCall.message (call : WriteCall) : DataMessage := ⟨call.opcode, call.buffer⟩

/-- `Write` in a context on which `raw_write` has been called before. -/
def callWrite (order : ByteOrder) (rawWrite : RawWrite) (calls : List Str) (call : WriteCall) :
    WriteEnd × List Str :=
  let (calls, result) := writeLoop order rawWrite call.buffer.length call.opcode call.buffer calls
  (result, calls)

/-- Calls of `Write` one after the other: how each ends, and the calls of `raw_write`. -/
def writeAll (order : ByteOrder) (rawWrite : RawWrite) (sent : List WriteCall) : List WriteEnd × List Str :=
  Machine.run (callWrite order rawWrite) [] sent

/-- The receiver of all that is written sees the messages of the calls, in order. -/
def Received (order : ByteOrder) (rawWrite : RawWrite) (sent : List WriteCall) : Prop :=
  WebsocketFrames.receive (writeAll order rawWrite sent).2.flatten = some (sent.map WriteCall.message)

/-! ### A call that succeeds -/

def WriteCall.frames (call : WriteCall) : List WireFrame := parts call.buffer.length call.opcode call.buffer

theorem WriteCall.carries (call : WriteCall) : Carries call.opcode call.buffer call.frames :=
  carries_parts (Nat.le_refl _) call.opcode

theorem WriteCall.frames_eq_nil (call : WriteCall) : call.frames = [] ↔ call.buffer = [] :=
  parts_eq_nil (Nat.le_refl _) call.opcode

theorem WriteCall.sendable (call : WriteCall) {frame : WireFrame} (h : frame ∈ call.frames) : frame.Sendable := by
  apply sendable_of_mem_parts _ h
  rcases call.opcode_data with hopcode | hopcode
  · rw [hopcode]
    decide
  · rw [hopcode]
    decide

def accepting : RawWrite := fun _ _ => some 1

theorem rawWriteEnd_ne_done (rawWrite : RawWrite) (calls : List Str) (bytes : Str) :
    rawWriteEnd rawWrite calls bytes ≠ some .done := by
  rw [rawWriteEnd]
  split
  · simp
  · split
    · simp
    · simp

theorem writeLoop_of_done {order : ByteOrder} {rawWrite : RawWrite} {fuel : Nat} {first : Byte} {buffer : Str}
    {calls : List Str} (hdone : (writeLoop order rawWrite fuel first buffer calls).2 = .done) :
    writeLoop order rawWrite fuel first buffer calls = writeLoop order accepting fuel first buffer calls := by
  have haccepting : ∀ calls bytes, rawWriteEnd accepting calls bytes = none := fun _ _ => rfl
  have hfailed : ∀ {calls : List Str} {bytes : Str} {result : WriteEnd},
      rawWriteEnd rawWrite calls bytes = some result → result ≠ .done := by
    rintro calls bytes result hresult rfl
    exact rawWriteEnd_ne_done rawWrite calls bytes hresult
  induction fuel generalizing first buffer calls with
  | zero => rfl
  | succ fuel ih =>
      by_cases hempty : buffer.length = 0
      · simp only [writeLoop, if_pos hempty]
      simp only [writeLoop, if_neg hempty, haccepting] at hdone ⊢
      generalize (if maxFrame < buffer.length then maxFrame else buffer.length) = sendSize at hdone ⊢
      generalize frameHeader order _ sendSize = header at hdone ⊢
      cases hheader : rawWriteEnd rawWrite calls header with
      | some result =>
          rw [hheader] at hdone
          exact absurd hdone (hfailed hheader)
      | none =>
          rw [hheader] at hdone
          cases hdata : rawWriteEnd rawWrite (calls ++ [header]) (buffer.take sendSize) with
          | some result =>
              rw [hdata] at hdone
              exact absurd hdone (hfailed hdata)
          | none =>
              rw [hdata] at hdone
              exact ih hdone

/-- **A call that is done** has sent its frames. -/
theorem callWrite_of_done {order : ByteOrder} {rawWrite : RawWrite} {calls : List Str} {call : WriteCall}
    (hdone : (callWrite order rawWrite calls call).1 = .done) :
    (callWrite order rawWrite calls call).2 = calls ++ call.frames.flatMap frameCalls := by
  have haccepting : ∀ calls bytes, bytes ≠ [] → rawWriteEnd accepting calls bytes = none := fun _ _ _ => rfl
  have hloop := writeLoop_of_done hdone
  rw [writeLoop_eq haccepting (Nat.le_refl _)] at hloop
  rw [callWrite, hloop]
  rfl

theorem run_of_done {order : ByteOrder} {rawWrite : RawWrite} {calls : List Str} {sent : List WriteCall}
    (hdone : ∀ result ∈ (Machine.run (callWrite order rawWrite) calls sent).1, result = .done) :
    (Machine.run (callWrite order rawWrite) calls sent).2
      = calls ++ (sent.flatMap WriteCall.frames).flatMap frameCalls := by
  induction sent generalizing calls with
  | nil => simp
  | cons call sent ih =>
      rw [Machine.run_cons, List.forall_mem_cons] at hdone
      rw [Machine.run_cons, ih hdone.2, callWrite_of_done hdone.1, List.flatMap_cons, List.flatMap_append,
        List.append_assoc]

/-! ### What the receiver sees -/

theorem messages_frames (sent : List WriteCall) :
    WebsocketFrames.messages none (sent.flatMap WriteCall.frames)
      = some ((sent.filter fun call => call.buffer ≠ []).map WriteCall.message) := by
  induction sent with
  | nil => rfl
  | cons call sent ih =>
      rw [List.flatMap_cons]
      by_cases hempty : call.buffer = []
      · rw [call.frames_eq_nil.mpr hempty, List.nil_append, ih, List.filter_cons_of_neg (by simp [hempty])]
      · have hframes : call.frames ≠ [] := fun hnil => hempty (call.frames_eq_nil.mp hnil)
        rw [WebsocketFrames.messages_append call.opcode_data call.carries hframes, ih,
          List.filter_cons_of_pos (by simp [hempty])]
        rfl

/-- **The messages that are received** are those with a payload. -/
theorem receive_writeAll {order : ByteOrder} {rawWrite : RawWrite} {sent : List WriteCall}
    (hdone : ∀ result ∈ (writeAll order rawWrite sent).1, result = .done) :
    WebsocketFrames.receive (writeAll order rawWrite sent).2.flatten
      = some ((sent.filter fun call => call.buffer ≠ []).map WriteCall.message) := by
  have hsendable : ∀ frame ∈ sent.flatMap WriteCall.frames, frame.Sendable := by
    intro frame hframe
    obtain ⟨call, -, hmem⟩ := List.mem_flatMap.mp hframe
    exact call.sendable hmem
  rw [writeAll, run_of_done hdone, List.nil_append, flatten_frameCalls, WebsocketFrames.receive,
    WebsocketFrames.parse_encode hsendable, Option.bind_some, messages_frames]

/-- **No message is lost** exactly if none is empty. -/
theorem received_iff {order : ByteOrder} {rawWrite : RawWrite} {sent : List WriteCall}
    (hdone : ∀ result ∈ (writeAll order rawWrite sent).1, result = .done) :
    Received order rawWrite sent ↔ ∀ call ∈ sent, call.buffer ≠ [] := by
  rw [Received, receive_writeAll hdone, Option.some.injEq]
  constructor
  · intro hsame
    have hlength := congrArg List.length hsame
    rw [List.length_map, List.length_map, List.length_filter_eq_length_iff] at hlength
    simpa using hlength
  · intro hall
    rw [List.filter_eq_self.mpr (by simpa using hall)]

theorem text_data : OpCode.text = OpCode.text ∨ OpCode.text = OpCode.binary := .inl rfl

theorem binary_data : OpCode.binary = OpCode.text ∨ OpCode.binary = OpCode.binary := .inr rfl

def twoCalls : List WriteCall := [⟨lit "hi", OpCode.text, text_data⟩, ⟨[0, 1], OpCode.binary, binary_data⟩]

theorem received_twoCalls : Received .little counting twoCalls :=
  (received_iff (by decide)).mpr (by decide)

/-- An empty text is not sent. -/
theorem not_forall_received :
    ¬ ∀ (rawWrite : RawWrite) (sent : List WriteCall),
      (∀ result ∈ (writeAll .little rawWrite sent).1, result = .done) → Received .little rawWrite sent := by
  intro h
  have hreceived := h counting [⟨[], OpCode.text, text_data⟩] (by decide)
  rw [Received] at hreceived
  exact absurd hreceived (by decide)

end Rikitiki.Websocket
