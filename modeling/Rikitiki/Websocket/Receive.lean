import Rikitiki.Websocket.Write
import Rikitiki.Library.Run

/-!
# Receiving websocket frames

`WebsocketProcess::OnReceiveFrame` collects frames in the message that is going on, and hands it to the
virtual `OnReceiveMessage` with the frame that finishes it. `Frame::Init` takes the bit of `Close` for the
one that finishes a message. No frame of text or binary data has that bit, so nothing is ever handed over.
-/

namespace Rikitiki.Websocket

open WebsocketFrames (WireFrame Carries firstByte)

/-! ### Frames and messages -/

/-- What `Frame::Init` stores about a frame. -/
structure FrameInfo where
  opcode : Byte
  length : Nat
  isFinished : Bool
  deriving DecidableEq, Repr

/-- `FrameInfo::OpCode` -/
def FrameInfo.opCode (info : FrameInfo) : Byte := info.opcode &&& 0xFF

structure Frame where
  info : FrameInfo
  data : Str
  deriving DecidableEq, Repr

/-- `Frame::Init`, which is all the constructor from a first byte does. -/
def Frame.init (opcode : Byte) (buffer : Str) (len : Nat) : Frame where
  info :=
    { length := len
      isFinished := 0 < opcode &&& OpCode.close
      opcode := opcode &&& 0xEF }
  data := buffer

structure Message where
  opCode : Byte
  data : Str
  frameLength : Nat
  deriving DecidableEq, Repr

/-- How an operation on a message goes wrong. -/
inductive Failure where
  /-- `assert(opCode == frame.info.OpCode())` -/
  | assertion
  | threw (message : Message)
  /-- `memcpy` leaves the memory it may use -/
  | overrun
  deriving DecidableEq, Repr

/-- The largest size of a `std::vector` of bytes. -/
def maxSize : Nat := 2 ^ 63 - 1

/-- `Message::Ingest` -/
def Message.ingest (message : Message) (frame : Frame) : Except Failure Message :=
  if message.opCode ≠ frame.info.opCode then .error .assertion
  else
    let message := { message with frameLength := message.frameLength + 1 }
    let baseSize := message.data.length
    if frame.info.length = 0 then .ok message
    else
      let size := (baseSize + frame.info.length) % 2 ^ 64
      if npos < size ∨ maxSize < size then .error (.threw message)
      else if size < baseSize + frame.info.length ∨ frame.data.length < frame.info.length then .error .overrun
      else .ok { message with data := message.data ++ frame.data.take frame.info.length }

/-- The constructor of `Message`. -/
def Message.new (frame : Frame) : Except Failure Message :=
  Message.ingest ⟨frame.info.opCode, [], 0⟩ frame

/-- The virtual calls by which `OnReceiveMessage` passes a message on. -/
inductive Receipt where
  | text (data : Str)
  | binary (data : Str)
  deriving DecidableEq, Repr

/-- `WebsocketProcess::OnReceiveMessage`, when it is not overridden. -/
def Message.receipt (message : Message) : Option Receipt :=
  if message.opCode &&& OpCode.text ≠ 0 then some (.text message.data)
  else if message.opCode &&& OpCode.binary ≠ 0 then some (.binary message.data)
  else none

/-! ### Processes -/

structure WebsocketProcess where
  ongoingMessage : Option Message := none
  deriving DecidableEq, Repr

/-- The message that is going on once a frame has been added to it. -/
def WebsocketProcess.ingest (process : WebsocketProcess) (frame : Frame) : Except Failure Message :=
  match process.ongoingMessage with
  | none => Message.new frame
  | some message => message.ingest frame

/-- `WebsocketProcess::OnReceiveFrame`: what it returns, the call of `OnReceiveMessage` it makes, and the
process behind it. -/
def WebsocketProcess.onReceiveFrame (onReceiveMessage : Message → Bool) (process : WebsocketProcess)
    (frame : Frame) : Except Failure (Bool × Option Message × WebsocketProcess) :=
  (process.ingest frame).map fun message =>
    if frame.info.isFinished then
      (onReceiveMessage message, some message, { process with ongoingMessage := none })
    else (true, none, { process with ongoingMessage := some message })

def Frame.ofWire (frame : WireFrame) : Frame :=
  .init (firstByte frame.fin frame.opcode) frame.payload frame.payload.length

/-- Receive frames one after the other: the calls of `OnReceiveMessage`, if nothing goes wrong. -/
def receive (onReceiveMessage : Message → Bool) :
    WebsocketProcess → List WireFrame → Option (List (Option Message) × WebsocketProcess) :=
  Run.run fun process frame =>
    match process.onReceiveFrame onReceiveMessage (.ofWire frame) with
    | .ok (_, message, process) => some (message, process)
    | .error _ => none

/-! ### Messages that are sent -/

/-- A message of text or binary data and the frames it is sent in. -/
structure SentMessage where
  opcode : Byte
  payload : Str
  frames : List WireFrame
  opcode_data : opcode = OpCode.text ∨ opcode = OpCode.binary
  frames_ne_nil : frames ≠ []
  carries : Carries opcode payload frames

/-- Messages are put together again: behind the frames of the first of them each has been handed over
once, in order, and none is going on. -/
def Reassembled (onReceiveMessage : Message → Bool) (sent : List SentMessage) : Prop :=
  ∀ front back, sent = front ++ back → ∃ calls,
    receive onReceiveMessage {} (front.flatMap SentMessage.frames) = some (calls, { ongoingMessage := none }) ∧
    (calls.filterMap id).map (fun message => (message.opCode, message.data))
      = front.map fun message => (message.opcode, message.payload)

/-- The opcodes of the frames of a message of data. -/
def DataOpcode (opcode : Byte) : Prop :=
  opcode = OpCode.continuation ∨ opcode = OpCode.text ∨ opcode = OpCode.binary

theorem SentMessage.dataOpcode (message : SentMessage) {frame : WireFrame} (h : frame ∈ message.frames) :
    DataOpcode frame.opcode := by
  obtain ⟨i, hi⟩ := List.mem_iff_getElem?.mp h
  have hopcode := message.carries.opcode_eq i frame hi
  rw [DataOpcode, hopcode]
  split
  · exact .inr message.opcode_data
  · exact .inl rfl

/-- **A frame of data never finishes a message**, its FIN bit being set or not. -/
theorem not_isFinished {frame : WireFrame} (h : DataOpcode frame.opcode) :
    (Frame.ofWire frame).info.isFinished = false := by
  have hall : ∀ fin opcode, (opcode = OpCode.continuation ∨ opcode = OpCode.text ∨ opcode = OpCode.binary) →
      decide (0 < firstByte fin opcode &&& OpCode.close) = false := by
    rintro (_ | _) opcode (rfl | rfl | rfl) <;> rfl
  exact hall frame.fin frame.opcode h

theorem onReceiveFrame_unfinished {onReceiveMessage : Message → Bool} {process next : WebsocketProcess}
    {frame : Frame} {value : Bool} {call : Option Message} (hframe : frame.info.isFinished = false)
    (hcall : process.onReceiveFrame onReceiveMessage frame = .ok (value, call, next)) :
    call = none ∧ ∃ message, process.ingest frame = .ok message ∧ next.ongoingMessage = some message := by
  rw [WebsocketProcess.onReceiveFrame] at hcall
  cases hingest : process.ingest frame with
  | error failure =>
      rw [hingest] at hcall
      cases hcall
  | ok message =>
      rw [hingest, Except.map] at hcall
      simp only [hframe, Bool.false_eq_true, if_false, Except.ok.injEq, Prod.mk.injEq] at hcall
      obtain ⟨-, rfl, rfl⟩ := hcall
      exact ⟨rfl, message, rfl, rfl⟩

theorem step_data {onReceiveMessage : Message → Bool} {process last : WebsocketProcess} {frame : WireFrame}
    {frames : List WireFrame} {calls : List (Option Message)} (hframe : DataOpcode frame.opcode)
    (hreceive : receive onReceiveMessage process (frame :: frames) = some (calls, last)) :
    ∃ message others, process.ingest (.ofWire frame) = .ok message ∧ calls = none :: others ∧
      receive onReceiveMessage { ongoingMessage := some message } frames = some (others, last) := by
  obtain ⟨call, others, next, hstep, hrun, rfl⟩ := Run.run_cons_eq_some.mp hreceive
  cases hcall : process.onReceiveFrame onReceiveMessage (.ofWire frame) with
  | error failure =>
      rw [hcall] at hstep
      cases hstep
  | ok answer =>
      obtain ⟨value, call', next'⟩ := answer
      rw [hcall] at hstep
      obtain ⟨rfl, rfl⟩ := Prod.mk.inj (Option.some.inj hstep)
      obtain ⟨rfl, message, hingest, hongoing⟩ := onReceiveFrame_unfinished (not_isFinished hframe) hcall
      obtain ⟨ongoing⟩ := next'
      subst hongoing
      exact ⟨message, others, hingest, rfl, hrun⟩

theorem receive_data {onReceiveMessage : Message → Bool} {process last : WebsocketProcess}
    {frames : List WireFrame} {calls : List (Option Message)}
    (hframes : ∀ frame ∈ frames, DataOpcode frame.opcode)
    (hreceive : receive onReceiveMessage process frames = some (calls, last)) :
    calls.filterMap id = [] ∧ (frames ≠ [] → last.ongoingMessage ≠ none) := by
  induction frames generalizing process calls with
  | nil =>
      obtain ⟨rfl, rfl⟩ := Prod.mk.inj (Option.some.inj hreceive)
      simp
  | cons frame frames ih =>
      obtain ⟨hframe, hrest⟩ := List.forall_mem_cons.mp hframes
      obtain ⟨message, others, -, rfl, hrun⟩ := step_data hframe hreceive
      obtain ⟨hothers, hlast⟩ := ih hrest hrun
      refine ⟨by simpa using hothers, fun _ => ?_⟩
      cases frames with
      | nil =>
          obtain ⟨-, rfl⟩ := Prod.mk.inj (Option.some.inj hrun)
          simp
      | cons frame' frames => exact hlast (by simp)

/-- **Messages are put together again** exactly when there is none. -/
theorem reassembled_iff (onReceiveMessage : Message → Bool) (sent : List SentMessage) :
    Reassembled onReceiveMessage sent ↔ sent = [] := by
  constructor
  · intro h
    cases sent with
    | nil => rfl
    | cons message others =>
        obtain ⟨calls, hreceive, -⟩ := h [message] others rfl
        rw [List.flatMap_singleton] at hreceive
        have hdata := receive_data (fun frame hframe => message.dataOpcode hframe) hreceive
        exact absurd rfl (hdata.2 message.frames_ne_nil)
  · rintro rfl front back hsplit
    obtain ⟨rfl, -⟩ := List.append_eq_nil_iff.mp hsplit.symm
    exact ⟨[], rfl, rfl⟩

def hello : SentMessage where
  opcode := OpCode.text
  payload := lit "hello"
  frames := [⟨true, OpCode.text, lit "hello"⟩]
  opcode_data := .inl rfl
  frames_ne_nil := by simp
  carries := by
    have hcarries : Carries OpCode.text (lit "hello" ++ []) [⟨true, OpCode.text, lit "hello"⟩] :=
      .cons (by simp) (.nil 0)
    rwa [List.append_nil] at hcarries

theorem not_forall_reassembled :
    ¬ ∀ (onReceiveMessage : Message → Bool) (sent : List SentMessage), Reassembled onReceiveMessage sent := by
  intro h
  obtain ⟨calls, hreceive, -⟩ := h (fun _ => true) [hello] [hello] [] rfl
  have hongoing : (receive (fun _ => true) {} ([hello].flatMap SentMessage.frames)).map Prod.snd
      = some { ongoingMessage := some ⟨0x81, lit "hello", 1⟩ } := by decide
  rw [hreceive] at hongoing
  cases hongoing

/-! ### Messages in more than one frame -/

theorem opCode_of_ingest {message message' : Message} {frame : Frame}
    (h : message.ingest frame = .ok message') :
    message'.opCode = message.opCode ∧ message.opCode = frame.info.opCode := by
  rw [Message.ingest] at h
  split at h
  · cases h
  · rename_i hopcode
    have hsame : message.opCode = frame.info.opCode := not_not.mp hopcode
    simp only at h
    split at h
    · cases h
      exact ⟨rfl, hsame⟩
    · split at h
      · cases h
      · split at h
        · cases h
        · cases h
          exact ⟨rfl, hsame⟩

theorem ingest_eq_ok {message message' : Message} {frame : Frame} (hlength : frame.info.length = frame.data.length)
    (h : message.ingest frame = .ok message') :
    message' = ⟨message.opCode, message.data ++ frame.data, message.frameLength + 1⟩ ∧
      frame.info.opCode = message.opCode := by
  have hopcode := (opCode_of_ingest h).2.symm
  refine ⟨?_, hopcode⟩
  rw [Message.ingest, if_neg (not_not.mpr hopcode.symm)] at h
  simp only at h
  split at h
  · rename_i hempty
    rw [hlength] at hempty
    rw [List.eq_nil_of_length_eq_zero hempty, List.append_nil]
    exact (Except.ok.inj h).symm
  · split at h
    · cases h
    · split at h
      · cases h
      · rw [hlength, List.take_length] at h
        exact (Except.ok.inj h).symm

/-- A frame that is as long as it says is taken in exactly if it has the opcode of the message, and its data fits
into a vector behind the data of that. -/
theorem ingest_isOk {message : Message} {frame : Frame} (hlength : frame.info.length = frame.data.length) :
    (∃ message', message.ingest frame = .ok message') ↔ frame.info.opCode = message.opCode ∧
      (frame.data = [] ∨ message.data.length + frame.data.length ≤ maxSize) := by
  constructor
  · intro h
    obtain ⟨message', hingest⟩ := h
    refine ⟨(opCode_of_ingest hingest).2.symm, ?_⟩
    rw [Message.ingest, if_neg (not_not.mpr (opCode_of_ingest hingest).2), hlength] at hingest
    simp only at hingest
    split at hingest
    · rename_i hempty
      exact .inl (List.eq_nil_of_length_eq_zero hempty)
    · split at hingest
      · cases hingest
      · split at hingest
        · cases hingest
        · right
          omega
  · intro h
    obtain ⟨hopcode, hsize⟩ := h
    rw [Message.ingest, if_neg (not_not.mpr hopcode.symm), hlength]
    simp only
    split
    · exact ⟨_, rfl⟩
    · rename_i hne
      have hfits : message.data.length + frame.data.length ≤ maxSize :=
        hsize.resolve_left fun hnil => hne (by rw [hnil, List.length_nil])
      have hmod : (message.data.length + frame.data.length) % 2 ^ 64 = message.data.length + frame.data.length :=
        Nat.mod_eq_of_lt (by rw [maxSize] at hfits; omega)
      rw [hmod, if_neg (by rw [maxSize] at *; rw [npos]; omega), if_neg (by omega)]
      exact ⟨_, rfl⟩

def WebsocketProcess.held (process : WebsocketProcess) : Str := process.ongoingMessage.elim [] Message.data

theorem WebsocketProcess.ingest_isOk (process : WebsocketProcess) {frame : Frame}
    (hlength : frame.info.length = frame.data.length) :
    (∃ message, process.ingest frame = .ok message) ↔
      (∀ message ∈ process.ongoingMessage, frame.info.opCode = message.opCode) ∧
      (frame.data = [] ∨ process.held.length + frame.data.length ≤ maxSize) := by
  obtain ⟨ongoing⟩ := process
  cases ongoing with
  | none =>
      apply (Websocket.ingest_isOk hlength).trans
      simp [held]
  | some message =>
      apply (Websocket.ingest_isOk hlength).trans
      simp [held]

theorem WebsocketProcess.ingest_eq_ok {process : WebsocketProcess} {frame : Frame} {message : Message}
    (hlength : frame.info.length = frame.data.length) (h : process.ingest frame = .ok message) :
    message.opCode = frame.info.opCode ∧ message.data = process.held ++ frame.data := by
  obtain ⟨ongoing⟩ := process
  cases ongoing with
  | none =>
      obtain ⟨rfl, -⟩ := Websocket.ingest_eq_ok hlength h
      exact ⟨rfl, rfl⟩
  | some before =>
      obtain ⟨rfl, hopcode⟩ := Websocket.ingest_eq_ok hlength h
      exact ⟨hopcode.symm, rfl⟩

/-- **A message in more than one frame fails an assertion**, if nothing fails before: the opcode of its
second frame is not the one of its first. -/
theorem receive_fragmented (onReceiveMessage : Message → Bool) (message : SentMessage)
    (hframes : 2 ≤ message.frames.length) : receive onReceiveMessage {} message.frames = none := by
  obtain ⟨first, second, others, hsplit⟩ : ∃ first second others, message.frames = first :: second :: others := by
    match message.frames, hframes with
    | first :: second :: others, _ => exact ⟨first, second, others, rfl⟩
  cases hreceive : receive onReceiveMessage {} message.frames with
  | none => rfl
  | some outcome =>
      obtain ⟨calls, last⟩ := outcome
      have hfirst : first.opcode = message.opcode ∧ first.fin = false := by
        have hmem : message.frames[0]? = some first := by rw [hsplit]; rfl
        have hfin := message.carries.fin_iff 0 first hmem
        refine ⟨message.carries.opcode_eq 0 first hmem, Bool.eq_false_iff.mpr fun htrue => ?_⟩
        have hlength := hfin.mp htrue
        omega
      have hsecond : second.opcode = OpCode.continuation := by
        have hmem : message.frames[1]? = some second := by rw [hsplit]; rfl
        exact message.carries.opcode_eq 1 second hmem
      have hdata : ∀ frame ∈ message.frames, DataOpcode frame.opcode := fun frame => message.dataOpcode
      rw [hsplit] at hreceive hdata
      obtain ⟨ongoing, calls₁, hingest, -, hrun⟩ := step_data (hdata first (by simp)) hreceive
      obtain ⟨last₁, calls₂, hingest', -⟩ := step_data (hdata second (by simp)) hrun
      have hopcode := (opCode_of_ingest hingest').2
      have hnew : Message.ingest ⟨(Frame.ofWire first).info.opCode, [], 0⟩ (.ofWire first) = .ok ongoing :=
        hingest
      rw [(opCode_of_ingest hnew).1] at hopcode
      have hne : ∀ fin opcode, (opcode = OpCode.text ∨ opcode = OpCode.binary) →
          (firstByte false opcode &&& 0xEF &&& 0xFF) ≠ (firstByte fin OpCode.continuation &&& 0xEF &&& 0xFF) := by
        rintro (_ | _) opcode (rfl | rfl) <;> decide
      refine absurd hopcode ?_
      have hfinal := hne second.fin message.opcode message.opcode_data
      rw [← hfirst.1, ← hfirst.2, ← hsecond] at hfinal
      exact hfinal

end Rikitiki.Websocket
