import Rikitiki.Websocket.Registry

/-!
# What closes a connection

`MongooseServer::_wsReceive` closes a process for each frame that has the bit of `Close` in its first byte. That
is the opcode of a `Close` frame, and a part of the opcodes of `Ping` and `Pong`. Any other frame goes to
`OnReceiveFrame`, which collects frames of one opcode and ends the run if it gets another one. Nothing is written
in `OnClose`.
-/

namespace Rikitiki.Websocket

/-- A frame as it comes in: its first byte and its payload. -/
structure ReceivedFrame where
  bits : Byte
  data : Str
  deriving DecidableEq, Repr

/-- A frame whose opcode, the low four bits of its first byte, is the one of `Close`. -/
def ReceivedFrame.IsClose (frame : ReceivedFrame) : Prop := frame.bits &&& 0x0F = OpCode.close

/-- A frame whose first byte has the bit of `Close`. -/
def ReceivedFrame.HasCloseBit (frame : ReceivedFrame) : Prop := frame.bits &&& OpCode.close ≠ 0

instance (frame : ReceivedFrame) : Decidable frame.IsClose := inferInstanceAs (Decidable (_ = _))

instance (frame : ReceivedFrame) : Decidable frame.HasCloseBit := inferInstanceAs (Decidable (_ ≠ _))

def ReceivedFrame.frame (received : ReceivedFrame) : Frame := .init received.bits received.data received.data.length

/-- Frames that a process collects: they have the opcode of its message, which the first of them gives it if none is
going on, and there is room for their data. -/
structure Gathers (process : WebsocketProcess) (frames : List ReceivedFrame) : Prop where
  opcode : ∃ opcode, (∀ message ∈ process.ongoingMessage, message.opCode = opcode) ∧
    ∀ frame ∈ frames, frame.bits &&& 0xEF = opcode
  size : frames.flatMap ReceivedFrame.data = [] ∨
    process.held.length + (frames.flatMap ReceivedFrame.data).length ≤ maxSize

theorem ReceivedFrame.IsClose.hasCloseBit {frame : ReceivedFrame} (h : frame.IsClose) : frame.HasCloseBit := by
  intro hbit
  have hand : frame.bits &&& 0x0F &&& OpCode.close = frame.bits &&& OpCode.close := by
    rw [UInt8.and_assoc]
    rfl
  rw [h, hbit] at hand
  exact absurd hand (by decide)

theorem opCode_and_close (frame : ReceivedFrame) :
    frame.frame.info.opCode &&& OpCode.close = frame.bits &&& OpCode.close := by
  have hmasks : (0xEF : Byte) &&& 0xFF &&& OpCode.close = OpCode.close := by decide
  rw [FrameInfo.opCode, ReceivedFrame.frame, Frame.init, UInt8.and_assoc, UInt8.and_assoc, ← UInt8.and_assoc 0xEF,
    hmasks]

theorem opCode_frame (frame : ReceivedFrame) : frame.frame.info.opCode = frame.bits &&& 0xEF := by
  have hmasks : (0xEF : Byte) &&& 0xFF = 0xEF := by decide
  rw [FrameInfo.opCode, ReceivedFrame.frame, Frame.init, UInt8.and_assoc, hmasks]

theorem ReceivedFrame.isFinished_frame (frame : ReceivedFrame) :
    frame.frame.info.isFinished = decide frame.HasCloseBit := by
  rw [ReceivedFrame.frame, Frame.init]
  exact decide_eq_decide.mpr UInt8.pos_iff_ne_zero

theorem gathers_nil (process : WebsocketProcess) : Gathers process [] where
  opcode := by
    obtain ⟨ongoing⟩ := process
    cases ongoing with
    | none => exact ⟨0, by simp⟩
    | some message => exact ⟨message.opCode, by simp⟩
  size := .inl rfl

theorem gathers_cons {process : WebsocketProcess} {frame : ReceivedFrame} {frames : List ReceivedFrame} :
    Gathers process (frame :: frames) ↔
      ∃ message, process.ingest frame.frame = .ok message ∧ Gathers ⟨some message⟩ frames := by
  have hdata : frame.frame.data = frame.data := rfl
  constructor
  · intro h
    obtain ⟨opcode, hongoing, hframes⟩ := h.opcode
    obtain ⟨hframe, hrest⟩ := List.forall_mem_cons.mp hframes
    have hsize := h.size
    rw [List.flatMap_cons, List.append_eq_nil_iff, List.length_append] at hsize
    have htaken : ∃ message, process.ingest frame.frame = .ok message := by
      refine (process.ingest_isOk rfl).mpr ⟨fun message hmessage => ?_, ?_⟩
      · rw [opCode_frame, hframe, hongoing message hmessage]
      · rw [hdata]
        rcases hsize with hnil | hfits
        · exact .inl hnil.1
        · exact .inr (by omega)
    obtain ⟨message, hingest⟩ := htaken
    obtain ⟨hopcode, hheld⟩ := WebsocketProcess.ingest_eq_ok rfl hingest
    refine ⟨message, hingest, ⟨opcode, ?_, hrest⟩, ?_⟩
    · rintro _ ⟨⟩
      rw [hopcode, opCode_frame, hframe]
    · rcases hsize with hnil | hfits
      · exact .inl hnil.2
      · right
        rw [WebsocketProcess.held, Option.elim_some, hheld, hdata, List.length_append]
        omega
  · intro h
    obtain ⟨message, hingest, hrest⟩ := h
    obtain ⟨hopcode, hheld⟩ := WebsocketProcess.ingest_eq_ok rfl hingest
    obtain ⟨hongoing, hfits⟩ := (process.ingest_isOk rfl).mp ⟨message, hingest⟩
    obtain ⟨opcode, hmessage, hframes⟩ := hrest.opcode
    have hframe : frame.bits &&& 0xEF = opcode := by
      rw [← opCode_frame, ← hopcode]
      exact hmessage message rfl
    refine ⟨⟨opcode, fun before hbefore => ?_, List.forall_mem_cons.mpr ⟨hframe, hframes⟩⟩, ?_⟩
    · rw [← hongoing before hbefore, opCode_frame, hframe]
    · have hsize := hrest.size
      rw [WebsocketProcess.held, Option.elim_some, hheld, List.length_append] at hsize
      rw [List.flatMap_cons, List.length_append]
      rw [hdata] at hsize hfits
      rcases hsize with hnil | hlater
      · rw [hnil, List.append_nil, List.length_nil]
        exact hfits
      · exact .inr (by omega)

namespace Registry

variable (closeKey : WebsocketContext → ConnectionHandle)

def received (conn : ConnectionHandle) (frames : List ReceivedFrame) : List Event :=
  frames.map fun frame => .receive conn frame.bits frame.data 0

/-- The entry of a connection is a process that is alive and has not been closed. -/
structure Open (r : Registry) (conn : ConnectionHandle) (p : ProcessId) : Prop where
  entry : r.processes[conn]? = some (some p)
  alive : (r.objects p).alive = true
  notClosed : Callback.onClose ∉ (r.objects p).callbacks

/-- A connection has no entry, and the process it had is deleted and has been closed once, with no callback
behind it. -/
structure Removed (r : Registry) (conn : ConnectionHandle) (p : ProcessId) : Prop where
  entry : r.processes[conn]? = none
  deleted : (r.objects p).alive = false
  closed : ∃ before, (r.objects p).callbacks = before ++ [.onClose] ∧ Callback.onClose ∉ before

/-- A process is closed and removed by the first `Close` frame: it is open behind the frames in front of that,
each by itself, and removed behind it. -/
def ClosedByCloseOnly (r : Registry) (conn : ConnectionHandle) (p : ProcessId)
    (frames : List ReceivedFrame) : Prop :=
  ∀ front frame back, frames = front ++ frame :: back → (∀ before ∈ front, ¬ before.IsClose) →
    ∃ r₁ r₂, run closeKey r (received conn front) = .ok r₁ ∧ Open r₁ conn p ∧
      step closeKey r₁ (.receive conn frame.bits frame.data 0) = .ok r₂ ∧
      (frame.IsClose → Removed r₂ conn p) ∧ (¬ frame.IsClose → Open r₂ conn p)

theorem Sound.open {r : Registry} (hr : Sound r) {conn : ConnectionHandle} {p : ProcessId}
    (hentry : r.processes[conn]? = some (some p)) : Open r conn p := by
  obtain ⟨q, -, hprocess, halive⟩ := hr.entry conn _ hentry
  obtain rfl := Option.some.inj hprocess
  exact ⟨hentry, halive, hr.stored p ⟨conn, hentry⟩⟩

variable {closeKey} {r : Registry} {conn : ConnectionHandle} {p : ProcessId}

theorem Open.not_removed (h : Open r conn p) : ¬ Removed r conn p := by
  intro hremoved
  have hentry := h.entry
  rw [hremoved.entry] at hentry
  cases hentry

/-! ### One frame -/

theorem Open.step_of_bit (h : Open r conn p) {frame : ReceivedFrame} (hbit : frame.HasCloseBit) :
    step closeKey r (.receive conn frame.bits frame.data 0) = .ok (((r.call p .onClose).delete p).erase conn) := by
  have hclose : (Frame.init frame.bits frame.data frame.data.length).info.opCode &&& OpCode.close ≠ 0 := by
    rw [← ReceivedFrame.frame, opCode_and_close]
    exact hbit
  rw [step, receive, lookup_of_some h.entry]
  simp only [if_pos hclose]
  rfl

theorem Open.removed (h : Open r conn p) : Removed (((r.call p .onClose).delete p).erase conn) conn p where
  entry := by simp [erase]
  deleted := by simp [erase, delete]
  closed := ⟨(r.objects p).callbacks, by simp [erase, delete, Registry.call], h.notClosed⟩

theorem Open.step_of_not_bit (h : Open r conn p) {frame : ReceivedFrame} (hbit : ¬ frame.HasCloseBit) :
    step closeKey r (.receive conn frame.bits frame.data 0) = r.onReceiveFrame p frame.frame := by
  have hclose : ¬ (Frame.init frame.bits frame.data frame.data.length).info.opCode &&& OpCode.close ≠ 0 := by
    rw [← ReceivedFrame.frame, opCode_and_close]
    exact hbit
  rw [step, receive, lookup_of_some h.entry]
  simp only [if_neg hclose]
  rfl

theorem onReceiveFrame_eq_ok {r' : Registry} {frame : ReceivedFrame} (hbit : ¬ frame.HasCloseBit) :
    r.onReceiveFrame p frame.frame = .ok r' ↔ ∃ message,
      (r.objects p).process.ingest frame.frame = .ok message ∧
      r' = r.setObject p { r.objects p with
        process := ⟨some message⟩
        callbacks := (r.objects p).callbacks ++ [.onReceiveFrame frame.frame] } := by
  have hfinished : frame.frame.info.isFinished = false := by
    rw [frame.isFinished_frame]
    exact decide_eq_false hbit
  rw [onReceiveFrame, WebsocketProcess.onReceiveFrame]
  cases (r.objects p).process.ingest frame.frame with
  | error failure => simp [Except.map]
  | ok message => simp [Except.map, hfinished, eq_comm]

theorem Open.taken (h : Open r conn p) (message : Message) (frame : Frame) :
    Open (r.setObject p { r.objects p with
      process := ⟨some message⟩
      callbacks := (r.objects p).callbacks ++ [.onReceiveFrame frame] }) conn p where
  entry := h.entry
  alive := by simp [h.alive]
  notClosed := by simp [h.notClosed]

/-! ### All frames -/

theorem received_cons (frame : ReceivedFrame) (frames : List ReceivedFrame) :
    received conn (frame :: frames) = .receive conn frame.bits frame.data 0 :: received conn frames := rfl

theorem closedByCloseOnly_close (h : Open r conn p) {frame : ReceivedFrame} (hclose : frame.IsClose)
    (frames : List ReceivedFrame) : ClosedByCloseOnly closeKey r conn p (frame :: frames) := by
  intro front later back hsplit hfront
  cases front with
  | nil =>
      obtain ⟨rfl, -⟩ := List.cons.inj hsplit
      exact ⟨r, _, rfl, h, h.step_of_bit hclose.hasCloseBit, fun _ => h.removed, fun hnot => absurd hclose hnot⟩
  | cons first front =>
      obtain ⟨rfl, -⟩ := List.cons.inj hsplit
      exact absurd hclose (hfront frame List.mem_cons_self)

/-- **In front of it** each frame leaves the process open, and so do the others behind that. -/
theorem closedByCloseOnly_cons {frame : ReceivedFrame} (hclose : ¬ frame.IsClose) (h : Open r conn p)
    (frames : List ReceivedFrame) :
    ClosedByCloseOnly closeKey r conn p (frame :: frames) ↔
      ∃ r', step closeKey r (.receive conn frame.bits frame.data 0) = .ok r' ∧ Open r' conn p ∧
        ClosedByCloseOnly closeKey r' conn p frames := by
  constructor
  · intro hall
    obtain ⟨r₁, r', hrun, -, hstep, -, hstill⟩ := hall [] frame frames rfl (List.forall_mem_nil _)
    obtain rfl := Except.ok.inj hrun
    refine ⟨r', hstep, hstill hclose, ?_⟩
    intro front later back hsplit hfront
    obtain ⟨r₁, r₂, hrun, hrest⟩ := hall (frame :: front) later back (by rw [hsplit]; rfl)
      (List.forall_mem_cons.mpr ⟨hclose, hfront⟩)
    rw [received_cons, run_cons_of_ok hstep] at hrun
    exact ⟨r₁, r₂, hrun, hrest⟩
  · intro hfirst front later back hsplit hfront
    obtain ⟨r', hstep, hopen, hall⟩ := hfirst
    cases front with
    | nil =>
        obtain ⟨rfl, -⟩ := List.cons.inj hsplit
        exact ⟨r, r', rfl, h, hstep, fun hyes => absurd hyes hclose, fun _ => hopen⟩
    | cons first front =>
        obtain ⟨rfl, hrest⟩ := List.cons.inj hsplit
        obtain ⟨r₁, r₂, hrun, hthere⟩ := hall front later back hrest (List.forall_mem_cons.mp hfront).2
        refine ⟨r₁, r₂, ?_, hthere⟩
        rw [received_cons, run_cons_of_ok hstep]
        exact hrun

/-- **Only a `Close` frame closes** exactly if none of the frames in front of it has its bit, and the process collects
all of these. -/
theorem closedByCloseOnly_iff (closeKey : WebsocketContext → ConnectionHandle) (hopen : Open r conn p)
    (frames : List ReceivedFrame) :
    ClosedByCloseOnly closeKey r conn p frames ↔
      (∀ frame ∈ frames.takeWhile fun frame => ¬ frame.IsClose, ¬ frame.HasCloseBit) ∧
      Gathers (r.objects p).process (frames.takeWhile fun frame => ¬ frame.IsClose) := by
  induction frames generalizing r with
  | nil =>
      refine iff_of_true ?_ ⟨List.forall_mem_nil _, gathers_nil _⟩
      intro front frame back hsplit
      exact absurd hsplit (by simp)
  | cons frame frames ih =>
      by_cases hclose : frame.IsClose
      · rw [List.takeWhile_cons_of_neg (by simpa using hclose)]
        exact iff_of_true (closedByCloseOnly_close hopen hclose frames) ⟨List.forall_mem_nil _, gathers_nil _⟩
      · rw [List.takeWhile_cons_of_pos (by simpa using hclose), closedByCloseOnly_cons hclose hopen,
          List.forall_mem_cons, gathers_cons]
        by_cases hbit : frame.HasCloseBit
        · refine iff_of_false ?_ fun h => h.1.1 hbit
          rintro ⟨r', hstep, hstill, -⟩
          rw [hopen.step_of_bit hbit] at hstep
          obtain rfl := Except.ok.inj hstep
          exact hstill.not_removed hopen.removed
        · rw [hopen.step_of_not_bit hbit]
          constructor
          · rintro ⟨r', hstep, hstill, hall⟩
            obtain ⟨message, hingest, rfl⟩ := (onReceiveFrame_eq_ok hbit).mp hstep
            obtain ⟨hbits, hgathers⟩ := (ih hstill).mp hall
            rw [setObject_objects_self] at hgathers
            exact ⟨⟨hbit, hbits⟩, message, hingest, hgathers⟩
          · rintro ⟨⟨-, hbits⟩, message, hingest, hgathers⟩
            have hstill := hopen.taken message frame.frame
            refine ⟨_, (onReceiveFrame_eq_ok hbit).mpr ⟨message, hingest, rfl⟩, hstill, ?_⟩
            apply (ih hstill).mpr
            rw [setObject_objects_self]
            exact ⟨hbits, hgathers⟩

theorem open_oneConnection : Open oneConnection 7 0 :=
  inv_oneConnection.toSound.open (by simp [oneConnection, accept, empty])

theorem closedByCloseOnly_oneConnection :
    ClosedByCloseOnly mongooseCloseKey oneConnection 7 0
      [⟨0x81, lit "hi"⟩, ⟨0x81, lit "there"⟩, ⟨0x88, []⟩, ⟨0x89, []⟩] :=
  (closedByCloseOnly_iff mongooseCloseKey open_oneConnection _).mpr
    ⟨by decide, ⟨⟨0x81, by decide⟩, .inr (by decide)⟩⟩

/-- A ping closes. -/
theorem not_forall_closedByCloseOnly :
    ¬ ∀ (r : Registry) (conn : ConnectionHandle) (p : ProcessId) (frames : List ReceivedFrame), Open r conn p →
      ClosedByCloseOnly mongooseCloseKey r conn p frames := by
  intro h
  obtain ⟨r₁, r₂, hrun, -, hstep, -, hstill⟩ :=
    h oneConnection 7 0 [⟨0x89, []⟩] open_oneConnection [] ⟨0x89, []⟩ [] rfl (by simp)
  obtain rfl := Except.ok.inj hrun
  have hremoved : r₂.processes[7]? = none := by
    have hbit : ReceivedFrame.HasCloseBit ⟨0x89, []⟩ := by decide
    rw [open_oneConnection.step_of_bit hbit] at hstep
    obtain rfl := Except.ok.inj hstep
    exact open_oneConnection.removed.entry
  have hentry := (hstill (by decide)).entry
  rw [hremoved] at hentry
  cases hentry

end Registry

end Rikitiki.Websocket
