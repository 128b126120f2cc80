import Rikitiki.Websocket.Closing

/-!
# Messages in a websocket server

`OnReceiveFrame` takes the bit of `Close` for the one that finishes a message, so a process hands over control
frames, each as a message of its own, and no message that is sent to it. A server closes a connection for every
frame with this bit. So of the frames that come through to a process none finishes anything: it collects them in
one message for as long as the connection is open.
-/

namespace Rikitiki.Websocket

/-! ### A process that is given frames -/

/-- The messages that `OnReceiveFrame` hands over while it is given frames, if nothing goes wrong. -/
def WebsocketProcess.receiveFrames (onReceiveMessage : Message → Bool) :
    WebsocketProcess → List Frame → Except Failure (List Message × WebsocketProcess)
  | process, [] => .ok ([], process)
  | process, frame :: frames =>
    (process.onReceiveFrame onReceiveMessage frame).bind fun (_, message, process) =>
      (process.receiveFrames onReceiveMessage frames).map fun (messages, process) =>
        (message.toList ++ messages, process)

structure Frame.Passed (frame : Frame) : Prop where
  unfinished : frame.info.isFinished = false
  length : frame.info.length = frame.data.length

structure Collects (process : WebsocketProcess) (frames : List Frame) : Prop where
  none : frames = [] → process.ongoingMessage = .none
  some : frames ≠ [] → ∃ message, process.ongoingMessage = .some message ∧
    message.data = frames.flatMap Frame.data ∧ message.frameLength = frames.length ∧
    ∀ frame ∈ frames, frame.info.opCode = message.opCode

variable {onReceiveMessage : Message → Bool} {messages : List Message} {last : WebsocketProcess}

theorem receiveFrames_cons {process : WebsocketProcess} {frame : Frame} {frames : List Frame}
    (h : process.receiveFrames onReceiveMessage (frame :: frames) = .ok (messages, last)) :
    ∃ message later, process.ingest frame = .ok message ∧
      WebsocketProcess.receiveFrames onReceiveMessage
        ⟨if frame.info.isFinished then none else some message⟩ frames = .ok (later, last) ∧
      messages = if frame.info.isFinished then message :: later else later := by
  obtain ⟨⟨value, call, next⟩, hcall, hrest⟩ := Run.bind_eq_ok h
  rw [WebsocketProcess.onReceiveFrame] at hcall
  obtain ⟨message, hingest, heq⟩ := Run.map_eq_ok hcall
  obtain ⟨⟨later, process'⟩, hlater, hmessages⟩ := Run.map_eq_ok hrest
  obtain ⟨rfl, rfl⟩ := Prod.mk.inj hmessages
  refine ⟨message, later, hingest, ?_⟩
  cases hfinished : frame.info.isFinished with
  | true =>
      simp only [hfinished, if_true] at heq
      obtain ⟨-, rfl, rfl⟩ := heq
      exact ⟨hlater, rfl⟩
  | false =>
      simp only [hfinished, Bool.false_eq_true, if_false] at heq
      obtain ⟨-, rfl, rfl⟩ := heq
      exact ⟨hlater, rfl⟩

/-- **A message that is going on** stays so if no frame of its opcode finishes one: a frame of another opcode
fails an assertion. -/
theorem receiveFrames_ongoing {message : Message} {frames : List Frame}
    (hframes : ∀ frame ∈ frames, frame.info.opCode = message.opCode → frame.Passed)
    (h : WebsocketProcess.receiveFrames onReceiveMessage ⟨some message⟩ frames = .ok (messages, last)) :
    messages = [] ∧ (∀ frame ∈ frames, frame.info.opCode = message.opCode) ∧
      last.ongoingMessage = some ⟨message.opCode, message.data ++ frames.flatMap Frame.data,
        message.frameLength + frames.length⟩ := by
  induction frames generalizing message messages with
  | nil =>
      obtain ⟨rfl, rfl⟩ := Prod.mk.inj (Except.ok.inj h)
      exact ⟨rfl, List.forall_mem_nil _, by simp⟩
  | cons frame frames ih =>
      obtain ⟨next, later, hingest, hlater, hmessages⟩ := receiveFrames_cons h
      obtain ⟨hframe, hrest⟩ := List.forall_mem_cons.mp hframes
      have hopcode := (opCode_of_ingest hingest).2.symm
      have hpassed := hframe hopcode
      obtain ⟨rfl, -⟩ := ingest_eq_ok hpassed.length hingest
      simp only [hpassed.unfinished, Bool.false_eq_true, if_false] at hlater hmessages
      obtain ⟨hnone, hopcodes, hlast⟩ := ih (by exact hrest) hlater
      refine ⟨hmessages.trans hnone, List.forall_mem_cons.mpr ⟨hopcode, hopcodes⟩, ?_⟩
      simp [hlast, Nat.add_assoc, Nat.add_comm 1]

/-- **Frames that finish nothing** are collected, and nothing is handed over. -/
theorem receiveFrames_passed {frame : Frame} {frames : List Frame} (hframe : frame.Passed)
    (hframes : ∀ other ∈ frames, other.info.opCode = frame.info.opCode → other.Passed)
    (h : WebsocketProcess.receiveFrames onReceiveMessage {} (frame :: frames) = .ok (messages, last)) :
    messages = [] ∧ Collects last (frame :: frames) := by
  obtain ⟨message, later, hingest, hlater, hmessages⟩ := receiveFrames_cons h
  obtain ⟨rfl, -⟩ := ingest_eq_ok hframe.length hingest
  simp only [hframe.unfinished, Bool.false_eq_true, if_false] at hlater hmessages
  obtain ⟨hnone, hopcodes, hlast⟩ := receiveFrames_ongoing hframes hlater
  have hcollected : Collects last (frame :: frames) :=
    { none := fun hnil => by cases hnil
      some := fun _ =>
        ⟨_, hlast, by simp, by simp [Nat.add_comm], List.forall_mem_cons.mpr ⟨rfl, hopcodes⟩⟩ }
  exact ⟨hmessages.trans hnone, hcollected⟩

theorem receiveFrames_nil (h : WebsocketProcess.receiveFrames onReceiveMessage {} [] = .ok (messages, last)) :
    messages = [] ∧ Collects last [] := by
  obtain ⟨rfl, rfl⟩ := Prod.mk.inj (Except.ok.inj h)
  exact ⟨rfl, ⟨fun _ => rfl, fun hne => absurd rfl hne⟩⟩

/-! ### Frames with the bit of `Close` -/

def ReceivedFrame.message (received : ReceivedFrame) : Message := ⟨received.frame.info.opCode, received.data, 1⟩

namespace ReceivedFrame

variable {received other : ReceivedFrame} {frames : List ReceivedFrame}

theorem hasCloseBit_congr (h : received.frame.info.opCode = other.frame.info.opCode) :
    received.HasCloseBit ↔ other.HasCloseBit := by
  have hbits : ∀ frame : ReceivedFrame, frame.frame.info.opCode &&& OpCode.close = frame.bits &&& OpCode.close :=
    opCode_and_close
  rw [HasCloseBit, HasCloseBit, ← hbits received, ← hbits other, h]

theorem passed_frame (h : ¬ received.HasCloseBit) : received.frame.Passed where
  unfinished := received.isFinished_frame.trans (decide_eq_false h)
  length := rfl

/-- **What a process hands over**, of any frames: each frame with the bit is a message of its own, until one comes
in without it. -/
theorem receiveFrames_eq_ok
    (h : WebsocketProcess.receiveFrames onReceiveMessage {} (frames.map frame) = .ok (messages, last)) :
    messages = (frames.takeWhile fun received => received.HasCloseBit).map message ∧
      Collects last ((frames.dropWhile fun received => received.HasCloseBit).map frame) := by
  induction frames generalizing messages with
  | nil => exact receiveFrames_nil h
  | cons received frames ih =>
      by_cases hbit : received.HasCloseBit
      · obtain ⟨made, later, hingest, hlater, hmessages⟩ := receiveFrames_cons h
        obtain ⟨rfl, -⟩ := ingest_eq_ok rfl hingest
        simp only [isFinished_frame, hbit, decide_true, if_true] at hlater hmessages
        obtain ⟨hothers, hlast⟩ := ih hlater
        rw [List.takeWhile_cons_of_pos (by simpa using hbit), List.dropWhile_cons_of_pos (by simpa using hbit)]
        exact ⟨by rw [hmessages, hothers]; rfl, hlast⟩
      · rw [List.takeWhile_cons_of_neg (by simpa using hbit), List.dropWhile_cons_of_neg (by simpa using hbit)]
        apply receiveFrames_passed (passed_frame hbit)
        · intro other hother hopcode
          obtain ⟨other, -, rfl⟩ := List.mem_map.mp hother
          exact passed_frame fun hother => hbit ((hasCloseBit_congr hopcode).mp hother)
        · exact h

/-- The low four bits are an opcode there is. -/
def Standard (received : ReceivedFrame) : Prop :=
  received.bits &&& 0x0F ∈
    [OpCode.continuation, OpCode.text, OpCode.binary, OpCode.close, OpCode.ping, OpCode.pong]

instance (received : ReceivedFrame) : Decidable received.Standard := inferInstanceAs (Decidable (_ ∈ _))

/-- What is passed on of a frame by itself. -/
def receipt (received : ReceivedFrame) : Option Receipt :=
  if received.bits &&& 0x0F = OpCode.ping then some (.text received.data)
  else if received.bits &&& 0x0F = OpCode.pong then some (.binary received.data)
  else none

theorem opCode_and (mask : Byte) (hmask : (0xEF : Byte) &&& 0xFF &&& mask = 0x0F &&& mask) :
    received.frame.info.opCode &&& mask = received.bits &&& 0x0F &&& mask := by
  rw [FrameInfo.opCode, frame, Frame.init, UInt8.and_assoc, UInt8.and_assoc, ← UInt8.and_assoc 0xEF, hmask,
    UInt8.and_assoc]

theorem receipt_message (hstandard : received.Standard) (hbit : received.HasCloseBit) :
    received.message.receipt = received.receipt := by
  have hclose : received.bits &&& 0x0F &&& OpCode.close ≠ 0 := by
    rw [UInt8.and_assoc]
    exact hbit
  rw [Message.receipt, receipt, message, opCode_and OpCode.text (by decide),
    opCode_and OpCode.binary (by decide)]
  rw [Standard] at hstandard
  generalize received.bits &&& 0x0F = opcode at *
  simp only [List.mem_cons, List.not_mem_nil, or_false] at hstandard
  rcases hstandard with rfl | rfl | rfl | rfl | rfl | rfl
  · exact absurd rfl hclose
  · exact absurd rfl hclose
  · exact absurd rfl hclose
  · rfl
  · rfl
  · rfl

end ReceivedFrame

/-- **What the application gets** are pings, as texts, and pongs, as binary data, and not a single message, whatever
frames a process is given. Behind the first frame of data it gets nothing any more: all further frames are held
in one message. -/
theorem receipts_eq {frames : List ReceivedFrame} (hframes : ∀ received ∈ frames, received.Standard)
    (h : WebsocketProcess.receiveFrames onReceiveMessage {} (frames.map ReceivedFrame.frame) = .ok (messages, last)) :
    messages.filterMap Message.receipt
        = (frames.takeWhile fun received => received.HasCloseBit).filterMap ReceivedFrame.receipt ∧
      Collects last ((frames.dropWhile fun received => received.HasCloseBit).map ReceivedFrame.frame) := by
  obtain ⟨rfl, hlast⟩ := ReceivedFrame.receiveFrames_eq_ok h
  refine ⟨?_, hlast⟩
  rw [List.filterMap_map]
  apply List.filterMap_congr
  intro received hreceived
  have hbit := List.mem_takeWhile_imp hreceived
  exact ReceivedFrame.receipt_message (hframes received ((List.takeWhile_prefix _).subset hreceived))
    (of_decide_eq_true hbit)

def pingAndText : List ReceivedFrame := [⟨0x89, lit "hi"⟩, ⟨0x81, lit "hel"⟩, ⟨0x81, lit "lo"⟩]

theorem receipts_eq_pingAndText :
    ∃ messages last,
      WebsocketProcess.receiveFrames (fun _ => true) {} (pingAndText.map ReceivedFrame.frame) = .ok (messages, last) ∧
      messages.filterMap Message.receipt = [.text (lit "hi")] ∧
      last.ongoingMessage = some ⟨0x81, lit "hello", 2⟩ := by
  have hreceived : WebsocketProcess.receiveFrames (fun _ => true) {} (pingAndText.map ReceivedFrame.frame)
      = .ok ([⟨0x89, lit "hi", 1⟩], ⟨some ⟨0x81, lit "hello", 2⟩⟩) := by
    decide
  have hreceipts := (receipts_eq (by decide) hreceived).1
  exact ⟨_, _, hreceived, hreceipts.trans (by decide), rfl⟩

/-! ### The frames that come through -/

theorem receiveFrames_append {process next : WebsocketProcess} {front back : List Frame} {later : List Message}
    (hfront : process.receiveFrames onReceiveMessage front = .ok (messages, next))
    (hback : next.receiveFrames onReceiveMessage back = .ok (later, last)) :
    process.receiveFrames onReceiveMessage (front ++ back) = .ok (messages ++ later, last) := by
  induction front generalizing process messages with
  | nil =>
      obtain ⟨rfl, rfl⟩ := Prod.mk.inj (Except.ok.inj hfront)
      exact hback
  | cons frame front ih =>
      obtain ⟨⟨value, message, middle⟩, hcall, hrest⟩ := Run.bind_eq_ok hfront
      obtain ⟨⟨others, end'⟩, hothers, hpair⟩ := Run.map_eq_ok hrest
      obtain ⟨rfl, rfl⟩ := Prod.mk.inj hpair
      rw [List.cons_append, WebsocketProcess.receiveFrames, hcall]
      simp only [Except.bind, ih hothers, Except.map, List.append_assoc]

/-- A call that hands nothing over. -/
def Callback.Passes : Callback → Prop
  | .onReceiveFrame frame => frame.Passed
  | .onReceiveMessage _ => False
  | _ => True

def Callback.frame? : Callback → Option Frame
  | .onReceiveFrame frame => some frame
  | _ => none

namespace Registry

/-- A process is called on without handing anything over, and its message is made of the frames it is given. -/
def Grows (p : ProcessId) (r r' : Registry) : Prop :=
  ∃ more, (r'.objects p).callbacks = (r.objects p).callbacks ++ more ∧ (∀ callback ∈ more, callback.Passes) ∧
    (r.objects p).process.receiveFrames (fun _ => true) (more.filterMap Callback.frame?)
      = .ok ([], (r'.objects p).process)

variable {closeKey : WebsocketContext → ConnectionHandle} {r r' r'' : Registry} {p : ProcessId}

theorem Grows.of_objects (hobjects : r'.objects = r.objects) : Grows p r r' := by
  refine ⟨[], ?_, List.forall_mem_nil _, ?_⟩
  · rw [hobjects, List.append_nil]
  · rw [hobjects]
    rfl

theorem Grows.trans (h : Grows p r r') (h' : Grows p r' r'') : Grows p r r'' := by
  obtain ⟨more, hmore, hpasses, hframes⟩ := h
  obtain ⟨more', hmore', hpasses', hframes'⟩ := h'
  refine ⟨more ++ more', by rw [hmore', hmore, List.append_assoc], ?_, ?_⟩
  · intro callback hcallback
    rcases List.mem_append.mp hcallback with hcallback | hcallback
    · exact hpasses callback hcallback
    · exact hpasses' callback hcallback
  · rw [List.filterMap_append]
    exact receiveFrames_append hframes hframes'

theorem Grows.setObject {q : ProcessId} {object : ProcessObject} {more : List Callback}
    (hcallbacks : object.callbacks = (r.objects q).callbacks ++ more) (hpasses : ∀ callback ∈ more, callback.Passes)
    (hframes : (r.objects q).process.receiveFrames (fun _ => true) (more.filterMap Callback.frame?)
      = .ok ([], object.process)) : Grows p r (r.setObject q object) := by
  by_cases hp : p = q
  · subst hp
    exact ⟨more, by rw [setObject_objects_self, hcallbacks], hpasses, by rw [setObject_objects_self, hframes]⟩
  · refine ⟨[], ?_, List.forall_mem_nil _, ?_⟩
    · rw [setObject_objects_of_ne r hp, List.append_nil]
    · rw [setObject_objects_of_ne r hp]
      rfl

theorem Grows.same {q : ProcessId} {object : ProcessObject} (hcallbacks : object.callbacks = (r.objects q).callbacks)
    (hprocess : object.process = (r.objects q).process) : Grows p r (r.setObject q object) := by
  refine Grows.setObject ?_ (List.forall_mem_nil _) ?_
  · rw [hcallbacks, List.append_nil]
  · rw [hprocess]
    rfl

theorem Grows.call (q : ProcessId) {callback : Callback} (hpasses : callback.Passes) (hframe : callback.frame? = none) :
    Grows p r (r.call q callback) := by
  apply Grows.setObject
  · rfl
  · exact List.forall_mem_singleton.mpr hpasses
  · rw [List.filterMap_cons_none hframe]
    rfl

theorem objects_lookup (r : Registry) (handle : ConnectionHandle) : (r.lookup handle).2.objects = r.objects := by
  rw [lookup]
  split
  · rfl
  · rfl

theorem Grows.lookup (r : Registry) (handle : ConnectionHandle) : Grows p r (r.lookup handle).2 :=
  .of_objects (objects_lookup r handle)

theorem Grows.deleteErase (r : Registry) (q : ProcessId) (key : ConnectionHandle) :
    Grows p r ((r.delete q).erase key) := by
  have hdeleted : Grows p r (r.delete q) := .same rfl rfl
  exact hdeleted.trans (.of_objects rfl)

theorem Grows.remove {nested : Nat} {q : ProcessId} {key : ConnectionHandle}
    (h : remove closeKey nested r q key = .ok r') : Grows p r r' := by
  have hclosed : ∀ (r : Registry) (q : ProcessId), Grows p r (r.call q .onClose) :=
    fun r q => .call q trivial rfl
  induction nested generalizing r q key r' with
  | zero =>
      obtain rfl := Except.ok.inj h
      exact (hclosed r q).trans (.deleteErase _ q key)
  | succ nested ih =>
      rw [Registry.remove] at h
      have hlookup := (hclosed r q).trans (.lookup _ (closeKey (r.objects q).context))
      cases hfound : (r.call q .onClose).lookup (closeKey (r.objects q).context) with
      | mk process next =>
          simp only [hfound] at h
          rw [hfound] at hlookup
          cases process with
          | none => cases h
          | some other =>
              obtain ⟨last, hlast, rfl⟩ := Run.map_eq_ok h
              exact (hlookup.trans (ih hlast)).trans (.deleteErase last q key)

theorem Grows.close {nested : Nat} {context : WebsocketContext} (h : close closeKey nested r context = .ok r') :
    Grows p r r' := by
  rw [Registry.close] at h
  have hlookup := Grows.lookup (p := p) r (closeKey context)
  cases hfound : r.lookup (closeKey context) with
  | mk process next =>
      rw [hfound] at h hlookup
      cases process with
      | none => cases h
      | some q => exact hlookup.trans (.remove h)

/-- A frame without the bit of `Close` goes into the message of its process. -/
theorem Grows.onReceiveFrame {q : ProcessId} {received : ReceivedFrame} (hbit : ¬ received.HasCloseBit)
    (h : r.onReceiveFrame q received.frame = .ok r') : Grows p r r' := by
  obtain ⟨message, hingest, rfl⟩ := (onReceiveFrame_eq_ok hbit).mp h
  apply Grows.setObject
  · rfl
  · exact List.forall_mem_singleton.mpr (ReceivedFrame.passed_frame hbit)
  · simp [Callback.frame?, Except.map, Except.bind, WebsocketProcess.receiveFrames, WebsocketProcess.onReceiveFrame,
      hingest, received.isFinished_frame, hbit]

theorem Grows.step {event : Event} (h : step closeKey r event = .ok r') : Grows p r r' := by
  cases event with
  | handleWs conn addresses =>
      rw [step_handleWs] at h
      cases h
  | setConnection q conn =>
      obtain rfl := Except.ok.inj h
      exact .same rfl rfl
  | onReady conn =>
      obtain rfl := Except.ok.inj h
      have hlookup := Grows.lookup (p := p) r conn
      rw [onReady]
      cases hfound : r.lookup conn with
      | mk process next =>
          rw [hfound] at hlookup
          cases process with
          | none => exact hlookup
          | some q => exact hlookup.trans (.call q trivial rfl)
  | receive conn bits data nested =>
      rw [Registry.step, receive] at h
      have hlookup := Grows.lookup (p := p) r conn
      cases hfound : r.lookup conn with
      | mk process next =>
          rw [hfound] at h hlookup
          cases process with
          | none => cases h
          | some q =>
              simp only at h
              split at h
              · exact hlookup.trans (.remove h)
              · rename_i hclose
                have hbit : ¬ ReceivedFrame.HasCloseBit ⟨bits, data⟩ := by
                  rw [ReceivedFrame.HasCloseBit, ← opCode_and_close ⟨bits, data⟩]
                  exact hclose
                exact hlookup.trans (.onReceiveFrame hbit h)
  | writeFails q nested => exact .close h

theorem Grows.run {events : List Event} (h : run closeKey r events = .ok r') : Grows p r r' := by
  induction events generalizing r with
  | nil =>
      obtain rfl := Except.ok.inj h
      exact .of_objects rfl
  | cons event events ih =>
      rw [run_cons] at h
      obtain ⟨next, hstep, hrest⟩ := Run.bind_eq_ok h
      exact (Grows.step hstep).trans (ih hrest)

end Registry

end Rikitiki.Websocket
