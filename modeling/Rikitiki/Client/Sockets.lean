import Rikitiki.Incoming.CloseDelimited
import Rikitiki.Incoming.Completion

/-!
# The sockets of a client

A `SimpleRequestClient` listens to a socket of its platform. On Linux, libevent calls `readcb` with what has come in,
in one or more extents, and `eventcb` for all else; on Windows a thread polls `recv`. Both hand the bytes to `OnData`
where they lie in memory, and call `OnClose` behind the call that completes the response. Only the Windows socket
calls it at the end of the connection too, and only the Linux socket goes on reading behind it.
-/

namespace Rikitiki

open BufferedReader (Loop)
open IResponseMemory (Framed onBufferedData)

/-- Bytes for `OnData`, with what lies behind them in memory. -/
structure Segment where
  data : Str
  after : Str
  deriving DecidableEq, Repr

inductive Crash where
  /-- an exception leaves it -/
  | exception (error : Exception)
  /-- `OnData` leaves the memory it may use -/
  | undefined
  /-- `set_value` on a promise that has its value -/
  | promiseKept
  /-- `Cleanup` with a `bev` that is null -/
  | noBufferevent
  deriving DecidableEq, Repr

/-- What a call leaves behind, or why it does not return, and the client then. -/
abbrev Called (α : Type) := Except (Crash × SimpleRequestClient) α

namespace SimpleRequestClient

/-- `SimpleRequestClient::OnData` -/
def receive (client : SimpleRequestClient) (segment : Segment) : Called (Bool × SimpleRequestClient) :=
  match client.response.onDataIn segment.data segment.after with
  | .returns finished response => .ok (finished, { client with response })
  | .throws error response => .error (.exception error, { client with response })
  | .undefined | .running => .error (.undefined, client)

/-- `promise.set_value(response)`, which throws at the second call. -/
def setValue (client : SimpleRequestClient) : Called SimpleRequestClient :=
  if client.promise.isSome then .error (.promiseKept, client) else .ok client.onClose

end SimpleRequestClient

structure LinuxTCPIPSocket where
  listener : SimpleRequestClient := {}
  /-- `bev` is not null -/
  bev : Bool := true
  connectStatus : Int := 0

namespace LinuxTCPIPSocket

/-- `LinuxTCPIPSocket::OnClose` -/
def onClose (socket : LinuxTCPIPSocket) : Called LinuxTCPIPSocket :=
  socket.listener.setValue.bind fun listener =>
    if socket.bev then .ok { socket with listener, bev := false } else .error (.noBufferevent, listener)

/-- The loop of `readcb` over the extents of the input buffer, which libevent keeps until it returns. -/
def readcb (socket : LinuxTCPIPSocket) : List Segment → Called LinuxTCPIPSocket
  | [] => .ok socket
  | segment :: segments =>
    (socket.listener.receive segment).bind fun (done, listener) =>
      (if done then onClose { socket with listener } else .ok { socket with listener }).bind fun socket =>
        socket.readcb segments

inductive Event where
  | readcb (segments : List Segment)
  /-- `eventcb` with `BEV_EVENT_CONNECTED` -/
  | connected
  /-- `eventcb` with `BEV_EVENT_ERROR` -/
  | error
  /-- `eventcb` with anything else, the end of the connection included -/
  | other
  deriving DecidableEq, Repr

/-- A bufferevent that has been freed calls nobody back. -/
def step (socket : LinuxTCPIPSocket) (event : Event) : Called LinuxTCPIPSocket :=
  if socket.bev then
    match event with
    | .readcb segments => socket.readcb segments
    | .connected => .ok { socket with connectStatus := 1 }
    | .error => .ok { socket with connectStatus := -1 }
    | .other => .ok socket
  else .ok socket

def run (events : List Event) : Called LinuxTCPIPSocket := events.foldlM step {}

def Event.segments : Event → List Segment
  | .readcb segments => segments
  | _ => []

end LinuxTCPIPSocket

structure WindowsTCPIPSocket where
  listener : SimpleRequestClient := {}
  running : Bool := true

namespace WindowsTCPIPSocket

/-- What `recv` comes back with. -/
inductive Recv where
  | bytes (segment : Segment)
  /-- the end of the connection, or an error -/
  | closed
  deriving DecidableEq, Repr

/-- `listener.OnClose(); running = false;` -/
def close (socket : WindowsTCPIPSocket) : Called WindowsTCPIPSocket :=
  socket.listener.setValue.map fun listener => ⟨listener, false⟩

/-- A turn of the polling thread, if it still runs. -/
def step (socket : WindowsTCPIPSocket) (recv : Recv) : Called WindowsTCPIPSocket :=
  if socket.running then
    match recv with
    | .closed => socket.close
    | .bytes segment =>
      (socket.listener.receive segment).bind fun (done, listener) =>
        if done then close { socket with listener } else .ok { socket with listener }
  else .ok socket

def run (recvs : List Recv) : Called WindowsTCPIPSocket := recvs.foldlM step {}

end WindowsTCPIPSocket

/-! ### What a call does to the client -/

namespace IResponseMemory

/-- **Only a finished message throws.** -/
theorem Loop.finished_of_throws {m m' : IResponseMemory} {data after : Str} {calls : List (IResponseMemory × Str)}
    {outcome : Outcome IResponseMemory} {error : Exception} (h : Loop onBufferedData after m data calls outcome)
    (hm : Framed m) (hthrows : outcome = .throws error m') :
    m.derived.streamState = .finished ∧ error = .exception "Unexpected input" := by
  induction h with
  | idle reader => cases hthrows
  | cantProcess hdata hpass => cases hthrows
  | handOver hdata hpass =>
      obtain ⟨hfinished, herror, -⟩ := throws_iff.mp hthrows
      exact ⟨hfinished, herror⟩
  | finishes hdata hpass hcall => cases hthrows
  | fails hdata hpass hcall hfails =>
      obtain ⟨-, hderived, -⟩ := expectedSize_of_deliver hm hpass
      obtain ⟨hfinished, herror, -⟩ := throws_iff.mp (hcall.trans hthrows)
      rw [hderived] at hfinished
      exact ⟨hfinished, herror⟩
  | goesOn hdata hpass hcall hrest ih =>
      obtain ⟨htransition, hvalue⟩ := transition_of_returns hcall
      obtain ⟨hfinished, -⟩ := ih (htransition.moded (hm.block_moded hpass)).clear hthrows
      exact absurd hfinished (of_decide_eq_false hvalue.symm)

end IResponseMemory

namespace SimpleRequestClient

/-- The promise has its value exactly if the response is complete, and what the value points to is as it was. -/
structure Sound (client : SimpleRequestClient) : Prop where
  framed : Framed client.response
  kept_iff : client.promise = none ↔ client.response.derived.streamState ≠ .finished
  value : ∀ m, client.promise = some m → m.derived = client.response.derived

theorem sound_new : Sound {} := by
  refine ⟨IResponseMemory.framed_fresh, ?_, fun m h => by cases h⟩
  exact iff_of_true rfl (by decide)

variable {client client' : SimpleRequestClient} {segment : Segment} {done : Bool} {crash : Crash}

theorem receive_eq_ok : client.receive segment = .ok (done, client') ↔
    client.response.onDataIn segment.data segment.after = .returns done client'.response ∧
      client'.promise = client.promise := by
  obtain ⟨response, promise⟩ := client'
  rw [receive]
  cases client.response.onDataIn segment.data segment.after with
  | returns finished m => simp [eq_comm, and_assoc]
  | throws error m => simp
  | undefined => simp
  | running => simp

/-- **`OnData` returns `true` exactly if it completes the response**, which then has not been handed over. -/
theorem Sound.receive (h : Sound client) (hreceive : client.receive segment = .ok (done, client')) :
    client'.promise = client.promise ∧
      if done then client.promise = none ∧ Sound client'.onClose else Sound client' := by
  obtain ⟨hreturns, hpromise⟩ := receive_eq_ok.mp hreceive
  have hanswer : IResponseMemory.answer (client.response.onDataIn segment.data segment.after)
      = some (.returned done, client'.response) := by rw [hreturns]; rfl
  have hadvance := IResponseMemory.advance_of_answerIn h.framed hanswer
  refine ⟨hpromise, ?_⟩
  cases done with
  | true =>
      obtain ⟨hopen, hfinished⟩ := hadvance.finishes_iff.mp rfl
      have hnone := h.kept_iff.mpr hopen
      refine ⟨hnone, hadvance.framed, ?_, ?_⟩
      · exact iff_of_false (by simp [onClose]) (not_not.mpr hfinished)
      · intro m hm
        obtain rfl := Option.some.inj hm
        rfl
  | false =>
      have hgoes := mt hadvance.finishes_iff.mpr (by simp)
      refine ⟨hadvance.framed, ?_, ?_⟩
      · rw [hpromise, h.kept_iff]
        refine not_congr ⟨fun hfinished => ?_, fun hfinished => ?_⟩
        · rw [hadvance.frozen hfinished]
          exact hfinished
        · by_contra hopen
          exact hgoes ⟨hopen, hfinished⟩
      · intro m hm
        rw [hpromise] at hm
        have hkept : client.response.derived.streamState = .finished := by
          by_contra hopen
          rw [h.kept_iff.mpr hopen] at hm
          cases hm
        rw [h.value m hm, hadvance.frozen hkept]

/-- An exception leaves `OnData` only where the response has been handed over. -/
theorem Sound.receive_error (h : Sound client) (hreceive : client.receive segment = .error (crash, client')) :
    crash = .undefined ∨ (crash = .exception (.exception "Unexpected input") ∧ client.promise ≠ none ∧
      client'.promise ≠ none) := by
  rw [SimpleRequestClient.receive] at hreceive
  have hloop := IResponseMemory.loop_onDataIn h.framed segment.data segment.after
  cases hcall : client.response.onDataIn segment.data segment.after with
  | returns finished m =>
      rw [hcall] at hreceive
      cases hreceive
  | throws error m =>
      obtain ⟨hfinished, rfl⟩ := IResponseMemory.Loop.finished_of_throws hloop h.framed hcall
      rw [hcall] at hreceive
      obtain ⟨rfl, rfl⟩ := Prod.mk.inj (Except.error.inj hreceive)
      have hkept : client.promise ≠ none := fun hnone => h.kept_iff.mp hnone hfinished
      exact .inr ⟨rfl, hkept, hkept⟩
  | undefined =>
      rw [hcall] at hreceive
      exact .inl (Prod.mk.inj (Except.error.inj hreceive)).1.symm
  | running => exact absurd hcall (IResponseMemory.onDataIn_ne_running h.framed _ _)

theorem setValue_of_none (h : client.promise = none) : client.setValue = .ok client.onClose := by
  rw [setValue, h]
  rfl

end SimpleRequestClient

/-! ### Linux -/

namespace LinuxTCPIPSocket

/-- Why a callback of libevent may not return: `OnData` leaves its memory, or it throws because the response has been
handed over. -/
def Fault (failure : Crash × SimpleRequestClient) : Prop :=
  failure.1 = .undefined ∨ (failure.1 = .exception (.exception "Unexpected input") ∧ failure.2.promise ≠ none)

/-- The bufferevent is freed when the response has been handed over, and not before. -/
structure Sound (socket : LinuxTCPIPSocket) : Prop where
  listener : socket.listener.Sound
  bev_iff : socket.bev = true ↔ socket.listener.promise = none

variable {socket : LinuxTCPIPSocket}

theorem readcb_cons (segment : Segment) (segments : List Segment) :
    socket.readcb (segment :: segments) = (socket.listener.receive segment).bind fun (done, listener) =>
      (if done then onClose { socket with listener } else .ok { socket with listener }).bind fun socket =>
        socket.readcb segments := rfl

theorem Sound.of_goesOn (h : socket.Sound) {listener : SimpleRequestClient}
    (hpromise : listener.promise = socket.listener.promise) (hlistener : listener.Sound) :
    Sound { socket with listener } := by
  refine ⟨hlistener, ?_⟩
  rw [hpromise]
  exact h.bev_iff

theorem Sound.onClose (h : socket.Sound) {listener : SimpleRequestClient} (hopen : socket.listener.promise = none)
    (hpromise : listener.promise = socket.listener.promise) :
    LinuxTCPIPSocket.onClose { socket with listener }
      = .ok { socket with listener := listener.onClose, bev := false } := by
  rw [LinuxTCPIPSocket.onClose, SimpleRequestClient.setValue_of_none (hpromise.trans hopen)]
  exact if_pos (h.bev_iff.mpr hopen)

theorem Sound.readcb (h : socket.Sound) (segments : List Segment) :
    Run.Spec Sound Fault (socket.readcb segments) := by
  induction segments generalizing socket with
  | nil => exact h
  | cons segment segments ih =>
      rw [readcb_cons]
      cases hreceive : socket.listener.receive segment with
      | error failure =>
          obtain ⟨crash, client⟩ := failure
          rcases h.listener.receive_error hreceive with hundefined | ⟨hexception, -, hkept⟩
          · exact .inl hundefined
          · exact .inr ⟨hexception, hkept⟩
      | ok answer =>
          obtain ⟨done, listener⟩ := answer
          obtain ⟨hpromise, hdone⟩ := h.listener.receive hreceive
          cases done with
          | true =>
              obtain ⟨hopen, hclosed⟩ := hdone
              simp only [Except.bind, if_true, h.onClose hopen hpromise]
              exact ih ⟨hclosed, iff_of_false Bool.false_ne_true (Option.some_ne_none _)⟩
          | false => exact ih (h.of_goesOn hpromise hdone)

theorem step_of_freed (h : socket.bev = false) (event : Event) : socket.step event = .ok socket :=
  if_neg (by simp [h])

theorem Sound.step (h : socket.Sound) (event : Event) : Run.Spec Sound Fault (socket.step event) := by
  cases hbev : socket.bev with
  | false =>
      rw [step_of_freed hbev]
      exact h
  | true =>
      rw [LinuxTCPIPSocket.step.eq_def, if_pos hbev]
      cases event with
      | readcb segments => exact h.readcb segments
      | connected => exact ⟨h.listener, h.bev_iff⟩
      | error => exact ⟨h.listener, h.bev_iff⟩
      | other => exact h

theorem sound_new : Sound {} := ⟨SimpleRequestClient.sound_new, iff_of_true rfl rfl⟩

/-- **A Linux client hands its response over once, as soon as it is complete**, and with it its connection, whatever
libevent tells it. The end of the connection hands nothing over. The process ends in a callback only if `OnData`
leaves its memory, or if more has come in behind a complete response and in the same callback. -/
theorem kept_once (events : List Event) :
    match run events with
    | .ok socket =>
      (socket.listener.promise = none ↔ socket.listener.response.derived.streamState ≠ .finished) ∧
        (∀ m, socket.listener.promise = some m → m.derived = socket.listener.response.derived) ∧
        (socket.bev = true ↔ socket.listener.promise = none)
    | .error (crash, client) => crash = .undefined ∨
        (crash = .exception (.exception "Unexpected input") ∧ client.promise ≠ none) := by
  have hrun : Run.Spec Sound Fault (run events) :=
    Run.Spec.foldlM (P := fun _ => Sound) (fun _ _ _ h => h.step _) sound_new events
  generalize run events = called at hrun
  cases called with
  | error failure => exact hrun
  | ok socket => exact ⟨hrun.listener.kept_iff, hrun.listener.value, hrun.bev_iff⟩

example : ∃ client, run [.readcb [⟨lit "HTTP/1.1 200 OK\r\nContent-Length: 0\r\n\r\n", []⟩, ⟨lit "x", []⟩]]
    = .error (.exception (.exception "Unexpected input"), client) := ⟨_, rfl⟩

end LinuxTCPIPSocket

/-! ### Windows -/

namespace WindowsTCPIPSocket

/-- Where the polling thread is behind some results of `recv`. -/
structure Sound (recvs : List Recv) (socket : WindowsTCPIPSocket) : Prop where
  framed : Framed socket.listener.response
  running_iff : socket.running = true ↔ socket.listener.promise = none
  value : ∀ m, socket.listener.promise = some m → m = socket.listener.response
  kept_iff : socket.listener.promise ≠ none ↔
    socket.listener.response.derived.streamState = .finished ∨ .closed ∈ recvs

variable {socket : WindowsTCPIPSocket} {recvs : List Recv}

theorem sound_new : Sound [] {} where
  framed := IResponseMemory.framed_fresh
  running_iff := iff_of_true rfl rfl
  value m h := by cases h
  kept_iff := by decide

theorem Sound.listener (h : Sound recvs socket) (hrunning : socket.running = true) : socket.listener.Sound where
  framed := h.framed
  kept_iff := by
    have hopen := h.running_iff.mp hrunning
    refine iff_of_true hopen fun hfinished => ?_
    exact h.kept_iff.mpr (.inl hfinished) hopen
  value m hm := by
    rw [h.running_iff.mp hrunning] at hm
    cases hm

theorem step_of_stopped (h : socket.running = false) (recv : Recv) : socket.step recv = .ok socket :=
  if_neg (by simp [h])

theorem run_of_stopped (h : socket.running = false) (recvs : List Recv) : recvs.foldlM step socket = .ok socket := by
  induction recvs with
  | nil => rfl
  | cons recv recvs ih =>
      rw [List.foldlM_cons, step_of_stopped h]
      exact ih

theorem step_closed (hrunning : socket.running = true) (hopen : socket.listener.promise = none) :
    socket.step .closed = .ok ⟨socket.listener.onClose, false⟩ := by
  rw [WindowsTCPIPSocket.step.eq_def, if_pos hrunning]
  simp only [close, SimpleRequestClient.setValue_of_none hopen, Except.map]

theorem step_bytes (hrunning : socket.running = true) (segment : Segment) : socket.step (.bytes segment)
    = (socket.listener.receive segment).bind fun (done, listener) =>
        if done then close { socket with listener } else .ok { socket with listener } := if_pos hrunning

theorem close_of_none {listener : SimpleRequestClient} (hopen : listener.promise = none) :
    close { socket with listener } = .ok ⟨listener.onClose, false⟩ := by
  simp only [close, SimpleRequestClient.setValue_of_none hopen, Except.map]

theorem Sound.step (h : Sound recvs socket) (recv : Recv) :
    Run.Spec (Sound (recvs ++ [recv])) (fun failure => failure.1 = .undefined) (socket.step recv) := by
  cases hrunning : socket.running with
  | false =>
      rw [step_of_stopped hrunning]
      have hkept : socket.listener.promise ≠ none := fun hopen => by simp [h.running_iff.mpr hopen] at hrunning
      refine ⟨h.framed, h.running_iff, h.value, iff_of_true hkept ?_⟩
      exact (h.kept_iff.mp hkept).imp_right (List.mem_append_left _)
  | true =>
      have hopen := h.running_iff.mp hrunning
      have hlistener := h.listener hrunning
      cases recv with
      | closed =>
          rw [step_closed hrunning hopen]
          refine ⟨h.framed, iff_of_false Bool.false_ne_true (Option.some_ne_none _), ?_, ?_⟩
          · exact fun m hm => (Option.some.inj hm).symm
          · exact iff_of_true (Option.some_ne_none _) (.inr (by simp))
      | bytes segment =>
          rw [step_bytes hrunning]
          cases hreceive : socket.listener.receive segment with
          | error failure =>
              obtain ⟨crash, client⟩ := failure
              rcases hlistener.receive_error hreceive with hundefined | ⟨-, hkept, -⟩
              · exact hundefined
              · exact absurd hopen hkept
          | ok answer =>
              obtain ⟨done, listener⟩ := answer
              obtain ⟨hpromise, hdone⟩ := hlistener.receive hreceive
              rw [hopen] at hpromise
              cases done with
              | true =>
                  obtain ⟨-, hclosed⟩ := hdone
                  simp only [Except.bind, if_true, close_of_none hpromise]
                  refine ⟨hclosed.framed, iff_of_false Bool.false_ne_true (Option.some_ne_none _), ?_, ?_⟩
                  · exact fun m hm => (Option.some.inj hm).symm
                  · refine iff_of_true (Option.some_ne_none _) (.inl ?_)
                    exact not_not.mp (mt hclosed.kept_iff.mpr (Option.some_ne_none _))
              | false =>
                  refine ⟨hdone.framed, iff_of_true hrunning hpromise, fun m hm => ?_, ?_⟩
                  · rw [hpromise] at hm
                    cases hm
                  · refine iff_of_false (not_not.mpr hpromise) ?_
                    rw [List.mem_append, not_or, not_or]
                    refine ⟨hdone.kept_iff.mp hpromise, ?_, by simp⟩
                    exact fun hclosed => h.kept_iff.mpr (.inr hclosed) hopen

/-- **A Windows client hands its response over once, when it is complete or the connection ends**, and its thread runs
until then. No exception leaves the thread. -/
theorem closed_once (recvs : List Recv) :
    match run recvs with
    | .ok socket =>
      (socket.listener.promise ≠ none ↔
          socket.listener.response.derived.streamState = .finished ∨ .closed ∈ recvs) ∧
        (∀ m, socket.listener.promise = some m → m = socket.listener.response) ∧
        (socket.running = true ↔ socket.listener.promise = none)
    | .error (crash, _) => crash = .undefined := by
  have hrun : Run.Spec (Sound recvs) (fun failure => failure.1 = .undefined) (run recvs) :=
    Run.Spec.foldlM (fun _ _ _ h => h.step _) sound_new recvs
  generalize run recvs = called at hrun
  cases called with
  | error failure => exact hrun
  | ok socket => exact ⟨hrun.kept_iff, hrun.value, hrun.running_iff⟩

end WindowsTCPIPSocket

/-! ### The two platforms -/

inductive Alike (linux : LinuxTCPIPSocket) (windows : WindowsTCPIPSocket) : Prop
  | waiting (hrunning : windows.running = true) (hsame : windows.listener = linux.listener)
      (hopen : linux.listener.promise = none)
  | kept {m : IResponseMemory} (hstopped : windows.running = false) (hkept : linux.listener.promise ≠ none)
      (hpromise : windows.listener.promise = some m) (hsame : m.derived = linux.listener.response.derived)

variable {linux linux' : LinuxTCPIPSocket} {windows : WindowsTCPIPSocket}

/-- What a Windows socket reads where libevent brings the same to a Linux socket. -/
def LinuxTCPIPSocket.recvsOf (events : List Event) : List WindowsTCPIPSocket.Recv :=
  (events.flatMap Event.segments).map .bytes

theorem Alike.of_listener (h : Alike linux windows) (hlistener : linux'.listener = linux.listener) :
    Alike linux' windows := by
  cases h with
  | waiting hrunning hsame hopen => exact .waiting hrunning (hsame.trans hlistener.symm) (by rw [hlistener, hopen])
  | kept hstopped hkept hpromise hsame =>
      exact .kept hstopped (by rwa [hlistener]) hpromise (by rw [hsame, hlistener])

theorem Alike.readcb (hlinux : linux.Sound) (h : Alike linux windows) {segments : List Segment}
    (hread : linux.readcb segments = .ok linux') :
    ∃ windows', (segments.map .bytes).foldlM WindowsTCPIPSocket.step windows = .ok windows' ∧
      Alike linux' windows' := by
  induction segments generalizing linux windows with
  | nil =>
      obtain rfl := Except.ok.inj hread
      exact ⟨windows, rfl, h⟩
  | cons segment segments ih =>
      rw [LinuxTCPIPSocket.readcb_cons] at hread
      obtain ⟨⟨done, listener⟩, hreceive, hrest⟩ := Run.bind_eq_ok hread
      obtain ⟨hpromise, hdone⟩ := hlinux.listener.receive hreceive
      rw [List.map_cons, List.foldlM_cons]
      cases h with
      | waiting hrunning hsame hopen =>
          rw [WindowsTCPIPSocket.step_bytes hrunning, hsame, hreceive]
          cases done with
          | true =>
              obtain ⟨-, hclosed⟩ := hdone
              simp only [if_true, hlinux.onClose hopen hpromise] at hrest
              simp only [Except.bind, if_true, WindowsTCPIPSocket.close_of_none (hpromise.trans hopen)]
              refine ih ⟨hclosed, iff_of_false Bool.false_ne_true (Option.some_ne_none _)⟩ ?_ hrest
              exact .kept rfl (Option.some_ne_none _) rfl rfl
          | false =>
              have hlater : LinuxTCPIPSocket.readcb { linux with listener } segments = .ok linux' := hrest
              exact ih (hlinux.of_goesOn hpromise hdone) (.waiting hrunning rfl (hpromise.trans hopen)) hlater
      | @kept m hstopped hkept hvalue hsame =>
          rw [WindowsTCPIPSocket.step_of_stopped hstopped]
          cases done with
          | true => exact absurd hdone.1 hkept
          | false =>
              have hlater : LinuxTCPIPSocket.readcb { linux with listener } segments = .ok linux' := hrest
              refine ih (hlinux.of_goesOn hpromise hdone) ?_ hlater
              obtain ⟨value, hsome⟩ := Option.ne_none_iff_exists'.mp hkept
              refine .kept hstopped (by rw [hpromise]; exact hkept) hvalue ?_
              rw [hsame, ← hlinux.listener.value value hsome, hdone.value value (hpromise.trans hsome)]

theorem Alike.step (hlinux : linux.Sound) (h : Alike linux windows) {event : LinuxTCPIPSocket.Event}
    (hstep : linux.step event = .ok linux') :
    ∃ windows', (event.segments.map .bytes).foldlM WindowsTCPIPSocket.step windows = .ok windows' ∧
      Alike linux' windows' := by
  cases hbev : linux.bev with
  | false =>
      rw [LinuxTCPIPSocket.step_of_freed hbev] at hstep
      obtain rfl := Except.ok.inj hstep
      cases h with
      | waiting hrunning hsame hopen => simp [hlinux.bev_iff.mpr hopen] at hbev
      | kept hstopped hkept hpromise hsame =>
          exact ⟨windows, WindowsTCPIPSocket.run_of_stopped hstopped _, .kept hstopped hkept hpromise hsame⟩
  | true =>
      rw [LinuxTCPIPSocket.step.eq_def, if_pos hbev] at hstep
      cases event with
      | readcb segments => exact h.readcb hlinux hstep
      | connected =>
          obtain rfl := Except.ok.inj hstep
          exact ⟨windows, rfl, h.of_listener rfl⟩
      | error =>
          obtain rfl := Except.ok.inj hstep
          exact ⟨windows, rfl, h.of_listener rfl⟩
      | other =>
          obtain rfl := Except.ok.inj hstep
          exact ⟨windows, rfl, h⟩

theorem Alike.run (hlinux : linux.Sound) (h : Alike linux windows) {events : List LinuxTCPIPSocket.Event}
    (hrun : events.foldlM LinuxTCPIPSocket.step linux = .ok linux') :
    ∃ windows', (LinuxTCPIPSocket.recvsOf events).foldlM WindowsTCPIPSocket.step windows = .ok windows' ∧
      linux'.Sound ∧ Alike linux' windows' := by
  induction events generalizing linux windows with
  | nil =>
      obtain rfl := Except.ok.inj hrun
      exact ⟨windows, rfl, hlinux, h⟩
  | cons event events ih =>
      rw [List.foldlM_cons] at hrun
      obtain ⟨next, hstep, hrest⟩ := Run.bind_eq_ok hrun
      have hnext := hlinux.step event
      rw [hstep] at hnext
      obtain ⟨windows₁, hfirst, halike⟩ := h.step hlinux hstep
      obtain ⟨windows₂, hlater, hlast⟩ := ih hnext halike hrest
      refine ⟨windows₂, ?_, hlast⟩
      rw [LinuxTCPIPSocket.recvsOf, List.flatMap_cons, List.map_append, List.foldlM_append, hfirst]
      exact hlater

end Rikitiki
