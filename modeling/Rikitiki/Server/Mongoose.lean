import Rikitiki.Incoming.CloseDelimited
import Rikitiki.RoundTrip
import Rikitiki.Server.Handle

/-!
# Requests under mongoose

The event handler of mongoose offers a request to the handlers of the server, and has mongoose answer it with a
file or an error of its own if nobody has taken care of it. What a response sends is decided once the last reference
to its context is gone: a whole response if somebody marked the context, and else at most the beginning of a head,
which is no response however long the client waits.
-/

namespace Rikitiki

section Performed

variable {ρ : Type} {request : ρ} {handlers : List (Handler ρ)} {ctx ctx' : ConnContext} {value : Bool}

/-- All that `Server::Handle` does to the context, or has its handlers do. -/
def Server.performed (request : ρ) : List (Handler ρ) → ConnContext → List Action
  | [], _ => []
  | handler :: handlers, ctx =>
    let (actions, thrown) := handler.attempt request ctx
    match thrown with
    | some (.handlerException status) => actions ++ [.streamRef (.status (status.getD .internalServerError))]
    | some (.other _) => actions
    | none =>
      if (ctx.after actions).handled then actions
      else actions ++ performed request handlers (ctx.after actions)

/-- A handler throws a `HandlerException` that `Server::Handle` comes to catch. -/
def Catches (request : ρ) (handlers : List (Handler ρ)) (ctx : ConnContext) : Prop :=
  ∃ actions status, Throws request handlers ctx actions status

theorem not_catches_nil : ¬ Catches request [] ctx := by
  intro h
  obtain ⟨actions, status, hthrows⟩ := h
  cases hthrows

theorem catches_cons_of_goesOn {handler : Handler ρ} {before : List Action}
    (hattempt : handler.attempt request ctx = (before, none)) (hopen : (ctx.after before).handled = false) :
    Catches request (handler :: handlers) ctx ↔ Catches request handlers (ctx.after before) := by
  constructor
  · intro h
    obtain ⟨actions, status, hthrows⟩ := h
    cases hthrows with
    | here hthrown =>
        rw [hattempt] at hthrown
        cases (Prod.mk.inj hthrown).2
    | later hnone _ hrest =>
        obtain ⟨rfl, -⟩ := Prod.mk.inj (hattempt.symm.trans hnone)
        exact ⟨_, status, hrest⟩
  · intro h
    obtain ⟨actions, status, hrest⟩ := h
    exact ⟨before ++ actions, status, .later hattempt hopen hrest⟩

/-- **What `Server::Handle` leaves and returns** when it does return. -/
theorem handle_spec (hfresh : ctx.handled = false)
    (hreturns : Server.handle request handlers ctx = .returns value ctx') :
    ctx' = ctx.after (Server.performed request handlers ctx) ∧
      (value = false ↔ ¬ Catches request handlers ctx ∧ ctx'.handled = false) := by
  induction handlers generalizing ctx with
  | nil =>
      obtain ⟨rfl, rfl⟩ := Result.returns.inj hreturns
      exact ⟨rfl, fun _ => ⟨not_catches_nil, hfresh⟩, fun _ => rfl⟩
  | cons handler handlers ih =>
      rw [Server.performed]
      obtain ⟨actions, thrown, hattempt⟩ : ∃ actions thrown, handler.attempt request ctx = (actions, thrown) :=
        ⟨_, _, rfl⟩
      rw [hattempt]
      rw [handle_cons, turn_of_attempt hattempt] at hreturns
      cases thrown with
      | none =>
          cases hhandled : (ctx.after actions).handled with
          | true =>
              simp only [ConnContext.conclude, hhandled, if_true] at hreturns ⊢
              obtain ⟨rfl, rfl⟩ := Result.returns.inj hreturns
              simp [hhandled]
          | false =>
              simp only [ConnContext.conclude, hhandled, Bool.false_eq_true, if_false] at hreturns ⊢
              rw [ConnContext.after_append, catches_cons_of_goesOn hattempt hhandled]
              exact ih hhandled hreturns
      | some thrown =>
          cases thrown with
          | handlerException status =>
              obtain ⟨rfl, rfl⟩ := Result.returns.inj hreturns
              have hcatches : Catches request (handler :: handlers) ctx := ⟨actions, status, .here hattempt⟩
              simp only [ConnContext.after_append, hcatches, not_true, false_and, Bool.true_eq_false, iff_self,
                and_true]
              rfl
          | other error => cases hreturns

end Performed

namespace Mongoose

/-! ### What the connection gets -/

structure Answer where
  /-- whether `mg_serve_http` is called -/
  served : Bool
  /-- what the response has sent by then -/
  before : Str
  /-- what has been sent on the connection when the last reference to the context is gone -/
  sent : Str
  deriving DecidableEq, Repr

/-- `case MG_EV_HTTP_REQUEST` of `_handler`, where `mg_serve_http` sends `served` for the request, with what is
done through references to the context that handlers have kept. -/
def onRequest {ρ : Type} (request : ρ) (handlers : List (Handler ρ)) (served : Str) (kept : List Action) :
    Except Exception Answer :=
  match Server.handle request handlers {} with
  | .returns handled ctx =>
    let before := ctx.response.wire
    let response := (ctx.after kept).clean.state.response.wire
    .ok
      { served := !handled
        before
        sent := if handled then response else before ++ (served ++ response.drop before.length) }
  | .throws error _ => .error error

def sentOpen (ops : List Op) : Str :=
  if ∀ op ∈ ops, op.status? ≠ none then []
  else statusLine (statusInEffect .ok ops) ++ fieldLines (acceptedFields ops)

theorem writer_wire (d : Draft) :
    d.writer.wire = if d.phase = .opening then [] else statusLine d.sent ++ fieldLines d.fields := by
  obtain ⟨status, phase⟩ := d
  cases phase <;> rfl

theorem phase_step (d : Draft) (op : Op) :
    (d.step op).2.phase = .opening ↔ d.phase = .opening ∧ op.status? ≠ none := by
  obtain ⟨status, phase⟩ := d
  cases op <;> cases phase <;> simp [Draft.step, Op.status?]

theorem phase_run (d : Draft) (ops : List Op) :
    (Machine.run Draft.step d ops).2.phase = .opening ↔
      d.phase = .opening ∧ ∀ op ∈ ops, op.status? ≠ none := by
  induction ops generalizing d with
  | nil => simp
  | cons op ops ih => rw [Machine.run_cons, ih, phase_step, List.forall_mem_cons, and_assoc]

/-- **An open writer has sent the head so far**, without the end of it. -/
theorem wire_run_fresh (ops : List Op) : (Machine.run OResponseWriter.step .fresh ops).2.wire = sentOpen ops := by
  obtain ⟨-, -, hsent, hfields, -⟩ := Draft.ofOps_eq ops
  have hphase : (Draft.ofOps ops).phase = .opening ↔ ∀ op ∈ ops, op.status? ≠ none := by
    rw [Draft.ofOps, phase_run]
    exact and_iff_right rfl
  rw [OResponseWriter.run_fresh, writer_wire, hsent, hfields, sentOpen]
  simp only [hphase]

theorem wire_begins_step (d : Draft) (op : Op) : d.writer.wire <+: (d.step op).2.writer.wire := by
  obtain ⟨status, phase⟩ := d
  cases phase with
  | opening => exact List.nil_prefix
  | heading sent fields => cases op <;> simp [Draft.step, Draft.writer, Draft.sent, Draft.fields]
  | writing sent fields body => cases op <;> simp [Draft.step, Draft.writer, Draft.sent, Draft.fields]

theorem wire_run_prefix (d : Draft) (ops : List Op) :
    d.writer.wire <+: (Machine.run Draft.step d ops).2.writer.wire := by
  induction ops generalizing d with
  | nil => exact List.prefix_refl _
  | cons op ops ih => exact (wire_begins_step d op).trans (ih _)

theorem sentOpen_begins (ops more : List Op) : sentOpen ops <+: sentOpen (ops ++ more) := by
  rw [← wire_run_fresh, ← wire_run_fresh, OResponseWriter.run_fresh, OResponseWriter.run_fresh, Draft.ofOps,
    Draft.ofOps, Machine.run_append]
  exact wire_run_prefix _ more

theorem sentOpen_prefix_render (ops : List Op) :
    sentOpen ops <+: render (statusInEffect .ok ops) (acceptedFields ops) (payloadOf ops) := by
  rw [sentOpen]
  split
  · exact List.nil_prefix
  · rw [render, fieldLines_append, List.append_assoc, ← List.append_assoc]
    exact List.prefix_append _ _

section Answers

variable {ρ : Type} {request : ρ} {handlers : List (Handler ρ)} {served : Str} {kept : List Action} {answer : Answer}

def actionsOf (request : ρ) (handlers : List (Handler ρ)) (kept : List Action) : List Action :=
  Server.performed request handlers {} ++ kept

theorem after_fresh {actions : List Action} (hopen : .close ∉ actions) :
    ConnContext.after {} actions = { handled := actions.any Action.marks
                                     response := (Machine.run OResponseWriter.step .fresh (opsOf actions)).2 } :=
  ConnContext.run_eq (fun _ haction heq => hopen (heq ▸ haction)) {}

/-- What a response has sent once the last reference to its context is gone. -/
def responseOf (actions : List Action) : Str :=
  if actions.any Action.marks then
    render (statusInEffect .ok (opsOf actions)) (acceptedFields (opsOf actions)) (payloadOf (opsOf actions))
  else sentOpen (opsOf actions)

theorem clean_wire {actions : List Action} (hopen : .close ∉ actions) :
    (ConnContext.after {} actions).clean.state.response.wire = responseOf actions := by
  rw [after_fresh hopen, responseOf]
  cases hmarks : actions.any Action.marks with
  | true =>
      rw [ConnContext.clean_of_handled rfl rfl, if_pos rfl]
      exact OResponseWriter.closed_wire _
  | false =>
      rw [if_neg Bool.false_ne_true]
      exact wire_run_fresh _

theorem sentOpen_begins_responseOf (actions more : List Action) :
    sentOpen (opsOf actions) <+: responseOf (actions ++ more) := by
  have hops : opsOf (actions ++ more) = opsOf actions ++ opsOf more := List.filterMap_append
  rw [responseOf]
  split
  · rw [hops]
    exact (sentOpen_begins _ _).trans (sentOpen_prefix_render _)
  · rw [hops]
    exact sentOpen_begins _ _

theorem onRequest_ok (hanswer : onRequest request handlers served kept = .ok answer)
    (hopen : .close ∉ actionsOf request handlers kept) :
    ∃ value, Server.handle request handlers {}
        = .returns value (ConnContext.after {} (Server.performed request handlers {})) ∧
      answer.served = !value ∧ answer.before = sentOpen (opsOf (Server.performed request handlers {})) ∧
      answer.sent = if value then responseOf (actionsOf request handlers kept)
        else answer.before ++ (served ++ (responseOf (actionsOf request handlers kept)).drop answer.before.length) := by
  have hperformed : .close ∉ Server.performed request handlers {} :=
    fun h => hopen (List.mem_append_left kept h)
  rw [onRequest] at hanswer
  cases hhandle : Server.handle request handlers {} with
  | throws error ctx =>
      rw [hhandle] at hanswer
      cases hanswer
  | returns value ctx =>
      rw [hhandle] at hanswer
      obtain rfl := Except.ok.inj hanswer
      obtain ⟨rfl, -⟩ := handle_spec rfl hhandle
      have hbefore : (ConnContext.after {} (Server.performed request handlers {})).response.wire
          = sentOpen (opsOf (Server.performed request handlers {})) := by
        rw [after_fresh hperformed]
        exact wire_run_fresh _
      refine ⟨value, rfl, rfl, hbefore, ?_⟩
      rw [← clean_wire hopen, actionsOf, ConnContext.after_append]

/-- **What a request comes to.** Mongoose answers it exactly if no handler has marked the context or thrown, and
then in between of what the response sends. In the end this is a whole response, of all that was done through any
reference, if something of that marked the context, and else as much of a head as there is. -/
theorem answer_eq (hanswer : onRequest request handlers served kept = .ok answer)
    (hopen : .close ∉ actionsOf request handlers kept) :
    (answer.served = true ↔ ¬ Catches request handlers {} ∧
        ∀ action ∈ Server.performed request handlers {}, action.marks = false) ∧
      answer.before = sentOpen (opsOf (Server.performed request handlers {})) ∧
      (answer.served = false → answer.sent = responseOf (actionsOf request handlers kept)) ∧
      (answer.served = true → ∃ later, answer.before ++ later = responseOf (actionsOf request handlers kept) ∧
        answer.sent = answer.before ++ (served ++ later)) := by
  obtain ⟨value, hhandle, hserved, hbefore, hsent⟩ := onRequest_ok hanswer hopen
  have hperformed : .close ∉ Server.performed request handlers {} :=
    fun h => hopen (List.mem_append_left kept h)
  refine ⟨?_, hbefore, fun hnot => ?_, fun hyes => ?_⟩
  · have hvalue := (handle_spec rfl hhandle).2
    rw [after_fresh hperformed, List.any_eq_false] at hvalue
    rw [hserved, Bool.not_eq_true', hvalue]
    simp only [Bool.not_eq_true]
  · rw [hserved, Bool.not_eq_false'] at hnot
    rwa [hnot, if_pos rfl] at hsent
  · rw [hserved, Bool.not_eq_true'] at hyes
    rw [hyes, if_neg Bool.false_ne_true] at hsent
    refine ⟨_, ?_, hsent⟩
    rw [hbefore]
    exact (List.prefix_append_drop (sentOpen_begins_responseOf _ kept)).symm

/-- A handler writes without marking the context and throws, and who has kept the context marks it later. -/
def late : Handler Unit where
  canHandle _ := .ok true
  handle _ _ := ([.streamRef (.payload (lit "a"))], some (.handlerException none))

theorem answer_eq_late : ∃ answer,
    onRequest () [late] (lit "HTTP/1.1 404 Not Found\r\n\r\n") [.handle, .streamRef (.payload (lit "b"))] = .ok answer ∧
      answer.served = false ∧ answer.before = lit "HTTP/1.1 200 OK\r\n" ∧
      answer.sent = lit "HTTP/1.1 200 OK\r\nContent-Length: 2\r\n\r\nab" := by
  obtain ⟨answer, hanswer, hserved⟩ : ∃ answer, onRequest () [late] (lit "HTTP/1.1 404 Not Found\r\n\r\n")
      [.handle, .streamRef (.payload (lit "b"))] = .ok answer ∧ answer.served = false :=
    ⟨_, rfl, rfl⟩
  obtain ⟨-, hbefore, hsent, -⟩ := answer_eq hanswer (by decide)
  refine ⟨answer, hanswer, hserved, ?_, ?_⟩
  · rw [hbefore]
    decide
  · rw [hsent hserved]
    decide

end Answers

/-! ### What the client reads -/

section Client

open IResponseMemory

theorem feed_pending {m : IResponseMemory} {fragments : List Str} {pending : Str} (hm : Framed m)
    (h : Unframed m (fragments.flatten ++ pending)) :
    ∃ m', feed m fragments = some (List.replicate fragments.length (.returned false), m') ∧
      Unframed m' pending := by
  induction fragments generalizing m with
  | nil => exact ⟨m, rfl, h⟩
  | cons data fragments ih =>
      rw [List.flatten_cons, List.append_assoc] at h
      obtain ⟨m₁, hcall, hunframed⟩ := onData_unframed hm h
      have hanswer : IResponseMemory.answer (m.onData data) = some (.returned false, m₁) := by rw [hcall]; rfl
      obtain ⟨m₂, hfeed, hlast⟩ := ih (advance_of_answer hm hanswer).framed hunframed
      refine ⟨m₂, ?_, hlast⟩
      rw [feed, Run.run_cons_of_some hanswer, ← feed, hfeed]
      rfl

theorem sendable_acceptedFields {ops : List Op} (hops : ∀ op ∈ ops, op.Sendable) :
    ∀ field ∈ acceptedFields ops, field.Sendable ∧ field.name ≠ lit "Content-Length" ∧
      field.name ≠ lit "Transfer-Encoding" := by
  intro field hfield
  obtain ⟨f, hf, rfl⟩ := exists_of_mem_acceptedFields hfield
  exact hops _ hf

/-- **A head without its end is never answered with `true`**, however it is cut. -/
theorem feed_sentOpen {ops : List Op} {fragments : List Str} (hops : ∀ op ∈ ops, op.Sendable)
    (hwire : fragments.flatten = sentOpen ops) (hne : ∀ fragment ∈ fragments, fragment ≠ []) :
    ∃ m, feed .fresh fragments = some (List.replicate fragments.length (.returned false), m) := by
  by_cases hnone : ∀ op ∈ ops, op.status? ≠ none
  · rw [sentOpen, if_pos hnone, List.flatten_eq_nil_iff] at hwire
    have hfragments : fragments = [] := List.eq_nil_iff_forall_not_mem.mpr fun f hf => hne f hf (hwire f hf)
    subst hfragments
    exact ⟨.fresh, rfl⟩
  · rw [sentOpen, if_neg hnone] at hwire
    have hfield := sendable_acceptedFields hops
    obtain ⟨head, hstart, hbytes, hheaders⟩ :=
      exists_head (sendable_statusInEffect sendable_ok hops) fun field h => (hfield field h).1
    have hframing : NoFraming head.headers := by
      rw [hheaders]
      constructor
      · exact HeaderCollection.get_addAll_of_ne fun field h => (hfield field h).2.1
      · exact HeaderCollection.get_addAll_of_ne fun field h => (hfield field h).2.2
    have hstream : fragments.flatten ++ crlf
        = head.startLine ++ (crlf ++ (linesBytes head.lines ++ (crlf ++ []))) := by
      rw [hwire, List.append_assoc, ← hbytes, ResponseHead.bytes, List.append_nil]
    have hunframed : Unframed .fresh (fragments.flatten ++ crlf) :=
      .startLine rfl rfl .nil head.startLine_plain (by rw [hstart]; exact Option.some_ne_none _)
        (fun line hline => otherLine_of_noFraming hframing hline) hstream
    obtain ⟨m, hfeed, -⟩ := feed_pending framed_fresh hunframed
    exact ⟨m, hfeed⟩

theorem feed_closed {ops : List Op} {fragments : List Str} (hops : ∀ op ∈ ops, op.Sendable)
    (hsize : (payloadOf ops).length < npos)
    (hwire : fragments.flatten = render (statusInEffect .ok ops) (acceptedFields ops) (payloadOf ops))
    (hne : ∀ fragment ∈ fragments, fragment ≠ [])
    (hcuts : ¬ CutsLineEnd fragments (fragments.flatten.length - (payloadOf ops).length)) :
    ∃ m, feed .fresh fragments
        = some (List.replicate (fragments.length - 1) (.returned false) ++ [.returned true], m) ∧
      m.derived = received (statusInEffect .ok ops)
        (.addAll ∅ (acceptedFields ops ++ [lengthField (payloadOf ops).length])) (payloadOf ops) := by
  have hfield := sendable_acceptedFields hops
  rw [hwire] at hcuts
  exact feed_render (sendable_statusInEffect sendable_ok hops) (fun field h => (hfield field h).1)
    (fun field h => (hfield field h).2.1) (fun field h => (hfield field h).2.2) hsize hwire hne hcuts

/-- What libevent tells the socket of a client. -/
inductive SocketEvent where
  /-- `readcb` comes to a chunk of its buffer -/
  | readcb (chunk : Str)
  /-- `eventcb`, for the end of the connection too -/
  | eventcb
  deriving DecidableEq, Repr

def SocketEvent.chunk? : SocketEvent → Option Str
  | .readcb chunk => some chunk
  | .eventcb => none

def chunksOf (events : List SocketEvent) : List Str := events.filterMap SocketEvent.chunk?

/-- A callback, and whether it calls `OnClose`. The promise of a client can be kept once, and an exception does
not leave a callback. -/
def socketStep (client : SimpleRequestClient) : SocketEvent → Option (Bool × SimpleRequestClient)
  | .readcb chunk =>
    match client.onData chunk with
    | some (.returned true, client) => if client.promise.isSome then none else some (true, client.onClose)
    | some (.returned false, client) => some (false, client)
    | some (.threw _, _) => none
    | none => none
  | .eventcb => some (false, client)

theorem socketStep_readcb {client : SimpleRequestClient} {chunk : Str} {m : IResponseMemory} {value : Bool}
    (hpromise : client.promise = none)
    (hanswer : IResponseMemory.answer (client.response.onData chunk) = some (.returned value, m)) :
    socketStep client (.readcb chunk) = some (value, ⟨m, if value then some m else none⟩) := by
  rw [socketStep, SimpleRequestClient.onData, hanswer]
  cases value <;> simp [hpromise, SimpleRequestClient.onClose]

theorem socket_goesOn {client : SimpleRequestClient} {events : List SocketEvent} {m : IResponseMemory}
    (hpromise : client.promise = none)
    (hfeed : feed client.response (chunksOf events)
      = some (List.replicate (chunksOf events).length (.returned false), m)) :
    Run.run socketStep client events = some (List.replicate events.length false, ⟨m, none⟩) := by
  induction events generalizing client with
  | nil =>
      obtain ⟨response, promise⟩ := client
      obtain ⟨-, rfl⟩ := Prod.mk.inj (Option.some.inj hfeed)
      obtain rfl : promise = none := hpromise
      rfl
  | cons event events ih =>
      cases event with
      | eventcb =>
          rw [Run.run_cons_of_some (rfl : socketStep client .eventcb = some (false, client)), ih hpromise hfeed]
          rfl
      | readcb chunk =>
          obtain ⟨reply, others, m₁, hanswer, hrest, hreplies⟩ := Run.run_cons_eq_some.mp hfeed
          obtain ⟨rfl, rfl⟩ := List.cons.inj hreplies
          have hlater := ih (rfl : (⟨m₁, none⟩ : SimpleRequestClient).promise = none) hrest
          rw [Run.run_cons_of_some (socketStep_readcb hpromise hanswer)]
          simp only [Bool.false_eq_true, if_false, hlater]
          rfl

theorem socket_quiet {events : List SocketEvent} (hchunks : chunksOf events = []) (client : SimpleRequestClient) :
    Run.run socketStep client events = some (List.replicate events.length false, client) := by
  induction events with
  | nil => rfl
  | cons event events ih =>
      cases event with
      | eventcb =>
          rw [Run.run_cons_of_some (rfl : socketStep client .eventcb = some (false, client)), ih hchunks]
          rfl
      | readcb chunk => cases hchunks

theorem socket_keeps {client : SimpleRequestClient} {events : List SocketEvent} {m : IResponseMemory}
    (hpromise : client.promise = none)
    (hfeed : feed client.response (chunksOf events)
      = some (List.replicate ((chunksOf events).length - 1) (.returned false) ++ [.returned true], m)) :
    ∃ closes, Run.run socketStep client events = some (closes, ⟨m, some m⟩) ∧ closes.count true = 1 := by
  induction events generalizing client with
  | nil => cases hfeed
  | cons event events ih =>
      cases event with
      | eventcb =>
          obtain ⟨closes, hrun, hcount⟩ := ih hpromise hfeed
          refine ⟨false :: closes, ?_, hcount⟩
          rw [Run.run_cons_of_some (rfl : socketStep client .eventcb = some (false, client)), hrun]
          rfl
      | readcb chunk =>
          obtain ⟨reply, others, m₁, hanswer, hrest, hreplies⟩ := Run.run_cons_eq_some.mp hfeed
          have hlength : (chunksOf (.readcb chunk :: events)).length - 1 = (chunksOf events).length := rfl
          rw [hlength] at hreplies
          cases hchunks : chunksOf events with
          | nil =>
              rw [hchunks] at hreplies
              obtain ⟨rfl, rfl⟩ := List.cons.inj hreplies
              have hlast : feed m₁ (chunksOf events) = some ([], m) := hrest
              rw [hchunks] at hlast
              obtain ⟨-, rfl⟩ := Prod.mk.inj (Option.some.inj hlast)
              refine ⟨true :: List.replicate events.length false, ?_, ?_⟩
              · rw [Run.run_cons_of_some (socketStep_readcb hpromise hanswer), if_pos rfl,
                  socket_quiet hchunks]
                rfl
              · rw [List.count_cons_self, List.count_replicate]
                rfl
          | cons next chunks =>
              rw [hchunks] at hreplies
              obtain ⟨rfl, rfl⟩ := List.cons.inj hreplies
              have hmore : (chunksOf events).length - 1 = chunks.length := by rw [hchunks]; rfl
              have hlater : feed m₁ (chunksOf events) = some
                  (List.replicate ((chunksOf events).length - 1) (.returned false) ++ [.returned true], m) := by
                rw [hmore]
                exact hrest
              obtain ⟨closes, hrun, hcount⟩ := ih (rfl : (⟨m₁, none⟩ : SimpleRequestClient).promise = none) hlater
              refine ⟨false :: closes, ?_, hcount⟩
              rw [Run.run_cons_of_some (socketStep_readcb hpromise hanswer)]
              simp only [Bool.false_eq_true, if_false, hrun]
              rfl

variable {ρ : Type} {request : ρ} {handlers : List (Handler ρ)} {served : Str} {kept : List Action} {answer : Answer}
  {events : List SocketEvent}

/-- **The future of a client gets a response exactly if somebody marks the context**, and then once, with all
that was written through any reference, for a request that the handlers are left to answer. Else it waits for ever:
the end of the connection does not help. -/
theorem future_ready (hanswer : onRequest request handlers served kept = .ok answer)
    (htaken : answer.served = false) (hopen : .close ∉ actionsOf request handlers kept)
    (hops : ∀ op ∈ opsOf (actionsOf request handlers kept), op.Sendable)
    (hsize : (payloadOf (opsOf (actionsOf request handlers kept))).length < npos)
    (hwire : (chunksOf events).flatten = answer.sent) (hne : ∀ chunk ∈ chunksOf events, chunk ≠ [])
    (hcuts : ¬ CutsLineEnd (chunksOf events)
      ((chunksOf events).flatten.length - (payloadOf (opsOf (actionsOf request handlers kept))).length)) :
    ∃ closes client, Run.run socketStep {} events = some (closes, client) ∧
      if (actionsOf request handlers kept).any Action.marks then
        closes.count true = 1 ∧ ∃ m, client.promise = some m ∧
          let ops := opsOf (actionsOf request handlers kept)
          m.derived = received (statusInEffect .ok ops)
            (.addAll ∅ (acceptedFields ops ++ [lengthField (payloadOf ops).length])) (payloadOf ops)
      else client.promise = none := by
  have hsent : answer.sent = responseOf (actionsOf request handlers kept) := by
    obtain ⟨value, -, hserved, -, hsent⟩ := onRequest_ok hanswer hopen
    rw [hserved, Bool.not_eq_false'] at htaken
    rwa [htaken, if_pos rfl] at hsent
  rw [hsent, responseOf] at hwire
  cases hmarks : (actionsOf request handlers kept).any Action.marks with
  | true =>
      rw [hmarks, if_pos rfl] at hwire
      obtain ⟨m, hfeed, hm⟩ := feed_closed hops hsize hwire hne hcuts
      obtain ⟨closes, hrun, hcount⟩ := socket_keeps (rfl : ({} : SimpleRequestClient).promise = none) hfeed
      exact ⟨closes, ⟨m, some m⟩, hrun, hcount, m, rfl, hm⟩
  | false =>
      rw [hmarks, if_neg Bool.false_ne_true] at hwire
      obtain ⟨m, hfeed⟩ := feed_sentOpen hops hwire hne
      exact ⟨_, ⟨m, none⟩, socket_goesOn (rfl : ({} : SimpleRequestClient).promise = none) hfeed, rfl⟩

/-- The connection ends behind a response in two chunks. -/
def lateEvents : List SocketEvent :=
  [.readcb (lit "HTTP/1.1 200 OK\r\nContent-Length: 2\r\n\r\na"), .readcb (lit "b"), .eventcb]

theorem future_ready_late : ∃ closes client m, Run.run socketStep {} lateEvents = some (closes, client) ∧
    client.promise = some m ∧ m.derived.body = lit "ab" := by
  obtain ⟨answer, hanswer, htaken, hsent⟩ : ∃ answer,
      onRequest () [late] [] [.handle, .streamRef (.payload (lit "b"))] = .ok answer ∧ answer.served = false ∧
        answer.sent = lit "HTTP/1.1 200 OK\r\nContent-Length: 2\r\n\r\nab" := ⟨_, rfl, rfl, by decide⟩
  have hwire : (chunksOf lateEvents).flatten = answer.sent := by
    rw [hsent]
    decide
  obtain ⟨closes, client, hrun, -, m, hpromise, hm⟩ := future_ready hanswer htaken (by decide) (by decide)
    (by decide) hwire (by decide) (not_cutsLineEnd_of_first (by decide))
  exact ⟨closes, client, m, hrun, hpromise, by rw [hm]; rfl⟩

end Client

end Mongoose

end Rikitiki
