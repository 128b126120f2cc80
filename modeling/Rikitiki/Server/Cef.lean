import Rikitiki.Library.Shared
import Rikitiki.Http.Accessors
import Rikitiki.Outgoing.Backends
import Rikitiki.Server.ConnContext

/-!
# Requests from an embedded browser

`ResourceHandler` answers a request of CEF with a response that is still being written. CEF asks for the
head once a callback has told it to go on, and for the body in pieces, where an empty piece has it wait for
another callback. Whoever holds a reference to the context writes in the meantime, one write at a time. The
lock of `ReadResponse` is nobody else's, so its steps and those of a write come in any order.
-/

namespace Rikitiki.Cef

inductive Callback where
  | headersReady
  | dataReady
  deriving DecidableEq, Repr

/-- `Continue` on a callback that is set. -/
def fire (callback : Callback) (ready : Bool) : List Callback := if ready then [callback] else []

/-- `cef::Response`, a response in memory with the callbacks that are set. -/
structure Response extends OResponseMemory where
  headersReady : Bool := false
  dataReady : Bool := false
  /-- how much of the body has been read -/
  bytesRead : Nat := 0
  /-- `failbit` of the body -/
  failed : Bool := false

/-- How far `Response::WritePayloadData` is. -/
inductive Writer where
  | idle
  /-- before `Body().write` -/
  | opened (data : Str)
  /-- before `if (dataReady)` -/
  | appended
  /-- between `dataReady->Continue()` and `dataReady = 0` -/
  | continued
  deriving DecidableEq, Repr

namespace Response

/-- `Response::SetState` -/
def setState (r : Response) (newState : MessageState) : List Callback × Response :=
  let headers := decide (r.streamState ≤ .headers ∧ .body ≤ newState) && r.headersReady
  let data := decide (newState = .finished) && r.dataReady
  (fire .headersReady headers ++ fire .dataReady data,
    { r with
      streamState := newState
      headersReady := r.headersReady && !headers
      dataReady := r.dataReady && !data })

/-- `case HEADERS` of `OMessage::WritePayloadData`. -/
def enterBody (r : Response) : List Callback × Response :=
  let bodyType := BodyType.from r.contentSize r.encoding
  setState { r with bodyType := if bodyType = .none then .buffering else bodyType } .body

/-- `OMessage::WritePayloadData`, or `none` when it throws. -/
def openBody (r : Response) : Option (List Callback × Response) :=
  match r.streamState with
  | .startLine =>
    let (callbacks, r) := r.setState .headers
    let (others, r) := r.enterBody
    some (callbacks ++ others, r)
  | .headers => some r.enterBody
  | .body => some ([], r)
  | .finished | .unknown => none

/-- `Body().write`, which writes nothing to a stream that has failed. -/
def append (r : Response) (data : Str) : Response := { r with body := r.body ++ if r.failed then [] else data }

/-- `operator<<` of a status or a field, and a payload write up to `Body().write`. -/
def stream (r : Response) : Op → List Callback × Response
  | .payload _ => r.openBody.getD ([], r)
  | op => ([], { r with toOResponseMemory := (r.toOResponseMemory.stream op).state })

/-- The write that an operation begins, unless it throws. -/
def begun (r : Response) : Op → Option Writer
  | .payload data => some (if r.openBody.isSome then .opened data else .idle)
  | .status _ | .field _ => none

def unread (r : Response) : Str := r.body.drop r.bytesRead

/-- `Body().read`, which fails at the end of what is there. -/
def read (r : Response) (bytesToRead : Nat) : Str × Response :=
  let bytes := if r.failed then [] else r.unread.take bytesToRead
  (bytes, { r with
    bytesRead := r.bytesRead + bytes.length
    failed := r.failed || bytes.length < bytesToRead })

end Response

structure Head where
  status : UInt16
  statusText : Str
  responseLength : Int64
  headerMap : List Header
  mimeType : Str
  deriving DecidableEq

inductive Effect where
  | continues (callback : Callback)
  | head (head : Head)
  /-- the bytes of `ReadResponse`, and what it returns -/
  | bytes (data : Str) (more : Bool)
  deriving DecidableEq

/-- `cef::ConnContext` -/
structure ConnContext where
  handled : Bool := false
  response : Response := {}

namespace ConnContext

def act (ctx : ConnContext) : Action → List Effect × ConnContext
  | .stream op =>
    let (callbacks, response) := ctx.response.stream op
    (callbacks.map .continues, { handled := ctx.handled || op.marks, response })
  | .streamRef op =>
    let (callbacks, response) := ctx.response.stream op
    (callbacks.map .continues, { ctx with response })
  | .handle => ([], { ctx with handled := true })
  -- The `Done` of the response does nothing.
  | .close => ([], ctx)

/-- `ResourceHandler::GetResponseHeaders` -/
def getResponseHeaders (ctx : ConnContext) : Head where
  status := ctx.response.status.status
  statusText := ctx.response.status.name
  responseLength := .ofNat (contentLength ctx.response.headers)
  headerMap := ctx.response.headers.fields
  mimeType := (contentType ctx.response.headers).toString

end ConnContext

/-- What is done to a context in one step. -/
inductive Use where
  | act (action : Action)
  | append (data : Str)
  /-- `if (dataReady) dataReady->Continue()`: CEF waits while a callback is set, so nothing comes in between -/
  | wake
  /-- `dataReady = 0` -/
  | forget
  /-- the end of `ProcessRequest`, where `alone` is whether `use_count` is 1 -/
  | proceed (alone : Bool)
  | getResponseHeaders
  | read (bytesToRead : Nat)
  /-- `Body().clear()` -/
  | clear
  | setCallback (ready : Bool)
  /-- the return of `ReadResponse` -/
  | answer (data : Str) (more : Bool)
  deriving DecidableEq, Repr

def ConnContext.use (ctx : ConnContext) : Use → List Effect × ConnContext
  | .act action => ctx.act action
  | .append data => ([], { ctx with response := ctx.response.append data })
  | .wake => ((fire .dataReady ctx.response.dataReady).map .continues, ctx)
  | .forget => ([], { ctx with response := { ctx.response with dataReady := false } })
  | .proceed alone => ((fire .headersReady (alone && ctx.response.headersReady)).map .continues, ctx)
  | .getResponseHeaders => ([.head ctx.getResponseHeaders], ctx)
  | .read bytesToRead => ([], { ctx with response := (ctx.response.read bytesToRead).2 })
  | .clear => ([], { ctx with response := { ctx.response with failed := false } })
  | .setCallback ready => ([], { ctx with response := { ctx.response with dataReady := ready } })
  | .answer data more => ([.bytes data more], ctx)

/-- A context behind a `ConnContextRef_`. `CleanConnContext` does nothing that CEF notices. -/
def behaviour : Shared.Behaviour ConnContext Use Effect := ⟨ConnContext.use, fun _ => []⟩

/-- How far the calls of CEF are. -/
inductive Main where
  /-- in `handler.Handle(ctx)`, whose argument is a reference of its own -/
  | handling
  /-- before `ctx.use_count() == 1` of `ProcessRequest` -/
  | counting
  /-- `ProcessRequest` has returned, and no other call is on its way. -/
  | done
  /-- in `ReadResponse`, before `Body().clear()` -/
  | reading (data : Str)
  /-- in `ReadResponse`, before `dataReady = bytes_read == 0 ? callback : 0` -/
  | setting (data : Str)
  /-- in `ReadResponse`, before `if (bytes_read)` -/
  | answering (data : Str)
  deriving DecidableEq, Repr

/-- What `ReadResponse` has read. -/
def Main.data : Main → Str
  | .reading data | .setting data | .answering data => data
  | .handling | .counting | .done => []

/-- What `Response::WritePayloadData` has still to write. -/
def Writer.data : Writer → Str
  | .opened data => data
  | .idle | .appended | .continued => []

structure ResourceHandler where
  main : Main
  writer : Writer
  ctx : Shared.State ConnContext

inductive Event where
  /-- Somebody with a reference, the handler included, does something to the context. -/
  | act (action : Action)
  | append
  | wake
  | forget
  | retain
  | release
  /-- The handler returns. -/
  | returns
  | count
  | getResponseHeaders
  /-- `ReadResponse` is called, and reads. -/
  | read (bytesToRead : Nat)
  | clear
  | setCallback
  | answer
  deriving DecidableEq, Repr

namespace ResourceHandler

def response (s : ResourceHandler) : Response := s.ctx.object.response

/-- What an event is for the context. -/
def shared (s : ResourceHandler) : Event → Shared.Event Use
  | .act action => .use (.act action)
  | .append => .use (.append s.writer.data)
  | .wake => .use .wake
  | .forget => .use .forget
  | .retain => .retain
  | .release | .returns => .release
  | .count => .own (.proceed (s.ctx.useCount = 1))
  | .getResponseHeaders => .own .getResponseHeaders
  | .read bytesToRead => .own (.read bytesToRead)
  | .clear => .own .clear
  | .setCallback => .own (.setCallback (s.main.data = []))
  | .answer => .own (.answer s.main.data (s.main.data ≠ [] || s.ctx.useCount ≠ 1))

/-- `ProcessRequest` at the call of the handler. -/
def start : ResourceHandler := ⟨.handling, .idle, ⟨true, 1, { response := { headersReady := true } }⟩⟩

/-- Where the calls of CEF are behind an event, if it can happen now. -/
def nextMain (s : ResourceHandler) : Event → Option Main
  | .act _ | .append | .wake | .forget | .retain => some s.main
  -- The reference of a running handler goes when the handler does.
  | .release => if s.main = .handling ∧ s.ctx.others ≤ 1 then none else some s.main
  | .returns => if s.main = .handling then some .counting else none
  | .count => if s.main = .counting then some .done else none
  | .getResponseHeaders => if s.main = .done then some .done else none
  | .read bytesToRead => if s.main = .done then some (.reading (s.response.read bytesToRead).1) else none
  | .clear =>
    match s.main with
    | .reading data => some (.setting data)
    | _ => none
  | .setCallback =>
    match s.main with
    | .setting data => some (.answering data)
    | _ => none
  | .answer =>
    match s.main with
    | .answering _ => some .done
    | _ => none

/-- Where the write is behind an event, if it can happen now. -/
def nextWriter (s : ResourceHandler) : Event → Option Writer
  | .act action =>
    match action.op?.bind s.response.begun with
    | some writer => if s.writer = .idle then some writer else none
    | none => some s.writer
  | .append =>
    match s.writer with
    | .opened _ => some .appended
    | _ => none
  | .wake => if s.writer = .appended then some (if s.response.dataReady then .continued else .idle) else none
  | .forget => if s.writer = .continued then some .idle else none
  -- Whoever is writing has a reference.
  | .release | .returns => if s.writer ≠ .idle ∧ s.ctx.others ≤ 1 then none else some s.writer
  | .retain | .count | .getResponseHeaders | .read _ | .clear | .setCallback | .answer => some s.writer

def step (s : ResourceHandler) (event : Event) : Option (List Effect × ResourceHandler) :=
  (s.nextMain event).bind fun main => (s.nextWriter event).bind fun writer =>
    (Shared.step behaviour s.ctx (s.shared event)).map fun (effects, ctx) => (effects, ⟨main, writer, ctx⟩)

end ResourceHandler

/-! ### The response in memory -/

namespace Response

/-- **A write to a body that is good is one to a response in memory**, whatever callbacks are set. -/
theorem writePayloadData_eq {r : Response} (hgood : r.failed = false) (data : Str) :
    r.toOResponseMemory.writePayloadData data = match r.openBody with
      | some (_, r') => .returns data.length (r'.append data).toOResponseMemory
      | none => .throws (.invalidStateException "Could not write payload") r.toOResponseMemory := by
  cases h : r.streamState
  all_goals
    simp [openBody, enterBody, setState, append, OResponseMemory.writePayloadData, OMessage.writePayloadData, h,
      hgood, Result.bind, Result.mapState]

/-- A response that can be written to, and whose callback for the head is in tune with its state. -/
structure Tuned (r : Response) : Prop where
  writable : r.toOResponseMemory.Writable
  headers : r.headersReady = decide (r.streamState = .startLine)
  bytesRead_le : r.bytesRead ≤ r.body.length

variable {r : Response}

theorem Tuned.openBody (hr : r.Tuned) : ∃ bodyType, r.openBody = some (fire .headersReady r.headersReady,
    { r with streamState := .body, bodyType, headersReady := false }) := by
  have hheaders := hr.headers
  rcases hr.writable with h | h
  · refine ⟨if BodyType.from r.contentSize r.encoding = .none then .buffering
      else BodyType.from r.contentSize r.encoding, ?_⟩
    simp [Response.openBody, enterBody, setState, h, hheaders, fire, MessageState.le_def, MessageState.toNat]
  · have hfired : r.headersReady = false := by simp [hheaders, h]
    refine ⟨r.bodyType, ?_⟩
    simp only [Response.openBody, h, hfired, fire, Bool.false_eq_true, if_false]
    rw [← h, ← hfired]

theorem Tuned.begun (hr : r.Tuned) (op : Op) :
    r.begun op = if op.isPayload then some (.opened op.data) else none := by
  cases op with
  | status status => rfl
  | field field => rfl
  | payload data =>
      obtain ⟨bodyType, hopen⟩ := hr.openBody
      rw [Response.begun, hopen]
      rfl

/-- What an operation leaves of a response. -/
structure Streamed (r : Response) (op : Op) (callbacks : List Callback) (r' : Response) : Prop where
  tuned : r'.Tuned
  status : r'.status = op.status?.getD r.status
  headers : r'.headers = OResponseMemory.store r.headers op
  body : r'.body = r.body
  unread : r'.unread = r.unread
  failed : r'.failed = r.failed
  headersReady : r'.headersReady = (r.headersReady && !op.isPayload)
  dataReady : r'.dataReady = r.dataReady
  callbacks : callbacks = if op.isPayload then fire .headersReady r.headersReady else []

theorem Tuned.streamed (hr : r.Tuned) (op : Op) : Streamed r op (r.stream op).1 (r.stream op).2 := by
  have hfields : ∀ (status : HttpStatus) (headers : HeaderCollection),
      ({ r with status, headers } : Response).Tuned := fun _ _ => ⟨hr.writable, hr.headers, hr.bytesRead_le⟩
  cases op with
  | status status => exact ⟨hfields _ _, rfl, rfl, rfl, rfl, rfl, (Bool.and_true _).symm, rfl, rfl⟩
  | field field =>
      cases field
      all_goals exact ⟨hfields _ _, rfl, rfl, rfl, rfl, rfl, (Bool.and_true _).symm, rfl, rfl⟩
  | payload data =>
      obtain ⟨bodyType, hopen⟩ := hr.openBody
      rw [stream, hopen]
      exact ⟨⟨.inr rfl, rfl, hr.bytesRead_le⟩, rfl, rfl, rfl, rfl, rfl, (Bool.and_false _).symm, rfl, rfl⟩

theorem Tuned.append (hr : r.Tuned) (data : Str) : (r.append data).Tuned ∧
    (r.append data).unread = r.unread ++ if r.failed then [] else data := by
  have hle := hr.bytesRead_le
  refine ⟨⟨hr.writable, hr.headers, ?_⟩, List.drop_append_of_le_length hle⟩
  rw [Response.append, List.length_append]
  exact Nat.le_add_right_of_le hle

theorem read_append_unread (r : Response) (bytesToRead : Nat) :
    (r.read bytesToRead).1 ++ (r.read bytesToRead).2.unread = r.unread := by
  cases h : r.failed with
  | true => simp [read, unread, h]
  | false =>
      have hdrop : (r.read bytesToRead).2.unread = r.unread.drop (r.unread.take bytesToRead).length := by
        simp [read, unread, h, List.drop_drop]
      have htake : (r.read bytesToRead).1 = r.unread.take bytesToRead := by simp [read, h]
      rw [htake, hdrop]
      exact List.prefix_iff_eq_append.mp (List.take_prefix ..)

theorem Tuned.read (hr : r.Tuned) (bytesToRead : Nat) : (r.read bytesToRead).2.Tuned where
  writable := hr.writable
  headers := hr.headers
  bytesRead_le := by
    have hle := hr.bytesRead_le
    have hunread : r.unread.length = r.body.length - r.bytesRead := List.length_drop
    have hread := congrArg List.length (read_append_unread r bytesToRead)
    rw [List.length_append] at hread
    change r.bytesRead + (r.read bytesToRead).1.length ≤ r.body.length
    omega

end Response

end Rikitiki.Cef
