import Rikitiki.Websocket.Receive
import Std.Data.ExtTreeMap
import Mathlib.Logic.Function.Basic

/-!
# The processes of a websocket server

A server keeps the process of each open connection in a `std::map` from handles to pointers. Its entry
points look connections up with `operator[]`, which stores a null pointer where there is no entry, and two
of them remove a process. The model has the map, the processes with the callbacks made on them, and one step
for each event. A failed assertion ends the run, and so does `MongooseServer::HandleWs`, which hides the
function of the base class that it means to call.

A server says under which key `Close` looks for a context: its `Handle` in `Server::Close`, its connection
in `MongooseServer::Close`. A `Write` that fails within `OnReady` or `OnReceiveFrame` is the event that
follows the one of the callback, as nothing behind these callbacks touches the map.
-/

namespace Rikitiki.Websocket

/-- A pointer that identifies a connection, `0` being null. -/
abbrev ConnectionHandle := Nat

/-- A pointer to a process, counted in the order of their creation. -/
abbrev ProcessId := Nat

/-- What of a context the registry depends on. -/
structure WebsocketContext where
  /-- the address of the context object -/
  address : ConnectionHandle
  requestConn : ConnectionHandle
  conn : ConnectionHandle
  deriving DecidableEq, Repr

/-- `WebsocketContext::Handle` -/
def WebsocketContext.handle (context : WebsocketContext) : ConnectionHandle := context.address

/-- The constructor of `MongooseWebsocketContext`. -/
def WebsocketContext.mongoose (address conn : ConnectionHandle) : WebsocketContext := ⟨address, conn, 0⟩

inductive Callback where
  | onConnect
  | onReady
  | onReceiveFrame (frame : Frame)
  | onReceiveMessage (message : Message)
  | onClose
  deriving DecidableEq, Repr

/-- A process with the callbacks made on it. -/
structure ProcessObject where
  context : WebsocketContext
  callbacks : List Callback
  /-- not deleted -/
  alive : Bool
  process : WebsocketProcess := {}
  deriving DecidableEq, Repr

inductive Stop where
  /-- `assert(process)` -/
  | noProcess
  | inProcess (failure : Failure)
  /-- a call that never returns -/
  | endless
  deriving DecidableEq, Repr

/-- A server: its map, in which `none` is a null pointer, and the processes it has created. -/
structure Registry where
  processes : Std.ExtTreeMap ConnectionHandle (Option ProcessId) compare
  objects : ProcessId → ProcessObject
  created : Nat

namespace Registry

def empty : Registry := ⟨∅, fun _ => ⟨⟨0, 0, 0⟩, [], false, {}⟩, 0⟩

/-- `processes[handle]` -/
def lookup (r : Registry) (handle : ConnectionHandle) : Option ProcessId × Registry :=
  match r.processes[handle]? with
  | some process => (process, r)
  | none => (none, { r with processes := r.processes.insert handle none })

def setObject (r : Registry) (p : ProcessId) (object : ProcessObject) : Registry :=
  { r with objects := Function.update r.objects p object }

@[simp] theorem setObject_processes (r : Registry) (p : ProcessId) (object : ProcessObject) :
    (r.setObject p object).processes = r.processes := rfl

@[simp] theorem setObject_created (r : Registry) (p : ProcessId) (object : ProcessObject) :
    (r.setObject p object).created = r.created := rfl

@[simp] theorem setObject_objects_self (r : Registry) (p : ProcessId) (object : ProcessObject) :
    (r.setObject p object).objects p = object := by
  simp [setObject]

theorem setObject_objects_of_ne (r : Registry) {p q : ProcessId} (hne : q ≠ p) (object : ProcessObject) :
    (r.setObject p object).objects q = r.objects q := by
  simp [setObject, hne]

def call (r : Registry) (p : ProcessId) (callback : Callback) : Registry :=
  r.setObject p { r.objects p with callbacks := (r.objects p).callbacks ++ [callback] }

def delete (r : Registry) (p : ProcessId) : Registry :=
  r.setObject p { r.objects p with alive := false }

def erase (r : Registry) (handle : ConnectionHandle) : Registry :=
  { r with processes := r.processes.erase handle }

variable (closeKey : WebsocketContext → ConnectionHandle)

/-- `process->OnClose(); delete process; processes.erase(key);` where `nested` calls of `Write` fail within
`OnClose`, each in the `OnClose` of the `Close` the one before has led to. -/
def remove : Nat → Registry → ProcessId → ConnectionHandle → Except Stop Registry
  | 0, r, p, key => .ok (((r.call p .onClose).delete p).erase key)
  | nested + 1, r, p, key =>
    let context := (r.objects p).context
    match (r.call p .onClose).lookup (closeKey context) with
    | (none, _) => .error .noProcess
    | (some q, r) => (remove nested r q (closeKey context)).map fun r => (r.delete p).erase key

/-- `Server::Close` and `MongooseServer::Close`. -/
def close (nested : Nat) (r : Registry) (context : WebsocketContext) : Except Stop Registry :=
  match r.lookup (closeKey context) with
  | (none, _) => .error .noProcess
  | (some p, r) => remove closeKey nested r p (closeKey context)

inductive Event where
  /-- A connection comes in, and there is memory for contexts at `addresses`. -/
  | handleWs (conn : ConnectionHandle) (addresses : List ConnectionHandle)
  | setConnection (p : ProcessId) (conn : ConnectionHandle)
  | onReady (conn : ConnectionHandle)
  | receive (conn : ConnectionHandle) (bits : Byte) (data : Str) (nested : Nat)
  /-- `raw_write` fails in a `Write` on the context of a process. -/
  | writeFails (p : ProcessId) (nested : Nat)
  deriving DecidableEq, Repr

/-- `MongooseServer::HandleWs`, if it returns. In `HandleWs(ctx)` it is the only function of its name, and the
context that was made becomes the connection of the next call. -/
def handleWs : List ConnectionHandle → Registry → ConnectionHandle → Option (Option ProcessId × Registry)
  | [], _, _ => none
  | address :: addresses, r, conn =>
    match handleWs addresses r address with
    | none => none
    | some (none, r) => some (none, r)
    | some (some p, r) => some (some p, { r with processes := r.processes.insert conn (some p) })

/-- `Server::OnReady` -/
def onReady (r : Registry) (handle : ConnectionHandle) : Registry :=
  match r.lookup handle with
  | (none, r) => r
  | (some p, r) => r.call p .onReady

/-- `WebsocketProcess::OnReceiveFrame` of a process. What `OnReceiveMessage` returns is only passed on. -/
def onReceiveFrame (r : Registry) (p : ProcessId) (frame : Frame) : Except Stop Registry :=
  let object := r.objects p
  match object.process.onReceiveFrame (fun _ => true) frame with
  | .error failure => .error (.inProcess failure)
  | .ok (_, message, process) =>
    let callbacks := .onReceiveFrame frame :: message.toList.map .onReceiveMessage
    .ok (r.setObject p { object with process, callbacks := object.callbacks ++ callbacks })

/-- `MongooseServer::_wsReceive` -/
def receive (nested : Nat) (r : Registry) (conn : ConnectionHandle) (bits : Byte) (data : Str) :
    Except Stop Registry :=
  match r.lookup conn with
  | (none, _) => .error .noProcess
  | (some p, r) =>
    let frame := Frame.init bits data data.length
    if frame.info.opCode &&& OpCode.close ≠ 0 then remove closeKey nested r p conn
    else r.onReceiveFrame p frame

/-- `MongooseWebsocketContext::setConnection` -/
def setConnection (r : Registry) (p : ProcessId) (conn : ConnectionHandle) : Registry :=
  r.setObject p { r.objects p with context := { (r.objects p).context with conn } }

def step (r : Registry) : Event → Except Stop Registry
  | .handleWs conn addresses =>
    match handleWs addresses r conn with
    | none => .error .endless
    | some (_, r) => .ok r
  | .setConnection p conn => .ok (r.setConnection p conn)
  | .onReady conn => .ok (r.onReady conn)
  | .receive conn bits data nested => receive closeKey nested r conn bits data
  | .writeFails p nested => close closeKey nested r (r.objects p).context

def run (r : Registry) (events : List Event) : Except Stop Registry := events.foldlM (step closeKey) r

end Registry

/-- `Server::Close` looks for the handle of a context. -/
def serverCloseKey (context : WebsocketContext) : ConnectionHandle := context.handle

/-- `MongooseServer::Close` looks for its connection. -/
def mongooseCloseKey (context : WebsocketContext) : ConnectionHandle := context.conn

namespace Registry

variable {closeKey : WebsocketContext → ConnectionHandle} {r : Registry}

/-! ### What the registry is for -/

def Stored (r : Registry) (p : ProcessId) : Prop :=
  ∃ handle : ConnectionHandle, r.processes[handle]? = some (some p)

/-- Every entry is a live process, a stored process has not been closed, and one that is not stored any
more has been: once, and with no callback behind it. -/
structure Sound (r : Registry) : Prop where
  entry : ∀ (handle : ConnectionHandle) process, r.processes[handle]? = some process →
    ∃ p < r.created, process = some p ∧ (r.objects p).alive = true
  stored : ∀ p, Stored r p → Callback.onClose ∉ (r.objects p).callbacks
  removed : ∀ p < r.created, ¬ Stored r p → (r.objects p).alive = false ∧
    ∃ before, (r.objects p).callbacks = before ++ [.onClose] ∧ Callback.onClose ∉ before

/-- A sound registry in which no process is stored twice. -/
structure Inv (r : Registry) : Prop extends Sound r where
  unique : ∀ (handle handle' : ConnectionHandle) p, r.processes[handle]? = some (some p) →
    r.processes[handle']? = some (some p) → handle = handle'

theorem inv_empty : Inv empty where
  entry handle process h := by simp [empty] at h
  stored p h := by
    obtain ⟨handle, hhandle⟩ := h
    simp [empty] at hhandle
  removed p h := absurd h (Nat.not_lt_zero p)
  unique handle handle' p h := by simp [empty] at h

/-! ### What the events do to it -/

theorem lookup_of_some {handle : ConnectionHandle} {process : Option ProcessId}
    (h : r.processes[handle]? = some process) : r.lookup handle = (process, r) := by
  rw [lookup, h]

/-- A change of a process, other than its death or a call of `OnClose`. -/
theorem Inv.setObject (hr : Inv r) {p : ProcessId} {object : ProcessObject} {more : List Callback}
    (halive : object.alive = (r.objects p).alive)
    (hcallbacks : object.callbacks = (r.objects p).callbacks ++ more) (hmore : Callback.onClose ∉ more)
    (hstored : more ≠ [] → Stored r p) : Inv (r.setObject p object) where
  entry handle process h := by
    obtain ⟨q, hq, rfl, hlive⟩ := hr.entry handle process h
    refine ⟨q, hq, rfl, ?_⟩
    by_cases hqp : q = p
    · subst hqp
      rw [setObject_objects_self, halive, hlive]
    · rw [setObject_objects_of_ne r hqp, hlive]
  stored q hq := by
    have hopen := hr.stored q hq
    by_cases hqp : q = p
    · subst hqp
      rw [setObject_objects_self, hcallbacks, List.mem_append, not_or]
      exact ⟨hopen, hmore⟩
    · rwa [setObject_objects_of_ne r hqp]
  removed q hq hnot := by
    have hremoved := hr.removed q hq hnot
    by_cases hqp : q = p
    · subst hqp
      have hnone : more = [] := by
        by_contra hne
        exact hnot (hstored hne)
      rw [setObject_objects_self, halive, hcallbacks, hnone, List.append_nil]
      exact hremoved
    · rwa [setObject_objects_of_ne r hqp]
  unique := hr.unique

theorem Inv.call (hr : Inv r) {p : ProcessId} (hp : Stored r p) {callback : Callback}
    (hne : callback ≠ .onClose) : Inv (r.call p callback) :=
  hr.setObject rfl rfl (by simpa using hne.symm) fun _ => hp

theorem Inv.setConnection (hr : Inv r) (p : ProcessId) (conn : ConnectionHandle) :
    Inv (r.setConnection p conn) :=
  hr.setObject rfl (List.append_nil _).symm List.not_mem_nil fun hne => absurd rfl hne

theorem Inv.onReceiveFrame (hr : Inv r) {p : ProcessId} (hp : Stored r p) (frame : Frame) :
    Run.Spec Inv (· ≠ .noProcess) (r.onReceiveFrame p frame) := by
  rw [Registry.onReceiveFrame]
  cases (r.objects p).process.onReceiveFrame (fun _ => true) frame with
  | error failure => exact fun h => (by cases h)
  | ok answer =>
      obtain ⟨value, message, process⟩ := answer
      apply hr.setObject
      · rfl
      · rfl
      · cases message with
        | none => simp
        | some message => simp
      · exact fun _ => hp

/-- **A process that is removed** has been closed once, and no other process has changed. -/
theorem Inv.remove (hr : Inv r) {p : ProcessId} {key : ConnectionHandle}
    (hkey : r.processes[key]? = some (some p)) : Inv (((r.call p .onClose).delete p).erase key) := by
  have hprocesses : ∀ (handle : ConnectionHandle) process,
      (((r.call p .onClose).delete p).erase key).processes[handle]? = some process →
        handle ≠ key ∧ r.processes[handle]? = some process := by
    intro handle process h
    simp only [erase, delete, Registry.call, setObject_processes, Std.ExtTreeMap.getElem?_erase] at h
    split at h
    · cases h
    · rename_i hne
      exact ⟨fun heq => hne (by simp [heq]), h⟩
  have hself : (((r.call p .onClose).delete p).erase key).objects p
      = { r.objects p with callbacks := (r.objects p).callbacks ++ [.onClose], alive := false } := by
    simp [erase, delete, Registry.call]
  have hother : ∀ q, q ≠ p → (((r.call p .onClose).delete p).erase key).objects q = r.objects q := by
    intro q hq
    simp [erase, delete, Registry.call, setObject_objects_of_ne _ hq]
  have hp : r.Stored p := ⟨key, hkey⟩
  have hne : ∀ handle q, handle ≠ key → r.processes[handle]? = some (some q) → q ≠ p := by
    rintro handle q hhandle hq rfl
    exact hhandle (hr.unique handle key q hq hkey)
  constructor
  · constructor
    · intro handle process h
      obtain ⟨hhandle, hprocess⟩ := hprocesses handle process h
      obtain ⟨q, hq, rfl, hlive⟩ := hr.entry handle process hprocess
      refine ⟨q, hq, rfl, ?_⟩
      rwa [hother q (hne handle q hhandle hprocess)]
    · rintro q ⟨handle, h⟩
      obtain ⟨hhandle, hprocess⟩ := hprocesses handle _ h
      rw [hother q (hne handle q hhandle hprocess)]
      exact hr.stored q ⟨handle, hprocess⟩
    · intro q hq hnot
      by_cases hqp : q = p
      · subst hqp
        rw [hself]
        exact ⟨rfl, _, rfl, hr.stored q hp⟩
      · rw [hother q hqp]
        refine hr.removed q hq ?_
        rintro ⟨handle, hhandle⟩
        refine hnot ⟨handle, ?_⟩
        have hkeep : handle ≠ key := by
          rintro rfl
          exact hqp (Option.some.inj (Option.some.inj (hhandle.symm.trans hkey)))
        simp only [erase, delete, Registry.call, setObject_processes, Std.ExtTreeMap.getElem?_erase]
        rw [if_neg (by simpa using hkeep.symm), hhandle]
  · intro handle handle' q h h'
    exact hr.unique handle handle' q (hprocesses handle _ h).2 (hprocesses handle' _ h').2

theorem Inv.lt_created (hr : Inv r) {handle : ConnectionHandle} {p : ProcessId}
    (h : r.processes[handle]? = some (some p)) : p < r.created := by
  obtain ⟨q, hq, hprocess, -⟩ := hr.entry handle _ h
  rwa [Option.some.inj hprocess]

/-- A server with one more connection: what `HandleWs` stores for a process once it has one. -/
def accept (r : Registry) (conn : ConnectionHandle) (context : WebsocketContext) : Registry :=
  { r.setObject r.created ⟨context, [.onConnect], true, {}⟩ with
    created := r.created + 1
    processes := r.processes.insert conn (some r.created) }

theorem Inv.accept (hr : Inv r) {conn : ConnectionHandle} (context : WebsocketContext)
    (hconn : r.processes[conn]? = none) : Inv (r.accept conn context) := by
  have hprocesses : ∀ handle : ConnectionHandle, (r.accept conn context).processes[handle]?
      = if conn = handle then some (some r.created) else r.processes[handle]? := by
    intro handle
    simp [Registry.accept, Std.ExtTreeMap.getElem?_insert]
  have hself : (r.accept conn context).objects r.created = ⟨context, [.onConnect], true, {}⟩ := by
    simp [Registry.accept]
  have hother : ∀ q < r.created, (r.accept conn context).objects q = r.objects q := by
    intro q hq
    simp [Registry.accept, setObject_objects_of_ne r (Nat.ne_of_lt hq)]
  have hstill : ∀ (handle : ConnectionHandle) process, r.processes[handle]? = some process →
      (r.accept conn context).processes[handle]? = some process := by
    intro handle process h
    rw [hprocesses, if_neg, h]
    rintro rfl
    rw [hconn] at h
    cases h
  constructor
  · constructor
    · intro handle process h
      rw [hprocesses] at h
      split at h
      · refine ⟨r.created, Nat.lt_succ_self _, (Option.some.inj h).symm, ?_⟩
        rw [hself]
      · obtain ⟨q, hq, rfl, hlive⟩ := hr.entry handle process h
        exact ⟨q, Nat.lt_succ_of_lt hq, rfl, by rwa [hother q hq]⟩
    · rintro q ⟨handle, h⟩
      rw [hprocesses] at h
      split at h
      · obtain rfl := Option.some.inj (Option.some.inj h)
        simp [hself]
      · rw [hother q (hr.lt_created h)]
        exact hr.stored q ⟨handle, h⟩
    · intro q hq hnot
      have hne : q ≠ r.created := by
        rintro rfl
        exact hnot ⟨conn, by rw [hprocesses, if_pos rfl]⟩
      have hlt : q < r.created := Nat.lt_of_le_of_ne (Nat.le_of_lt_succ hq) hne
      rw [hother q hlt]
      refine hr.removed q hlt ?_
      rintro ⟨handle, hhandle⟩
      exact hnot ⟨handle, hstill handle _ hhandle⟩
  · intro handle handle' q h h'
    rw [hprocesses] at h h'
    split at h <;> split at h'
    · simp_all
    · obtain rfl := Option.some.inj (Option.some.inj h)
      exact absurd (hr.lt_created h') (Nat.lt_irrefl _)
    · obtain rfl := Option.some.inj (Option.some.inj h')
      exact absurd (hr.lt_created h) (Nat.lt_irrefl _)
    · exact hr.unique handle handle' q h h'

/-! ### Runs -/

/-- What the map has to hold for an event: every look-up finds an entry. No `Write` fails in `OnClose`. -/
def Proper (closeKey : WebsocketContext → ConnectionHandle) (r : Registry) : Event → Prop
  | .handleWs _ _ => True
  | .setConnection _ _ => True
  | .onReady conn => r.processes[conn]? ≠ none
  | .receive conn bits data nested => r.processes[conn]? ≠ none ∧
    ((Frame.init bits data data.length).info.opCode &&& OpCode.close ≠ 0 → nested = 0)
  | .writeFails p nested => r.processes[closeKey (r.objects p).context]? ≠ none ∧ nested = 0

/-- Each event meets its condition where it happens. -/
def ProperRun (closeKey : WebsocketContext → ConnectionHandle) : Registry → List Event → Prop
  | _, [] => True
  | r, event :: events =>
    Proper closeKey r event ∧ ∀ r', step closeKey r event = .ok r' → ProperRun closeKey r' events

/-- No `assert(process)` fails, and every state that is reached is sound. -/
def SoundRun (closeKey : WebsocketContext → ConnectionHandle) (r : Registry) (events : List Event) : Prop :=
  ∀ front, front <+: events → Run.Spec Sound (· ≠ .noProcess) (run closeKey r front)

/-- Nothing is written, or nothing fails, in the `OnClose` of an event. -/
def Event.Quiet : Event → Prop
  | .receive _ _ _ nested => nested = 0
  | .writeFails _ nested => nested = 0
  | _ => True

theorem Inv.exists_process (hr : Inv r) {handle : ConnectionHandle} (h : r.processes[handle]? ≠ none) :
    ∃ p, r.processes[handle]? = some (some p) ∧ r.lookup handle = (some p, r) := by
  obtain ⟨process, hprocess⟩ := Option.ne_none_iff_exists'.mp h
  obtain ⟨p, -, rfl, -⟩ := hr.entry handle process hprocess
  exact ⟨p, hprocess, lookup_of_some hprocess⟩

theorem lookup_of_none {handle : ConnectionHandle} (h : r.processes[handle]? = none) :
    r.lookup handle = (none, { r with processes := r.processes.insert handle none }) := by
  rw [lookup, h]

/-- **No connection gets in**: `HandleWs` does not return, however much memory there is. -/
theorem handleWs_eq_none (addresses : List ConnectionHandle) (r : Registry) (conn : ConnectionHandle) :
    handleWs addresses r conn = none := by
  induction addresses generalizing conn with
  | nil => rfl
  | cons address addresses ih => rw [handleWs, ih]

theorem step_handleWs (r : Registry) (conn : ConnectionHandle) (addresses : List ConnectionHandle) :
    step closeKey r (.handleWs conn addresses) = .error .endless := by
  rw [step, handleWs_eq_none]

theorem run_cons (r : Registry) (event : Event) (events : List Event) :
    run closeKey r (event :: events) = (step closeKey r event).bind fun r' => run closeKey r' events :=
  List.foldlM_cons

theorem run_cons_of_ok {r' : Registry} {event : Event} (h : step closeKey r event = .ok r') (events : List Event) :
    run closeKey r (event :: events) = run closeKey r' events := by
  rw [run_cons, h]
  rfl

/-- **One event** that meets its condition fails no assertion of the server and keeps the registry sound. -/
theorem Inv.step (hr : Inv r) {event : Event} (h : Proper closeKey r event) :
    Run.Spec Inv (· ≠ .noProcess) (step closeKey r event) := by
  cases event with
  | handleWs conn addresses =>
      rw [step_handleWs]
      exact fun hstop => (by cases hstop)
  | setConnection p conn => exact hr.setConnection p conn
  | onReady conn =>
      obtain ⟨p, hp, hlookup⟩ := hr.exists_process h
      rw [Registry.step, onReady, hlookup]
      exact hr.call ⟨conn, hp⟩ (by simp)
  | receive conn bits data nested =>
      obtain ⟨p, hp, hlookup⟩ := hr.exists_process h.1
      rw [Registry.step, receive, hlookup]
      simp only
      split
      · rename_i hclose
        rw [h.2 hclose]
        exact hr.remove hp
      · exact hr.onReceiveFrame ⟨conn, hp⟩ _
  | writeFails p nested =>
      obtain ⟨hkey, rfl⟩ := h
      obtain ⟨q, hq, hlookup⟩ := hr.exists_process hkey
      rw [Registry.step, close, hlookup]
      exact hr.remove hq

theorem Inv.run (hr : Inv r) {events : List Event} (h : ProperRun closeKey r events) :
    Run.Spec Inv (· ≠ .noProcess) (run closeKey r events) := by
  induction events generalizing r with
  | nil => exact hr
  | cons event events ih =>
      obtain ⟨hproper, hrest⟩ := h
      have hfirst := hr.step hproper
      rw [run_cons]
      cases hstep : Registry.step closeKey r event with
      | error stop =>
          rw [hstep] at hfirst
          exact hfirst
      | ok r' =>
          rw [hstep] at hfirst
          exact ih hfirst (hrest r' hstep)

theorem ProperRun.front {front events : List Event} (h : ProperRun closeKey r events) (hfront : front <+: events) :
    ProperRun closeKey r front := by
  obtain ⟨back, rfl⟩ := hfront
  induction front generalizing r with
  | nil => trivial
  | cons event front ih => exact ⟨h.1, fun r' hstep => ih (h.2 r' hstep)⟩

/-- **The condition is exact** for an event in which nothing fails to be written in `OnClose`. -/
theorem Inv.step_iff (hr : Inv r) {event : Event} (hquiet : event.Quiet) :
    Run.Spec Sound (· ≠ .noProcess) (Registry.step closeKey r event) ↔ Proper closeKey r event := by
  constructor
  · intro h
    cases event with
    | handleWs conn addresses => trivial
    | setConnection p conn => trivial
    | onReady conn =>
        intro hnone
        rw [Registry.step, onReady, lookup_of_none hnone] at h
        obtain ⟨p, -, hp, -⟩ := h.entry conn none (by simp)
        cases hp
    | receive conn bits data nested =>
        refine ⟨fun hnone => ?_, fun _ => hquiet⟩
        rw [Registry.step, receive, lookup_of_none hnone] at h
        exact h rfl
    | writeFails p nested =>
        refine ⟨fun hnone => ?_, hquiet⟩
        rw [Registry.step, close, lookup_of_none hnone] at h
        exact h rfl
  · exact fun hproper => (hr.step hproper).mono fun _ hr' => hr'.toSound

/-- **The registry stays sound** in a run whose events meet their conditions: every entry is a live process, no
`assert(process)` fails, and each process gets `OnClose` exactly once, when it is removed, and nothing after
it. A run that stays so in which nothing fails to be written in `OnClose` meets them. -/
theorem sound_of_proper (closeKey : WebsocketContext → ConnectionHandle) (hr : Inv r) (events : List Event) :
    (ProperRun closeKey r events → SoundRun closeKey r events) ∧
    ((∀ event ∈ events, event.Quiet) → SoundRun closeKey r events → ProperRun closeKey r events) := by
  constructor
  · intro h front hfront
    exact (hr.run (h.front hfront)).mono fun _ hr' => hr'.toSound
  · intro hquiet hsound
    induction events generalizing r with
    | nil => trivial
    | cons event events ih =>
        obtain ⟨hfirst, hrest⟩ := List.forall_mem_cons.mp hquiet
        have hone := hsound [event] ⟨events, rfl⟩
        have hproper : Proper closeKey r event := by
          apply (hr.step_iff hfirst).mp
          rw [run_cons] at hone
          cases hstep : Registry.step closeKey r event with
          | error stop =>
              rw [hstep] at hone
              exact hone
          | ok r' =>
              rw [hstep] at hone
              exact hone
        refine ⟨hproper, fun r' hstep => ?_⟩
        have hr' := hr.step hproper
        rw [hstep] at hr'
        apply ih hr' hrest
        intro front hfront
        have hlater := hsound (event :: front) (List.cons_prefix_cons.mpr ⟨rfl, hfront⟩)
        rwa [run_cons_of_ok hstep] at hlater

instance (r : Registry) (event : Event) : Decidable (Proper closeKey r event) := by
  cases event <;> unfold Proper <;> infer_instance

instance decidableProperRun : ∀ (r : Registry) (events : List Event), Decidable (ProperRun closeKey r events)
  | _, [] => isTrue trivial
  | r, event :: events =>
    match hstep : step closeKey r event with
    | .error _ => decidable_of_iff (Proper closeKey r event) (by simp [ProperRun, hstep])
    | .ok r' =>
      have := decidableProperRun r' events
      decidable_of_iff (Proper closeKey r event ∧ ProperRun closeKey r' events) (by simp [ProperRun, hstep])

def oneConnection : Registry := empty.accept 7 (.mongoose 100 7)

theorem inv_oneConnection : Inv oneConnection := inv_empty.accept _ (by simp [empty])

def closedSocket : List Event :=
  [.setConnection 0 7, .onReady 7, .receive 7 0x81 (lit "hi") 0, .writeFails 0 0, .handleWs 8 [200, 300]]

theorem sound_closedSocket :
    SoundRun mongooseCloseKey empty [.handleWs 7 [100, 200]] ∧ SoundRun mongooseCloseKey oneConnection closedSocket :=
  ⟨(sound_of_proper mongooseCloseKey inv_empty _).1 (by decide),
    (sound_of_proper mongooseCloseKey inv_oneConnection closedSocket).1 (by decide)⟩

/-- `OnReady` for a connection that has not been let in stores a null pointer. -/
theorem not_forall_sound : ¬ ∀ events : List Event, SoundRun mongooseCloseKey empty events := by
  intro h
  have hsound := h [.onReady 7] [.onReady 7] (List.prefix_refl _)
  obtain ⟨p, -, hp, -⟩ := hsound.entry 7 none (by decide)
  cases hp

end Registry

end Rikitiki.Websocket
