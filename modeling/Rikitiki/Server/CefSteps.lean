import Rikitiki.Server.Cef

/-!
# The steps of a request from an embedded browser

Each event does one thing to the context. `Moved` says what it does to the response and which callbacks it
continues, and `Sound` what holds in every run: whoever is writing has a reference, and the body has failed
only while `ReadResponse` has it in its hands.
-/

namespace Rikitiki.Cef

/-! ### What CEF notices -/

def Effect.data : Effect → Str
  | .bytes data _ => data
  | .continues _ | .head _ => []

def delivered (effects : List Effect) : Str := effects.flatMap Effect.data

theorem delivered_append (effects more : List Effect) :
    delivered (effects ++ more) = delivered effects ++ delivered more := List.flatMap_append

theorem delivered_continues (callbacks : List Callback) : delivered (callbacks.map .continues) = [] := by
  rw [delivered, List.flatMap_map]
  exact List.flatMap_eq_nil_iff.mpr fun _ _ => rfl

theorem count_continues (callback : Callback) (callbacks : List Callback) :
    (callbacks.map Effect.continues).count (.continues callback) = callbacks.count callback :=
  List.count_map_of_injective callbacks _ (fun _ _ h => Effect.continues.inj h) callback

theorem count_fire (callback other : Callback) (ready : Bool) :
    (fire other ready).count callback = if other = callback then ready.toNat else 0 := by
  cases ready
  all_goals simp [fire, List.count_singleton]

/-! ### What a step does -/

def Event.action? : Event → Option Action
  | .act action => some action
  | _ => none

def written (events : List Event) : List Op := opsOf (events.filterMap Event.action?)

def Event.ops (event : Event) : List Op := written [event]

theorem written_append (events more : List Event) : written (events ++ more) = written events ++ written more := by
  rw [written, List.filterMap_append, opsOf, List.filterMap_append]
  rfl

theorem written_cons (event : Event) (events : List Event) :
    written (event :: events) = event.ops ++ written events := written_append [event] events

theorem payloadOf_append (ops more : List Op) : payloadOf (ops ++ more) = payloadOf ops ++ payloadOf more :=
  List.flatMap_append

theorem Event.ops_act (action : Action) : (Event.act action).ops = action.op?.toList := by
  rw [ops, written, opsOf]
  cases hop : action.op? <;> simp [action?, hop]

open ResourceHandler (step start)

variable {s t : ResourceHandler} {event : Event} {events : List Event} {effects : List Effect}
  {outputs : List (List Effect)}

theorem step_eq_some : step s event = some (effects, t) ↔
    s.nextMain event = some t.main ∧ s.nextWriter event = some t.writer ∧
      Shared.step behaviour s.ctx (s.shared event) = some (effects, t.ctx) := by
  constructor
  · intro h
    obtain ⟨main, hmain, hrest⟩ := Option.bind_eq_some_iff.mp h
    obtain ⟨writer, hwriter, hrun⟩ := Option.bind_eq_some_iff.mp hrest
    obtain ⟨⟨effects', ctx⟩, hctx, heq⟩ := Option.map_eq_some_iff.mp hrun
    obtain ⟨rfl, rfl⟩ := Prod.mk.inj heq
    exact ⟨hmain, hwriter, hctx⟩
  · intro h
    obtain ⟨hmain, hwriter, hctx⟩ := h
    rw [step, hmain, hwriter, Option.bind_some, Option.bind_some, hctx]
    rfl

theorem step_still (huse : (s.shared event).use? = none) (hstep : step s event = some (effects, t)) :
    t.ctx.object = s.ctx.object ∧ effects = [] := by
  obtain ⟨-, -, hctx⟩ := step_eq_some.mp hstep
  obtain ⟨hobject, heffects⟩ := Shared.object_of_not_use huse hctx
  exact ⟨hobject, heffects.trans (ite_self _)⟩

theorem step_use {use : Use} (huse : (s.shared event).use? = some use) (hstep : step s event = some (effects, t)) :
    t.ctx.object = (s.ctx.object.use use).2 ∧ effects = (s.ctx.object.use use).1 := by
  obtain ⟨-, -, hctx⟩ := step_eq_some.mp hstep
  obtain ⟨hobject, heffects⟩ := Shared.object_of_use huse hctx
  refine ⟨hobject, heffects.trans ?_⟩
  exact (congrArg _ (ite_self _)).trans (List.append_nil _)

theorem ConnContext.act_of_op {action : Action} {op : Op} (hop : action.op? = some op) (ctx : ConnContext) :
    (ctx.act action).1 = (ctx.response.stream op).1.map .continues ∧
      (ctx.act action).2.response = (ctx.response.stream op).2 := by
  cases action with
  | stream op' =>
      obtain rfl := Option.some.inj hop
      exact ⟨rfl, rfl⟩
  | streamRef op' =>
      obtain rfl := Option.some.inj hop
      exact ⟨rfl, rfl⟩
  | handle => cases hop
  | close => cases hop

theorem ConnContext.act_of_none {action : Action} (hop : action.op? = none) (ctx : ConnContext) :
    (ctx.act action).1 = [] ∧ (ctx.act action).2.response = ctx.response := by
  cases action with
  | stream op => cases hop
  | streamRef op => cases hop
  | handle => exact ⟨rfl, rfl⟩
  | close => exact ⟨rfl, rfl⟩

def ResourceHandler.nextDataReady (s : ResourceHandler) : Event → Bool
  | .forget => false
  | .setCallback => s.main.data = []
  | _ => s.response.dataReady

/-- Whether the body has failed behind an event. -/
def ResourceHandler.nextFailed (s : ResourceHandler) : Event → Bool
  | .read bytesToRead => (s.response.read bytesToRead).2.failed
  | .clear => false
  | _ => s.response.failed

/-- What a step does to the response but for its body, and what CEF is told. -/
structure Moved (s : ResourceHandler) (event : Event) (effects : List Effect) (t : ResourceHandler) : Prop where
  tuned : t.response.Tuned
  status : t.response.status = lastStatus s.response.status event.ops
  headers : t.response.headers = event.ops.foldl OResponseMemory.store s.response.headers
  headersReady : t.response.headersReady = (s.response.headersReady && !event.ops.any Op.isPayload)
  dataReady : t.response.dataReady = s.nextDataReady event
  failed : t.response.failed = s.nextFailed event
  continues_headers : effects.count (.continues .headersReady) = (s.response.headersReady &&
    (event.ops.any Op.isPayload || (event = .count && s.ctx.useCount = 1))).toNat
  continues_data : effects.count (.continues .dataReady) = if event = .wake then s.response.dataReady.toNat else 0

theorem moved_act (hs : s.response.Tuned) {action : Action} (hstep : step s (.act action) = some (effects, t)) :
    Moved s (.act action) effects t := by
  obtain ⟨hobject, rfl⟩ := step_use rfl hstep
  have hresponse : t.response = (s.ctx.object.act action).2.response := congrArg ConnContext.response hobject
  rw [ConnContext.use]
  cases hop : action.op? with
  | none =>
      have hops : (Event.act action).ops = [] := by rw [Event.ops_act, hop, Option.toList_none]
      obtain ⟨hnone, hkept⟩ := ConnContext.act_of_none hop s.ctx.object
      have hsame : t.response = s.response := hresponse.trans hkept
      rw [hnone]
      have hdata := congrArg Response.dataReady hsame
      have hfailed := congrArg Response.failed hsame
      refine ⟨hsame ▸ hs, ?_, ?_, ?_, hdata, hfailed, ?_, rfl⟩
      · rw [hsame, hops, lastStatus]
      · rw [hsame, hops, List.foldl_nil]
      · rw [hsame, hops, List.any_nil, Bool.not_false, Bool.and_true]
      · simp [hops]
  | some op =>
      have hops : (Event.act action).ops = [op] := by rw [Event.ops_act, hop, Option.toList_some]
      obtain ⟨hcallbacks, hresult⟩ := ConnContext.act_of_op hop s.ctx.object
      have hstreamed := hs.streamed op
      rw [ResourceHandler.response, ← hresult, ← hresponse] at hstreamed
      refine ⟨hstreamed.tuned, ?_, ?_, ?_, hstreamed.dataReady, hstreamed.failed, ?_, ?_⟩
      · rw [hstreamed.status, hops, lastStatus, lastStatus]
        rfl
      · rw [hstreamed.headers, hops, List.foldl_cons, List.foldl_nil]
        rfl
      · rw [hstreamed.headersReady, hops, List.any_cons, List.any_nil, Bool.or_false]
        rfl
      · rw [hcallbacks, count_continues, hstreamed.callbacks, hops]
        cases hpayload : op.isPayload <;> simp [count_fire, ResourceHandler.response, hpayload]
      · rw [hcallbacks, count_continues, hstreamed.callbacks]
        cases op.isPayload <;> simp [count_fire]

/-- **What a step does** to the response, and what CEF is told. -/
theorem step_moved (hs : s.response.Tuned) (hstep : step s event = some (effects, t)) : Moved s event effects t := by
  obtain ⟨main, writer, owned, others, object⟩ := t
  have hsame : s.response.headersReady = (s.response.headersReady && !false) := (Bool.and_true _).symm
  have hnone : 0 = (s.response.headersReady && false).toNat := by rw [Bool.and_false, Bool.toNat_false]
  cases event with
  | act action => exact moved_act hs hstep
  | append =>
      obtain ⟨rfl, rfl⟩ := step_use rfl hstep
      exact ⟨(hs.append _).1, rfl, rfl, hsame, rfl, rfl, hnone, rfl⟩
  | wake =>
      obtain ⟨rfl, rfl⟩ := step_use rfl hstep
      refine ⟨hs, rfl, rfl, hsame, rfl, rfl, ?_, ?_⟩
      · simp [ConnContext.use, count_continues, count_fire, Event.ops, written, opsOf, Event.action?]
      · rw [ConnContext.use, count_continues, count_fire]
        rfl
  | forget =>
      obtain ⟨rfl, rfl⟩ := step_use rfl hstep
      exact ⟨⟨hs.writable, hs.headers, hs.bytesRead_le⟩, rfl, rfl, hsame, rfl, rfl, hnone, rfl⟩
  | retain =>
      obtain ⟨rfl, rfl⟩ := step_still rfl hstep
      exact ⟨hs, rfl, rfl, hsame, rfl, rfl, hnone, rfl⟩
  | release =>
      obtain ⟨rfl, rfl⟩ := step_still rfl hstep
      exact ⟨hs, rfl, rfl, hsame, rfl, rfl, hnone, rfl⟩
  | returns =>
      obtain ⟨rfl, rfl⟩ := step_still rfl hstep
      exact ⟨hs, rfl, rfl, hsame, rfl, rfl, hnone, rfl⟩
  | count =>
      obtain ⟨rfl, rfl⟩ := step_use rfl hstep
      refine ⟨hs, rfl, rfl, hsame, rfl, rfl, ?_, ?_⟩
      · rw [ConnContext.use, count_continues, count_fire]
        simp [Event.ops, written, opsOf, Event.action?, ResourceHandler.response, Bool.and_comm]
      · rw [ConnContext.use, count_continues, count_fire]
        rfl
  | getResponseHeaders =>
      obtain ⟨rfl, rfl⟩ := step_use rfl hstep
      exact ⟨hs, rfl, rfl, hsame, rfl, rfl, hnone, rfl⟩
  | read bytesToRead =>
      obtain ⟨rfl, rfl⟩ := step_use rfl hstep
      exact ⟨hs.read bytesToRead, rfl, rfl, hsame, rfl, rfl, hnone, rfl⟩
  | clear =>
      obtain ⟨rfl, rfl⟩ := step_use rfl hstep
      exact ⟨⟨hs.writable, hs.headers, hs.bytesRead_le⟩, rfl, rfl, hsame, rfl, rfl, hnone, rfl⟩
  | setCallback =>
      obtain ⟨rfl, rfl⟩ := step_use rfl hstep
      exact ⟨⟨hs.writable, hs.headers, hs.bytesRead_le⟩, rfl, rfl, hsame, rfl, rfl, hnone, rfl⟩
  | answer =>
      obtain ⟨rfl, rfl⟩ := step_use rfl hstep
      exact ⟨hs, rfl, rfl, hsame, rfl, rfl, hnone, rfl⟩

/-! ### What always holds -/

theorem owned_step (hstep : step s event = some (effects, t)) : t.ctx.owned = s.ctx.owned := by
  obtain ⟨-, -, hctx⟩ := step_eq_some.mp hstep
  refine Shared.owned_of_ne_disown ?_ hctx
  cases event <;> nofun

theorem others_of_use {use : Use} (hshared : s.shared event = .use use) (hstep : step s event = some (effects, t)) :
    s.ctx.others ≠ 0 ∧ t.ctx.others = s.ctx.others := by
  obtain ⟨-, -, hctx⟩ := step_eq_some.mp hstep
  rw [hshared] at hctx
  obtain ⟨hne, heq⟩ := Shared.step_use.mp hctx
  exact ⟨hne, congrArg (fun answer => answer.2.others) heq.symm⟩

theorem others_of_own {use : Use} (hshared : s.shared event = .own use) (hstep : step s event = some (effects, t)) :
    t.ctx.others = s.ctx.others := by
  obtain ⟨-, -, hctx⟩ := step_eq_some.mp hstep
  rw [hshared] at hctx
  exact congrArg (fun answer => answer.2.others) (Shared.step_own.mp hctx).2.symm

theorem others_of_release (hshared : s.shared event = .release) (hstep : step s event = some (effects, t)) :
    t.ctx.others = s.ctx.others - 1 := by
  obtain ⟨-, -, hctx⟩ := step_eq_some.mp hstep
  rw [hshared] at hctx
  exact congrArg (fun answer => answer.2.others) (Shared.step_release.mp hctx).2.symm

/-- Whoever is writing has a reference. -/
theorem writing_step (hs : s.writer ≠ .idle → s.ctx.others ≠ 0) (hstep : step s event = some (effects, t))
    (ht : t.writer ≠ .idle) : t.ctx.others ≠ 0 := by
  obtain ⟨-, hwriter, hctx⟩ := step_eq_some.mp hstep
  have hused : ∀ use, s.shared event = .use use → t.ctx.others ≠ 0 := by
    intro use hshared
    obtain ⟨hne, heq⟩ := others_of_use hshared hstep
    rwa [heq]
  have howner : ∀ use, s.shared event = .own use → s.writer = t.writer → t.ctx.others ≠ 0 := by
    intro use hshared hsame
    rw [others_of_own hshared hstep]
    exact hs (hsame ▸ ht)
  have hreleased : s.shared event = .release →
      (if s.writer ≠ .idle ∧ s.ctx.others ≤ 1 then none else some s.writer) = some t.writer →
      t.ctx.others ≠ 0 := by
    intro hshared hguard
    obtain ⟨hmore, hsame⟩ := Option.ite_none_left_eq_some.mp hguard
    have hwriting : s.writer ≠ .idle := Option.some.inj hsame ▸ ht
    have htwo : ¬ s.ctx.others ≤ 1 := fun h => hmore ⟨hwriting, h⟩
    rw [others_of_release hshared hstep]
    omega
  cases event with
  | act action => exact hused _ rfl
  | append => exact hused _ rfl
  | wake => exact hused _ rfl
  | forget => exact hused _ rfl
  | retain =>
      obtain ⟨-, heq⟩ := Shared.step_retain.mp hctx
      rw [← (Prod.mk.inj heq).2]
      exact Nat.succ_ne_zero _
  | release => exact hreleased rfl hwriter
  | returns => exact hreleased rfl hwriter
  | count => exact howner _ rfl (Option.some.inj hwriter)
  | getResponseHeaders => exact howner _ rfl (Option.some.inj hwriter)
  | read bytesToRead => exact howner _ rfl (Option.some.inj hwriter)
  | clear => exact howner _ rfl (Option.some.inj hwriter)
  | setCallback => exact howner _ rfl (Option.some.inj hwriter)
  | answer => exact howner _ rfl (Option.some.inj hwriter)

theorem good_step (hs : s.response.Tuned) (hgood : (∀ data, s.main ≠ .reading data) → s.response.failed = false)
    (hstep : step s event = some (effects, t)) (ht : ∀ data, t.main ≠ .reading data) :
    t.response.failed = false := by
  obtain ⟨hmain, -, -⟩ := step_eq_some.mp hstep
  rw [(step_moved hs hstep).failed]
  have hkept : (∀ data, s.main = .reading data →
      s.nextMain event = some (.reading data) ∨ s.nextMain event = none) → s.response.failed = false := by
    intro hreading
    apply hgood
    intro data hread
    rcases hreading data hread with h | h
    · exact ht data (Option.some.inj (hmain.symm.trans h))
    · rw [h] at hmain
      cases hmain
  cases event with
  | read bytesToRead =>
      obtain ⟨-, hread⟩ := Option.ite_none_right_eq_some.mp hmain
      exact absurd (Option.some.inj hread).symm (ht _)
  | clear => rfl
  | act action => exact hkept fun data h => .inl (congrArg some h)
  | append => exact hkept fun data h => .inl (congrArg some h)
  | wake => exact hkept fun data h => .inl (congrArg some h)
  | forget => exact hkept fun data h => .inl (congrArg some h)
  | retain => exact hkept fun data h => .inl (congrArg some h)
  | release => exact hkept fun data h => .inl (by simp [ResourceHandler.nextMain, h])
  | returns => exact hkept fun data h => .inr (by simp [ResourceHandler.nextMain, h])
  | count => exact hkept fun data h => .inr (by simp [ResourceHandler.nextMain, h])
  | getResponseHeaders => exact hkept fun data h => .inr (by simp [ResourceHandler.nextMain, h])
  | setCallback => exact hkept fun data h => .inr (by simp [ResourceHandler.nextMain, h])
  | answer => exact hkept fun data h => .inr (by simp [ResourceHandler.nextMain, h])

/-- What holds whenever CEF is answered. -/
structure Sound (s : ResourceHandler) : Prop where
  owned : s.ctx.owned = true
  tuned : s.response.Tuned
  writing : s.writer ≠ .idle → s.ctx.others ≠ 0
  good : (∀ data, s.main ≠ .reading data) → s.response.failed = false

theorem sound_start : Sound start :=
  ⟨rfl, ⟨.inl rfl, rfl, Nat.le_refl _⟩, fun h => absurd rfl h, fun _ => rfl⟩

theorem Sound.of_step (hs : Sound s) (hstep : step s event = some (effects, t)) : Sound t where
  owned := (owned_step hstep).trans hs.owned
  tuned := (step_moved hs.tuned hstep).tuned
  writing := writing_step hs.writing hstep
  good := good_step hs.tuned hs.good hstep

theorem Sound.of_run (hs : Sound s) (hrun : Run.run step s events = some (outputs, t)) : Sound t :=
  Run.run_invariant (fun _ _ _ _ hs hstep => hs.of_step hstep) hs hrun

theorem Sound.useCount_eq_one_iff (hs : Sound s) : s.ctx.useCount = 1 ↔ s.ctx.others = 0 := by
  rw [Shared.State.useCount, hs.owned, Bool.toNat_true]
  omega

def Event.isOwners : Event → Bool
  | .count | .getResponseHeaders | .read _ | .clear | .setCallback | .answer => true
  | .act _ | .append | .wake | .forget | .retain | .release | .returns => false

/-- **Nobody writes to a response that only the resource handler refers to.** -/
theorem owners_of_alone (halone : s.ctx.others = 0) (hrun : Run.run step s events = some (outputs, t)) :
    (∀ event ∈ events, event.isOwners = true) ∧ t.ctx.others = 0 := by
  induction events generalizing s outputs with
  | nil =>
      obtain ⟨-, rfl⟩ := Prod.mk.inj (Option.some.inj hrun)
      exact ⟨List.forall_mem_nil _, halone⟩
  | cons event events ih =>
      obtain ⟨first, rest, s', hfirst, hrest, -⟩ := Run.run_cons_eq_some.mp hrun
      obtain ⟨-, -, hctx⟩ := step_eq_some.mp hfirst
      obtain ⟨howners, halone'⟩ := Shared.step_alone halone hctx
      obtain ⟨hall, hlast⟩ := ih halone' hrest
      refine ⟨List.forall_mem_cons.mpr ⟨?_, hall⟩, hlast⟩
      cases event <;> exact howners

theorem written_of_owners (h : ∀ event ∈ events, event.isOwners = true) : written events = [] := by
  induction events with
  | nil => rfl
  | cons event events ih =>
      obtain ⟨hevent, hevents⟩ := List.forall_mem_cons.mp h
      rw [written_cons, ih hevents, List.append_nil]
      cases event with
      | act action => cases hevent
      | _ => rfl

/-! ### Calls that nobody disturbs -/

/-- The request at the end of `ProcessRequest`, with a reference that the handler has passed on. -/
def passedOn : List Event := [.act .handle, .retain, .returns, .count]

/-- `Response::WritePayloadData` up to `if (dataReady)`. -/
def write (data : Str) : List Event := [.act (.streamRef (.payload data)), .append, .wake]

/-- `ResourceHandler::ReadResponse` -/
def readResponse (bytesToRead : Nat) : List Event := [.read bytesToRead, .clear, .setCallback, .answer]

end Rikitiki.Cef
