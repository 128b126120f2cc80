import Rikitiki.Routing.Scan
import Rikitiki.Server.Handle

/-!
# Dispatch

A request gets to its handler in two ways. `Server::Handle` goes through the handlers itself; the servers for
CEF and IIS7 ask `Server::GetHandler` for a handler and call its `Handle`. Handlers are known by their
pointers, of a type `ι`; what is behind them is `objects`.
-/

namespace Rikitiki

inductive Ending where
  | returns (value : Bool)
  | throws (thrown : Thrown)
  deriving DecidableEq, Repr

def Ending.thrown? : Ending → Option Thrown
  | .returns _ => none
  | .throws thrown => some thrown

/-- A handler with the value that its `Handle` returns. -/
structure HandlerObject (ρ : Type) where
  canHandle : ρ → Except Thrown Bool
  handle : ρ → ConnContext → List Action × Ending

namespace HandlerObject

variable {ρ : Type}

def handler (object : HandlerObject ρ) : Handler ρ where
  canHandle := object.canHandle
  handle request ctx :=
    let (actions, ending) := object.handle request ctx
    (actions, ending.thrown?)

end HandlerObject

/-- A turn of the loop of `Server::Handle`. -/
def HandlerObject.turn {ρ : Type} (object : HandlerObject ρ) (request : ρ) (ctx : ConnContext) : Turn :=
  object.handler.turn request ctx

namespace Server

variable {ι ρ : Type} (objects : ι → HandlerObject ρ) (request : ρ)

/-- `Server::GetHandler` -/
def getHandler : List ι → Except Thrown (Option ι)
  | [] => .ok none
  | p :: handlers =>
    match (objects p).canHandle request with
    | .error thrown => .error thrown
    | .ok true => .ok (some p)
    | .ok false => getHandler handlers

abbrev handlersOf (p : ι) : Handler ρ := (objects p).handler

def invoked (handlers : List ι) (ctx : ConnContext) : List ι :=
  ((dispatch (handlersOf objects) request handlers ctx).1.map Prod.fst).filter fun p =>
    match (objects p).canHandle request with
    | .ok can => can
    | .error _ => false

end Server

/-! ### Handlers that call `Handler::Handle` -/

theorem ConnContext.handled_act {ctx : ConnContext} (h : ctx.handled = true) (action : Action) :
    (ctx.act action).state.handled = true := by
  cases action with
  | stream op =>
      rw [act, stream, step_streamRef]
      simp [h]
  | streamRef op =>
      rw [act, step_streamRef]
      exact h
  | handle => rfl
  | close =>
      rw [act, close]
      cases ctx.response.done with
      | returns value response => exact h
      | throws error response => exact h

theorem ConnContext.handled_after {ctx : ConnContext} (h : ctx.handled = true) (actions : List Action) :
    (ctx.after actions).handled = true := by
  induction actions generalizing ctx with
  | nil => exact h
  | cons action actions ih =>
      rw [after, Machine.run_cons]
      exact ih (ctx.handled_act h action)

/-- A `Handle` that starts with the one of the base class, and a `CanHandle` that does not throw. -/
structure HandlerObject.Based {ρ : Type} (object : HandlerObject ρ) : Prop where
  total : ∀ request, ∃ can, object.canHandle request = .ok can
  starts : ∀ request ctx, ∃ actions, (object.handle request ctx).1 = .handle :: actions

theorem HandlerObject.Based.handled_after {ρ : Type} {object : HandlerObject ρ} (hbased : object.Based)
    (request : ρ) (ctx : ConnContext) :
    (ctx.after (object.handle request ctx).1).handled = true := by
  obtain ⟨actions, hactions⟩ := hbased.starts request ctx
  have hhandled : ({ ctx with handled := true } : ConnContext).handled = true := rfl
  rw [hactions, ConnContext.after, Machine.run_cons]
  exact ConnContext.handled_after hhandled actions

/-- What one call of `Handle` answers, with its exception caught. -/
def HandlerObject.answer {ρ : Type} (object : HandlerObject ρ) (request : ρ) (ctx : ConnContext) :
    Result ConnContext Bool :=
  let (actions, ending) := object.handle request ctx
  match ending with
  | .throws (.handlerException status) =>
    ((ctx.after actions).streamRef (.status (status.getD .internalServerError))).bind fun _ ctx =>
      .returns true ctx
  | .throws (.other error) => .throws error (ctx.after actions)
  | .returns _ => .returns true (ctx.after actions)

section Based

variable {ρ : Type} {object : HandlerObject ρ} {request : ρ} {ctx : ConnContext}

theorem turn_of_can (hbased : object.Based) (hcan : object.canHandle request = .ok true) :
    object.turn request ctx = .ends (object.answer request ctx) := by
  have hhandled := hbased.handled_after request ctx
  obtain ⟨actions, ending, hcall⟩ : ∃ actions ending, object.handle request ctx = (actions, ending) :=
    ⟨_, _, rfl⟩
  rw [hcall] at hhandled
  rw [HandlerObject.turn, Handler.turn, Handler.attempt, show object.handler.canHandle request = .ok true from hcan]
  simp only [HandlerObject.handler, HandlerObject.answer, hcall]
  cases ending with
  | returns value => exact if_pos hhandled
  | throws thrown =>
      cases thrown with
      | handlerException status => rfl
      | other error => rfl

theorem turn_of_cannot (hcan : object.canHandle request = .ok false) (hopen : ctx.handled = false) :
    object.turn request ctx = .goOn ctx := by
  rw [HandlerObject.turn, Handler.turn, Handler.attempt, show object.handler.canHandle request = .ok false from hcan]
  simp [ConnContext.after, ConnContext.conclude, hopen]

theorem answer_of_based (hbased : object.Based)
    (hends : ∀ error, (object.handle request ctx).2 ≠ .throws (.other error)) :
    ∃ ctx', object.answer request ctx = .returns true ctx' ∧ ctx'.handled = true := by
  have hhandled := hbased.handled_after request ctx
  obtain ⟨actions, ending, hcall⟩ : ∃ actions ending, object.handle request ctx = (actions, ending) :=
    ⟨_, _, rfl⟩
  rw [hcall] at hends hhandled
  simp only [HandlerObject.answer, hcall]
  cases ending with
  | returns value => exact ⟨_, rfl, hhandled⟩
  | throws thrown =>
      cases thrown with
      | handlerException status => exact ⟨_, rfl, hhandled⟩
      | other error => exact absurd rfl (hends error)

end Based

namespace Server

variable {ι ρ : Type} {objects : ι → HandlerObject ρ} {request : ρ} {handlers : List ι} {ctx : ConnContext}

theorem dispatch_of_goOn {p : ι} {ctx' : ConnContext} (h : (objects p).turn request ctx = .goOn ctx') :
    dispatch (handlersOf objects) request (p :: handlers) ctx
      = ((p, ctx) :: (dispatch (handlersOf objects) request handlers ctx').1,
          (dispatch (handlersOf objects) request handlers ctx').2) := by
  rw [HandlerObject.turn] at h
  rw [dispatch, h]

theorem dispatch_of_ends {p : ι} {result : Result ConnContext Bool}
    (h : (objects p).turn request ctx = .ends result) :
    dispatch (handlersOf objects) request (p :: handlers) ctx = ([(p, ctx)], result) := by
  rw [HandlerObject.turn] at h
  rw [dispatch, h]

/-- **The loop is `GetHandler` and one call**, for handlers that call `Handler::Handle`. -/
theorem dispatch_eq_getHandler (hbased : ∀ p ∈ handlers, (objects p).Based) (hfresh : ctx.handled = false) :
    ∃ chosen, getHandler objects request handlers = .ok chosen ∧ (∀ p ∈ chosen, p ∈ handlers) ∧
      invoked objects request handlers ctx = chosen.toList ∧
      (dispatch (handlersOf objects) request handlers ctx).2
        = chosen.elim (.returns false ctx) fun p => (objects p).answer request ctx := by
  induction handlers with
  | nil => exact ⟨none, rfl, nofun, rfl, rfl⟩
  | cons p handlers ih =>
      obtain ⟨hp, hbased⟩ := List.forall_mem_cons.mp hbased
      obtain ⟨can, hcan⟩ := hp.total request
      cases can with
      | true =>
          have hdispatch : dispatch (handlersOf objects) request (p :: handlers) ctx = _ :=
            dispatch_of_ends (turn_of_can hp hcan)
          refine ⟨some p, by rw [getHandler, hcan], by simp, ?_, ?_⟩
          · simp [invoked, hdispatch, hcan]
          · simp [hdispatch]
      | false =>
          have hdispatch : dispatch (handlersOf objects) request (p :: handlers) ctx = _ :=
            dispatch_of_goOn (turn_of_cannot hcan hfresh)
          obtain ⟨chosen, hchosen, hmem, hinvoked, hresult⟩ := ih hbased
          refine ⟨chosen, by rw [getHandler, hcan]; exact hchosen, fun q hq => .tail _ (hmem q hq), ?_, ?_⟩
          · rw [invoked] at hinvoked
            simp [invoked, hdispatch, hcan, hinvoked]
          · simp [hdispatch, hresult]

/-- **The two ways of dispatch agree.** Among handlers that call `Handler::Handle`, `Server::Handle` calls
the `Handle` of the one that `GetHandler` returns and of no other, in the context it is given, and ends as that
call does. It returns whether there is one, in a context that is handled or not accordingly. The handlers may
return what they like or throw a `HandlerException`. -/
theorem handle_agrees (hbased : ∀ p ∈ handlers, (objects p).Based) (hfresh : ctx.handled = false)
    (hends : ∀ p ∈ handlers, ∀ error, ((objects p).handle request ctx).2 ≠ .throws (.other error)) :
    ∃ chosen ctx', getHandler objects request handlers = .ok chosen ∧
      invoked objects request handlers ctx = chosen.toList ∧
      Server.handle request (handlers.map fun p => (objects p).handler) ctx
        = chosen.elim (.returns false ctx) (fun p => (objects p).answer request ctx) ∧
      Server.handle request (handlers.map fun p => (objects p).handler) ctx
        = .returns chosen.isSome ctx' ∧
      ctx'.handled = chosen.isSome := by
  obtain ⟨chosen, hchosen, hmem, hinvoked, hresult⟩ := dispatch_eq_getHandler hbased hfresh
  rw [dispatch_result] at hresult
  cases chosen with
  | none => exact ⟨none, ctx, hchosen, hinvoked, hresult, hresult, hfresh⟩
  | some p =>
      have hp := hmem p rfl
      obtain ⟨ctx', hanswer, hhandled⟩ := answer_of_based (hbased p hp) (hends p hp)
      exact ⟨some p, ctx', hchosen, hinvoked, hresult, hresult.trans hanswer, hhandled⟩

end Server

/-! ### Routes -/

/-- `Route_<P, T...>`: its `Handle` makes the tests of its `CanHandle` again, and then calls the function
with the values. -/
def Route.object (r : Route) (f : List Str → ConnContext → List Action × Option Thrown) :
    HandlerObject Request where
  canHandle request := .ok (r.canHandle request)
  handle request ctx :=
    if r.canHandle request then
      let (actions, thrown) := f (modernSscanf r.types request.uri r.route).2 (ctx.after [.handle])
      (.handle :: actions, thrown.elim (.returns true) .throws)
    else ([.handle], .returns false)

theorem Route.based (r : Route) (f : List Str → ConnContext → List Action × Option Thrown) :
    (r.object f).Based where
  total request := ⟨_, rfl⟩
  starts request ctx := by
    simp only [Route.object]
    split
    · exact ⟨_, rfl⟩
    · exact ⟨_, rfl⟩

def twice : Bool → HandlerObject Request := fun first =>
  (Route.mk (lit "/a") .any []).object fun _ _ =>
    if first then ([], some (.handlerException (some .notAcceptable))) else ([.streamRef (.payload [])], none)

theorem handle_agrees_twice : ∃ chosen ctx',
    Server.getHandler twice ⟨.get, lit "/a", by decide⟩ [true, false] = .ok chosen ∧
      Server.invoked twice ⟨.get, lit "/a", by decide⟩ [true, false] {} = chosen.toList ∧
      Server.handle ⟨.get, lit "/a", by decide⟩ ([true, false].map fun p => (twice p).handler) {}
        = chosen.elim (.returns false {}) (fun p => (twice p).answer ⟨.get, lit "/a", by decide⟩ {}) ∧
      Server.handle ⟨.get, lit "/a", by decide⟩ ([true, false].map fun p => (twice p).handler) {}
        = .returns chosen.isSome ctx' ∧
      ctx'.handled = chosen.isSome :=
  Server.handle_agrees (fun p _ => Route.based _ _) rfl fun p _ error => by cases p <;> nofun

end Rikitiki
