import Rikitiki.Server.ConnContext

/-!
# Handling a request

`Server::Handle` asks its handlers in order and lets those that can handle the request do so, until one
has taken care of it or throws. A handler is what it does: from the request it decides whether it can
handle it, and from the request and the context what it does to the context and how it ends. An exception
of one of its actions is either swallowed, or ends its actions and is what it throws. One of another type
than `HandlerException` leaves `Server::Handle`. The loop keeps a record of the handlers it visits.
-/

namespace Rikitiki

/-- What a handler throws. -/
inductive Thrown where
  /-- `HandlerException`, with its status if it carries one -/
  | handlerException (status : Option HttpStatus)
  | other (error : Exception)
  deriving DecidableEq, Repr

structure Handler (ρ : Type) where
  canHandle : ρ → Except Thrown Bool
  handle : ρ → ConnContext → List Action × Option Thrown

/-- The body of the `try` block of `Server::Handle`: what is done to the context, and what is thrown. -/
def Handler.attempt {ρ : Type} (handler : Handler ρ) (request : ρ) (ctx : ConnContext) :
    List Action × Option Thrown :=
  match handler.canHandle request with
  | .error thrown => ([], some thrown)
  | .ok false => ([], none)
  | .ok true => handler.handle request ctx

def ConnContext.after (ctx : ConnContext) (actions : List Action) : ConnContext :=
  (Machine.run step ctx actions).2

inductive Turn where
  | goOn (ctx : ConnContext)
  | ends (result : Result ConnContext Bool)

def ConnContext.conclude (ctx : ConnContext) : Option Thrown → Turn
  | some (.handlerException status) =>
    .ends ((ctx.streamRef (.status (status.getD .internalServerError))).bind fun _ ctx => .returns true ctx)
  | some (.other error) => .ends (.throws error ctx)
  | none => if ctx.handled then .ends (.returns true ctx) else .goOn ctx

def Handler.turn {ρ : Type} (handler : Handler ρ) (request : ρ) (ctx : ConnContext) : Turn :=
  let (actions, thrown) := handler.attempt request ctx
  (ctx.after actions).conclude thrown

/-- `Server::Handle`: the handlers it visits, each with the context before its turn, and how it ends. Handlers
are known by their pointers. -/
def Server.dispatch {ι ρ : Type} (objects : ι → Handler ρ) (request : ρ) :
    List ι → ConnContext → List (ι × ConnContext) × Result ConnContext Bool
  | [], ctx => ([], .returns false ctx)
  | p :: handlers, ctx =>
    match (objects p).turn request ctx with
    | .goOn ctx' =>
      let (visits, result) := Server.dispatch objects request handlers ctx'
      ((p, ctx) :: visits, result)
    | .ends result => ([(p, ctx)], result)

/-- How `Server::Handle` ends, for the handlers themselves. -/
def Server.handle {ρ : Type} (request : ρ) (handlers : List (Handler ρ)) (ctx : ConnContext) :
    Result ConnContext Bool :=
  (Server.dispatch id request handlers ctx).2

/-- A handler throws a `HandlerException` at a request, after these actions of it and of those in front
of it that did not take care of the request. -/
inductive Throws {ρ : Type} (request : ρ) :
    List (Handler ρ) → ConnContext → List Action → Option HttpStatus → Prop
  | here {handler : Handler ρ} {handlers : List (Handler ρ)} {ctx : ConnContext} {actions : List Action}
      {status : Option HttpStatus}
      (hattempt : handler.attempt request ctx = (actions, some (.handlerException status))) :
      Throws request (handler :: handlers) ctx actions status
  | later {handler : Handler ρ} {handlers : List (Handler ρ)} {ctx : ConnContext}
      {before actions : List Action} {status : Option HttpStatus}
      (hattempt : handler.attempt request ctx = (before, none))
      (hopen : (ctx.after before).handled = false)
      (hrest : Throws request handlers (ctx.after before) actions status) :
      Throws request (handler :: handlers) ctx (before ++ actions) status

section Dispatch

variable {ρ : Type} {request : ρ} {handlers : List (Handler ρ)} {ctx : ConnContext}
  {actions : List Action} {status : Option HttpStatus}

theorem ConnContext.after_append (ctx : ConnContext) (actions more : List Action) :
    ctx.after (actions ++ more) = (ctx.after actions).after more := by
  rw [after, Machine.run_append]
  rfl

@[simp] theorem handle_nil : Server.handle request [] ctx = .returns false ctx := rfl

theorem handle_cons (handler : Handler ρ) : Server.handle request (handler :: handlers) ctx =
    match handler.turn request ctx with
    | .goOn ctx' => Server.handle request handlers ctx'
    | .ends result => result := by
  rw [Server.handle, Server.dispatch, id]
  cases handler.turn request ctx with
  | goOn ctx' => rfl
  | ends result => rfl

theorem turn_of_attempt {handler : Handler ρ} {thrown : Option Thrown}
    (h : handler.attempt request ctx = (actions, thrown)) :
    handler.turn request ctx = (ctx.after actions).conclude thrown := by
  rw [Handler.turn, h]

theorem handle_cons_of_open {handler : Handler ρ} (hattempt : handler.attempt request ctx = (actions, none))
    (hopen : (ctx.after actions).handled = false) :
    Server.handle request (handler :: handlers) ctx = Server.handle request handlers (ctx.after actions) := by
  rw [handle_cons, turn_of_attempt hattempt, ConnContext.conclude, hopen]
  rfl

theorem handle_cons_of_handled {handler : Handler ρ} (hattempt : handler.attempt request ctx = (actions, none))
    (hhandled : (ctx.after actions).handled = true) :
    Server.handle request (handler :: handlers) ctx = .returns true (ctx.after actions) := by
  rw [handle_cons, turn_of_attempt hattempt, ConnContext.conclude, hhandled]
  rfl

/-- Which pointers handlers are known by is of no account. -/
theorem dispatch_result {ι : Type} (objects : ι → Handler ρ) (pointers : List ι) (ctx : ConnContext) :
    (Server.dispatch objects request pointers ctx).2 = Server.handle request (pointers.map objects) ctx := by
  induction pointers generalizing ctx with
  | nil => rfl
  | cons p pointers ih =>
      rw [Server.dispatch, List.map_cons, handle_cons]
      cases (objects p).turn request ctx with
      | goOn ctx' => exact ih ctx'
      | ends result => rfl

/-- **An exception ends the dispatch**: `Server::Handle` returns `true`, and all it has done is to set the
status. -/
theorem handle_of_throws (h : Throws request handlers ctx actions status) :
    Server.handle request handlers ctx
      = .returns true (ctx.after (actions ++ [.streamRef (.status (status.getD .internalServerError))])) := by
  induction h with
  | here hattempt =>
      rw [handle_cons, turn_of_attempt hattempt, ConnContext.after_append]
      rfl
  | later hattempt hopen hrest ih =>
      rw [handle_cons_of_open hattempt hopen, List.append_assoc, ConnContext.after_append, ih]

end Dispatch

/-! ### Routes -/

def route {ρ : Type} (function : ρ → ConnContext → List Action × Option Thrown) : Handler ρ where
  canHandle _ := .ok true
  handle request ctx :=
    let (actions, thrown) := function request (ctx.after [.handle])
    (.handle :: actions, thrown)

/-- The types a client may ask for, as `type_conversion_error` lists them. -/
def acceptText (types : List ContentType) : Str :=
  types.foldl (fun accepts type => (if accepts = [] then [] else accepts ++ lit ", ") ++ type.toString) []

/-- `type_conversion_error`, for the types whose entry of `handlers` is not null. -/
def typeConversionError (types : List ContentType) : List Action × Option Thrown :=
  ([.stream (.field (.header ⟨lit "Accept", acceptText types⟩))],
    some (.handlerException (some .notAcceptable)))

end Rikitiki
