import Rikitiki.Outgoing.Done

/-!
# Connection contexts

A context is a response being written and the flag that says whether the request is taken care of. Its
own `operator<<` sets the flag for some operations; the `operator<<` of a `std::shared_ptr` to it, which
is what handlers and the server stream into, goes to the response and leaves the flag alone. There a payload is
what the value is inserted into a stream as, which for a `std::string` is a C string (`Op.inserted`).
-/

namespace Rikitiki

structure ConnContext where
  handled : Bool := false
  response : OResponseWriter := .fresh
  deriving DecidableEq, Repr

/-- What is done to a context. -/
inductive Action where
  /-- `operator<<` on the context -/
  | stream (op : Op)
  /-- `operator<<` on a shared pointer to the context -/
  | streamRef (op : Op)
  /-- `Handler::Handle` -/
  | handle
  /-- `ConnContext::Close` -/
  | close
  deriving DecidableEq, Repr

/-- The operations whose `ConnContext::operator<<` marks the context as handled. -/
def Op.marks : Op → Bool
  | .status _ => true
  | .field (.header _) => true
  | .field (.cookie _) => true
  | .field (.contentType _) => false
  | .payload _ => false

/-- A `std::string` is inserted into a stream as a C string. -/
def Op.inserted : Op → Op
  | .payload text => .payload (cstr text)
  | op => op

namespace ConnContext

/-- `operator<<` of a shared pointer to a context -/
def streamRef (ctx : ConnContext) (op : Op) : Result ConnContext Unit :=
  (ctx.response.stream op).mapState fun response => { ctx with response := response }

/-- `ConnContext::operator<<` -/
def stream (ctx : ConnContext) (op : Op) : Result ConnContext Unit :=
  streamRef { ctx with handled := ctx.handled || op.marks } op

/-- `ConnContext::Close` -/
def close (ctx : ConnContext) : Result ConnContext Unit :=
  ctx.response.done.mapState fun response => { ctx with response := response }

/-- `CleanConnContext`, which runs when the last reference to a context is released. -/
def clean (ctx : ConnContext) : Result ConnContext Unit :=
  if ctx.handled then ctx.close else .returns () ctx

def act (ctx : ConnContext) : Action → Result ConnContext Unit
  | .stream op => ctx.stream op
  | .streamRef op => ctx.streamRef op
  | .handle => .returns () { ctx with handled := true }
  | .close => ctx.close

/-- An action whose exception the handler swallows. -/
def step (ctx : ConnContext) (action : Action) : Option Exception × ConnContext :=
  ((ctx.act action).error, (ctx.act action).state)

end ConnContext

/-! ### Runs without `Close` -/

def Action.op? : Action → Option Op
  | .stream op => some op
  | .streamRef op => some op
  | _ => none

def Action.marks : Action → Bool
  | .stream op => op.marks
  | .handle => true
  | _ => false

/-- The operations on the response among some actions. -/
def opsOf (actions : List Action) : List Op := actions.filterMap Action.op?

namespace ConnContext

theorem step_streamRef (ctx : ConnContext) (op : Op) :
    (ctx.streamRef op).state = { ctx with response := (ctx.response.step op).2 } := by
  rw [streamRef, OResponseWriter.step]
  cases ctx.response.stream op <;> rfl

theorem step_eq {action : Action} (hopen : action ≠ .close) (ctx : ConnContext) :
    (ctx.step action).2
      = { handled := ctx.handled || action.marks
          response := (Machine.run OResponseWriter.step ctx.response action.op?.toList).2 } := by
  cases action with
  | stream op =>
      rw [step, act, stream, step_streamRef]
      rfl
  | streamRef op =>
      rw [step, act, step_streamRef]
      simp [Action.marks, Action.op?, Machine.run_cons]
  | handle => simp [step, act, Action.marks, Action.op?]
  | close => exact absurd rfl hopen

/-- A context that is not closed has been handled if it was or some action marked it, and its response
has taken the operations among the actions. -/
theorem run_eq {actions : List Action} (hopen : ∀ action ∈ actions, action ≠ .close) (ctx : ConnContext) :
    (Machine.run step ctx actions).2
      = { handled := ctx.handled || actions.any Action.marks
          response := (Machine.run OResponseWriter.step ctx.response (opsOf actions)).2 } := by
  induction actions generalizing ctx with
  | nil => simp [opsOf]
  | cons action actions ih =>
      have hops : opsOf (action :: actions) = action.op?.toList ++ opsOf actions := by
        rw [opsOf, opsOf, List.filterMap_cons]
        cases action.op? <;> rfl
      rw [Machine.run_cons, ih fun a ha => hopen a (by simp [ha]), step_eq (hopen action (by simp)), hops,
        Machine.run_append, List.any_cons, Bool.or_assoc]

theorem clean_of_handled {ctx : ConnContext} {ops : List Op} (hhandled : ctx.handled = true)
    (hresponse : ctx.response = (Machine.run OResponseWriter.step .fresh ops).2) :
    ctx.clean = .returns () { ctx with response := .closed ops } := by
  rw [clean, if_pos hhandled, close, hresponse, OResponseWriter.done_eq_closed, Result.mapState_returns]

end ConnContext

end Rikitiki
