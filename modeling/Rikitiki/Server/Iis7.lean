import Rikitiki.Library.Shared
import Rikitiki.Server.Handle

/-!
# Requests under IIS

`OnBeginRequest` lends a handler a reference to the context, and answers IIS according to who still refers to
it behind the call. Everybody with a reference acts between its steps as he likes. IIS learns that a request
is done from the answer, or later from `IndicateCompletion`, which is up to the deleter of the context.
-/

namespace Rikitiki.Iis7

/-- The calls IIS gets. What `II7Response` does for an operation counts as one. -/
inductive Call where
  | response (op : Op)
  | setRequestHandled
  | indicateCompletion
  deriving DecidableEq, Repr

/-- `II7ConnContext`. Its response keeps nothing. -/
structure II7ConnContext where
  handled : Bool := false
  async : Bool := false
  deriving DecidableEq, Repr

namespace II7ConnContext

/-- `II7ConnContext::Close`. The `Done` of the response does nothing. -/
def close (ctx : II7ConnContext) : List Call :=
  .setRequestHandled :: if ctx.async then [.indicateCompletion] else []

/-- `CleanConnContext` -/
def clean (ctx : II7ConnContext) : List Call := if ctx.handled then ctx.close else []

def act (ctx : II7ConnContext) : Action → List Call × II7ConnContext
  | .stream op => ([.response op], { ctx with handled := ctx.handled || op.marks })
  | .streamRef op => ([.response op], ctx)
  | .handle => ([], { ctx with handled := true })
  | .close => (ctx.close, ctx)

inductive Use where
  | act (action : Action)
  | setAsync
  deriving DecidableEq, Repr

def use (ctx : II7ConnContext) : Use → List Call × II7ConnContext
  | .act action => ctx.act action
  | .setAsync => ([], { ctx with async := true })

/-- A context behind a `ConnContextRef_`. -/
def behaviour : Shared.Behaviour II7ConnContext Use Call := ⟨use, clean⟩

end II7ConnContext

open II7ConnContext (Use behaviour)

/-- `REQUEST_NOTIFICATION_STATUS` -/
inductive Notification where
  | rqContinue
  | rqPending
  | rqFinishRequest
  deriving DecidableEq, Repr

/-- How far `OnBeginRequest` is. -/
inductive Main where
  /-- in `handler->Handle(ctx)`, whose argument is a reference of its own -/
  | handling
  /-- before `ctx.use_count() == 1` -/
  | counting
  /-- before `ctx->SetAsync()` -/
  | settingAsync
  /-- before the end of `ctx`, with the value that is returned, if it is not an exception that leaves -/
  | leaving (status : Option Notification)
  | left (status : Option Notification)
  deriving DecidableEq, Repr

/-- What `OnBeginRequest` has decided to return. -/
def Main.status : Main → Option Notification
  | .leaving status => status
  | .left status => status
  | .handling | .counting | .settingAsync => none

structure OnBeginRequest where
  main : Main
  ctx : Shared.State II7ConnContext
  deriving DecidableEq, Repr

inductive Event where
  /-- Somebody with a reference, the handler included, does something to the context. -/
  | act (action : Action)
  | retain
  | release
  /-- The handler returns. -/
  | returns (value : Bool)
  | throws
  | count
  | setAsync
  | leave
  deriving DecidableEq, Repr

/-- `OnBeginRequest` behind the call of `GetHandler`. -/
def start {ι : Type} : Except Thrown (Option ι) → OnBeginRequest
  | .ok (some _) => ⟨.handling, ⟨true, 1, {}⟩⟩
  | .ok none => ⟨.leaving (some .rqContinue), ⟨true, 0, {}⟩⟩
  | .error _ => ⟨.leaving none, ⟨true, 0, {}⟩⟩

/-- What an event is for the context. -/
def Event.shared : Event → List (Shared.Event Use)
  | .act action => [.use (.act action)]
  | .retain => [.retain]
  | .release | .returns _ | .throws => [.release]
  | .count => []
  | .setAsync => [.own .setAsync]
  | .leave => [.disown]

namespace OnBeginRequest

/-- Where `OnBeginRequest` is behind an event, if it can happen now. -/
def next (s : OnBeginRequest) : Event → Option Main
  | .act _ | .retain => some s.main
  -- The reference of a running handler goes when the handler does.
  | .release => if s.main = .handling ∧ s.ctx.others ≤ 1 then none else some s.main
  | .returns value =>
    if s.main = .handling then some (if value then .counting else .leaving (some .rqContinue)) else none
  | .throws => if s.main = .handling then some (.leaving none) else none
  | .count =>
    if s.main = .counting then
      some (if s.ctx.useCount = 1 then .leaving (some .rqFinishRequest) else .settingAsync)
    else none
  | .setAsync => if s.main = .settingAsync then some (.leaving (some .rqPending)) else none
  | .leave =>
    match s.main with
    | .leaving status => some (.left status)
    | _ => none

def step (s : OnBeginRequest) (event : Event) : Option (List Call × OnBeginRequest) :=
  (s.next event).bind fun main =>
    (Run.run (Shared.step behaviour) s.ctx event.shared).map fun (calls, ctx) => (calls.flatten, ⟨main, ctx⟩)

end OnBeginRequest

open OnBeginRequest (step)

variable {ι : Type} {found : Except Thrown (Option ι)} {s t : OnBeginRequest} {event : Event}
  {events : List Event} {calls : List Call} {outputs : List (List Call)}

theorem step_eq_some : step s event = some (calls, t) ↔ s.next event = some t.main ∧
    ∃ outputs, Run.run (Shared.step behaviour) s.ctx event.shared = some (outputs, t.ctx) ∧
      outputs.flatten = calls := by
  constructor
  · intro h
    obtain ⟨main, hmain, hrun⟩ := Option.bind_eq_some_iff.mp h
    obtain ⟨⟨outputs, ctx⟩, hctx, heq⟩ := Option.map_eq_some_iff.mp hrun
    obtain ⟨rfl, rfl⟩ := Prod.mk.inj heq
    exact ⟨hmain, outputs, hctx, rfl⟩
  · intro h
    obtain ⟨hmain, outputs, hctx, rfl⟩ := h
    rw [step, hmain, Option.bind_some, hctx]
    rfl

theorem next_leave_eq_some {main : Main} :
    s.next .leave = some main ↔ ∃ status, s.main = .leaving status ∧ main = .left status := by
  rw [OnBeginRequest.next]
  constructor
  · intro h
    split at h
    · rename_i status hmain
      exact ⟨status, hmain, (Option.some.inj h).symm⟩
    · cases h
  · intro h
    obtain ⟨status, hmain, rfl⟩ := h
    rw [hmain]

/-- **The context is a shared object**, whatever `OnBeginRequest` does between the other events. -/
theorem run_shared (hrun : Run.run step s events = some (outputs, t)) :
    ∃ others, Run.run (Shared.step behaviour) s.ctx (events.flatMap Event.shared) = some (others, t.ctx) ∧
      others.flatten = outputs.flatten :=
  Run.run_refines (fun _ _ _ _ hstep => (step_eq_some.mp hstep).2) hrun

/-! ### The two sides agree on the references -/

/-- The owner's reference is there until `OnBeginRequest` has returned, and a handler that is running has one.
The flag is set exactly when IIS is to be told later, and nobody else refers to the context when IIS is told
at once. -/
structure Inv (s : OnBeginRequest) : Prop where
  owned : s.ctx.owned = true ↔ ∀ status, s.main ≠ .left status
  lent : s.main = .handling → s.ctx.others ≠ 0
  async : s.ctx.object.async = true ↔ s.main.status = some .rqPending
  alone : s.main.status = some .rqFinishRequest → s.ctx.others = 0

theorem inv_start (found : Except Thrown (Option ι)) : Inv (start found) := by
  rcases found with thrown | _ | p
  all_goals
    constructor
    all_goals simp [start, Main.status]

theorem async_act (ctx : II7ConnContext) (action : Action) : (ctx.act action).2.async = ctx.async := by
  cases action <;> rfl

theorem Inv.undecided {main : Main} {ctx : Shared.State II7ConnContext} (howned : ctx.owned = true)
    (hasync : ctx.object.async = false) (hmain : main = .counting ∨ main = .settingAsync ∨
      main = .leaving (some .rqContinue) ∨ main = .leaving none) : Inv ⟨main, ctx⟩ := by
  rcases hmain with rfl | rfl | rfl | rfl
  all_goals
    constructor
    all_goals simp [howned, hasync, Main.status]

theorem Inv.async_eq_false (hs : Inv s) (hmain : s.main.status = none) : s.ctx.object.async = false := by
  rw [Bool.eq_false_iff]
  intro h
  rw [hs.async.mp h] at hmain
  cases hmain

theorem Inv.handled {main : Main} {ctx : Shared.State II7ConnContext} {effects : List Call} (hs : Inv s)
    (hmain : s.main = .handling) (hctx : Shared.step behaviour s.ctx .release = some (effects, ctx))
    (hnext : main = .counting ∨ main = .settingAsync ∨ main = .leaving (some .rqContinue) ∨ main = .leaving none) :
    Inv ⟨main, ctx⟩ := by
  obtain ⟨-, hsettle⟩ := Shared.step_release.mp hctx
  obtain ⟨-, rfl⟩ := Prod.mk.inj hsettle
  have hasync : s.ctx.object.async = false := hs.async_eq_false (by rw [hmain]; rfl)
  exact Inv.undecided (hs.owned.mpr (by simp [hmain])) hasync hnext

theorem Inv.step (hs : Inv s) (hstep : step s event = some (calls, t)) : Inv t := by
  obtain ⟨hnext, outputs, hrun, -⟩ := step_eq_some.mp hstep
  obtain ⟨main, ctx⟩ := t
  cases event with
  | act action =>
      obtain rfl : s.main = main := Option.some.inj hnext
      obtain ⟨effects, hctx, -⟩ := Run.run_singleton_eq_some.mp hrun
      obtain ⟨-, heq⟩ := Shared.step_use.mp hctx
      obtain ⟨-, rfl⟩ := Prod.mk.inj heq
      refine ⟨hs.owned, hs.lent, ?_, hs.alone⟩
      change (s.ctx.object.act action).2.async = true ↔ _
      rw [async_act]
      exact hs.async
  | retain =>
      obtain rfl : s.main = main := Option.some.inj hnext
      obtain ⟨effects, hctx, -⟩ := Run.run_singleton_eq_some.mp hrun
      obtain ⟨hothers, heq⟩ := Shared.step_retain.mp hctx
      obtain ⟨-, rfl⟩ := Prod.mk.inj heq
      exact ⟨hs.owned, fun _ => Nat.succ_ne_zero _, hs.async, fun h => absurd (hs.alone h) hothers⟩
  | release =>
      obtain ⟨hkept, hmain⟩ := Option.ite_none_left_eq_some.mp hnext
      obtain rfl : s.main = main := Option.some.inj hmain
      obtain ⟨effects, hctx, -⟩ := Run.run_singleton_eq_some.mp hrun
      obtain ⟨hothers, heq⟩ := Shared.step_release.mp hctx
      obtain ⟨-, rfl⟩ := Prod.mk.inj heq
      refine ⟨hs.owned, fun h => ?_, hs.async, fun h => absurd (hs.alone h) hothers⟩
      have hmore : 1 < s.ctx.others := Nat.lt_of_not_le fun hle => hkept ⟨h, hle⟩
      exact Nat.sub_ne_zero_of_lt hmore
  | returns value =>
      obtain ⟨hmain, heq⟩ := Option.ite_none_right_eq_some.mp hnext
      obtain rfl := Option.some.inj heq
      obtain ⟨effects, hctx, -⟩ := Run.run_singleton_eq_some.mp hrun
      apply hs.handled hmain hctx
      cases value with
      | false => exact .inr (.inr (.inl rfl))
      | true => exact .inl rfl
  | throws =>
      obtain ⟨hmain, heq⟩ := Option.ite_none_right_eq_some.mp hnext
      obtain rfl := Option.some.inj heq
      obtain ⟨effects, hctx, -⟩ := Run.run_singleton_eq_some.mp hrun
      exact hs.handled hmain hctx (.inr (.inr (.inr rfl)))
  | count =>
      obtain ⟨hmain, heq⟩ := Option.ite_none_right_eq_some.mp hnext
      obtain rfl := Option.some.inj heq
      obtain ⟨-, rfl⟩ := Prod.mk.inj (Option.some.inj hrun)
      have howned : s.ctx.owned = true := hs.owned.mpr (by simp [hmain])
      have hasync : s.ctx.object.async = false := hs.async_eq_false (by rw [hmain]; rfl)
      by_cases hcount : s.ctx.useCount = 1
      · rw [if_pos hcount]
        rw [Shared.State.useCount, howned, Bool.toNat_true] at hcount
        have halone : s.ctx.others = 0 := by omega
        constructor
        · simp [howned]
        · exact fun h => absurd h (by simp)
        · simp [hasync, Main.status]
        · exact fun _ => halone
      · rw [if_neg hcount]
        exact Inv.undecided howned hasync (.inr (.inl rfl))
  | setAsync =>
      obtain ⟨hmain, heq⟩ := Option.ite_none_right_eq_some.mp hnext
      obtain rfl := Option.some.inj heq
      obtain ⟨effects, hctx, -⟩ := Run.run_singleton_eq_some.mp hrun
      obtain ⟨howned, heq⟩ := Shared.step_own.mp hctx
      obtain ⟨-, rfl⟩ := Prod.mk.inj heq
      constructor
      · simp [howned]
      · exact fun h => absurd h (by simp)
      · exact ⟨fun _ => rfl, fun _ => rfl⟩
      · exact fun h => absurd h (by simp [Main.status])
  | leave =>
      obtain ⟨status, hmain, rfl⟩ := next_leave_eq_some.mp hnext
      obtain ⟨effects, hctx, -⟩ := Run.run_singleton_eq_some.mp hrun
      obtain ⟨-, hsettle⟩ := Shared.step_disown.mp hctx
      obtain ⟨-, rfl⟩ := Prod.mk.inj hsettle
      have hasync := hs.async
      have halone := hs.alone
      rw [hmain] at hasync halone
      constructor
      · simp
      · exact fun h => absurd h (by simp)
      · exact hasync
      · exact halone

theorem inv_of_run (hrun : Run.run step (start found) events = some (outputs, t)) : Inv t :=
  Run.run_invariant (fun _ _ _ _ hs hstep => hs.step hstep) (inv_start found) hrun

/-! ### What IIS is called for -/

def Event.action? : Event → Option Action
  | .act action => some action
  | _ => none

def actionsOf (events : List Event) : List Action := events.filterMap Event.action?

theorem run_use (hopen : .act .close ∉ events) (ctx : II7ConnContext) :
    (Machine.run behaviour.use ctx (Shared.uses (events.flatMap Event.shared))).1.flatten
      = (opsOf (actionsOf events)).map Call.response := by
  induction events generalizing ctx with
  | nil => rfl
  | cons event events ih =>
      obtain ⟨hne, hothers⟩ := List.ne_and_not_mem_of_not_mem_cons hopen
      cases event with
      | act action =>
          have hcons : Shared.uses ((Event.act action :: events).flatMap Event.shared)
              = .act action :: Shared.uses (events.flatMap Event.shared) := rfl
          rw [hcons, Machine.run_cons, List.flatten_cons, ih hothers]
          cases action with
          | stream op => rfl
          | streamRef op => rfl
          | handle => rfl
          | close => exact absurd rfl hne
      | setAsync => exact ih hothers _
      | retain => exact ih hothers ctx
      | release => exact ih hothers ctx
      | returns value => exact ih hothers ctx
      | throws => exact ih hothers ctx
      | count => exact ih hothers ctx
      | leave => exact ih hothers ctx

theorem handled_use (events : List Event) (ctx : II7ConnContext) :
    (Machine.run behaviour.use ctx (Shared.uses (events.flatMap Event.shared))).2.handled
      = (ctx.handled || (actionsOf events).any Action.marks) := by
  induction events generalizing ctx with
  | nil => exact (Bool.or_false _).symm
  | cons event events ih =>
      cases event with
      | act action =>
          have hcons : Shared.uses ((Event.act action :: events).flatMap Event.shared)
              = .act action :: Shared.uses (events.flatMap Event.shared) := rfl
          have hmarks : (ctx.act action).2.handled = (ctx.handled || action.marks) := by
            cases action <;> simp [II7ConnContext.act, Action.marks]
          have hactions : actionsOf (.act action :: events) = action :: actionsOf events := rfl
          rw [hcons, Machine.run_cons, ih, hactions, List.any_cons, ← Bool.or_assoc, ← hmarks]
          rfl
      | setAsync => exact ih _
      | retain => exact ih ctx
      | release => exact ih ctx
      | returns value => exact ih ctx
      | throws => exact ih ctx
      | count => exact ih ctx
      | leave => exact ih ctx

/-- **IIS is told once that a request is done.** It gets the operations of everybody who writes to the
response, in their order. Behind them, and not before the last reference is gone, it is told that a context
that has been marked is handled, and that the request is complete if and only if it has been told to wait. -/
theorem calls_eq (hrun : Run.run step (start found) events = some (outputs, t))
    (hopen : .act .close ∉ events) :
    outputs.flatten = (opsOf (actionsOf events)).map Call.response ++
      if t.ctx.useCount = 0 ∧ (actionsOf events).any Action.marks then
        .setRequestHandled :: if t.main.status = some .rqPending then [.indicateCompletion] else []
      else [] := by
  have hinv := inv_of_run hrun
  obtain ⟨others, hshared, heffects⟩ := run_shared hrun
  have hfresh : (start found).ctx.object = {} ∧ 0 < (start found).ctx.useCount := by
    rcases found with thrown | _ | p <;> exact ⟨rfl, Nat.succ_pos _⟩
  obtain ⟨hobject, hcalls⟩ := Shared.run_object hfresh.2 hshared
  rw [hfresh.1] at hobject hcalls
  have hhandled : t.ctx.object.handled = (actionsOf events).any Action.marks := by
    rw [hobject, handled_use]
    rfl
  rw [← heffects, hcalls, run_use hopen]
  congr 1
  by_cases hgone : t.ctx.useCount = 0
  · have hdelete : behaviour.delete t.ctx.object
        = if t.ctx.object.handled then t.ctx.object.close else [] := rfl
    simp only [hgone, true_and, if_true, hdelete, hhandled, II7ConnContext.close, hinv.async]
  · simp only [hgone, false_and, if_false]

/-- A handler passes its reference on and returns. The last other reference goes between the count and the
flag, so that the deleter runs when `OnBeginRequest` returns. -/
def lateRelease : List Event :=
  [.act .handle, .retain, .returns true, .count, .act (.streamRef (.payload [97])), .release, .setAsync, .leave]

theorem calls_eq_lateRelease : ∃ outputs t,
    Run.run step (start (.ok (some ()))) lateRelease = some (outputs, t) ∧
      outputs.flatten = [.response (.payload [97]), .setRequestHandled, .indicateCompletion] := by
  refine ⟨_, _, rfl, ?_⟩
  have hopen : .act .close ∉ lateRelease := by decide
  exact calls_eq (rfl : Run.run step (start (.ok (some ()))) lateRelease = some (_, _)) hopen

theorem step_of_finish (hs : Inv s) (hfinish : s.main.status = some .rqFinishRequest)
    (hstep : step s event = some (calls, t)) :
    event = .leave ∧ t.main = .left (some .rqFinishRequest) ∧ t.ctx.others = 0 ∧
      ∀ op, .response op ∉ calls := by
  have halone := hs.alone hfinish
  obtain ⟨hnext, outputs, hrun, rfl⟩ := step_eq_some.mp hstep
  cases event with
  | leave =>
      obtain ⟨status, hmain, hleft⟩ := next_leave_eq_some.mp hnext
      rw [hmain] at hfinish
      obtain rfl : status = some .rqFinishRequest := hfinish
      obtain ⟨effects, hctx, rfl⟩ := Run.run_singleton_eq_some.mp hrun
      obtain ⟨-, hsettle⟩ := Shared.step_disown.mp hctx
      obtain ⟨rfl, hsettled⟩ := Prod.mk.inj hsettle
      refine ⟨rfl, hleft, by rw [← hsettled]; exact halone, fun op => ?_⟩
      have hclean : .response op ∉ s.ctx.object.clean := by
        rw [II7ConnContext.clean, II7ConnContext.close]
        split_ifs <;> simp
      rw [List.flatten_singleton]
      split_ifs
      · exact hclean
      · exact List.not_mem_nil
  | act action =>
      obtain ⟨effects, hctx, -⟩ := Run.run_singleton_eq_some.mp hrun
      exact absurd halone (Shared.step_use.mp hctx).1
  | retain =>
      obtain ⟨effects, hctx, -⟩ := Run.run_singleton_eq_some.mp hrun
      exact absurd halone (Shared.step_retain.mp hctx).1
  | release =>
      obtain ⟨effects, hctx, -⟩ := Run.run_singleton_eq_some.mp hrun
      exact absurd halone (Shared.step_release.mp hctx).1
  | returns value =>
      obtain ⟨effects, hctx, -⟩ := Run.run_singleton_eq_some.mp hrun
      exact absurd halone (Shared.step_release.mp hctx).1
  | throws =>
      obtain ⟨effects, hctx, -⟩ := Run.run_singleton_eq_some.mp hrun
      exact absurd halone (Shared.step_release.mp hctx).1
  | count =>
      obtain ⟨hmain, -⟩ := Option.ite_none_right_eq_some.mp hnext
      simp [hmain, Main.status] at hfinish
  | setAsync =>
      obtain ⟨hmain, -⟩ := Option.ite_none_right_eq_some.mp hnext
      simp [hmain, Main.status] at hfinish

/-- **A request that is finished at once is finished.** Nobody else refers to the context when
`OnBeginRequest` decides for `RQ_NOTIFICATION_FINISH_REQUEST`. Nothing but its own return comes after, and
the response is not written to any more. -/
theorem finish_final (hrun : Run.run step (start found) events = some (outputs, s))
    (hfinish : s.main.status = some .rqFinishRequest) {more : List Event} {later : List (List Call)}
    (hmore : Run.run step s more = some (later, t)) :
    s.ctx.others = 0 ∧ (more = [] ∨ more = [.leave]) ∧ ∀ op, .response op ∉ later.flatten := by
  have hinv := inv_of_run hrun
  refine ⟨hinv.alone hfinish, ?_⟩
  cases more with
  | nil =>
      obtain ⟨rfl, -⟩ := Prod.mk.inj (Option.some.inj hmore)
      exact ⟨.inl rfl, fun _ => List.not_mem_nil⟩
  | cons event more =>
      obtain ⟨first, rest, s', hfirst, hrest, rfl⟩ := Run.run_cons_eq_some.mp hmore
      obtain ⟨rfl, hleft, -, hresponse⟩ := step_of_finish hinv hfinish hfirst
      cases more with
      | nil =>
          obtain ⟨rfl, -⟩ := Prod.mk.inj (Option.some.inj hrest)
          rw [List.flatten_singleton]
          exact ⟨.inr rfl, hresponse⟩
      | cons next more =>
          have hfinish' : s'.main.status = some .rqFinishRequest := by rw [hleft]; rfl
          obtain ⟨second, rest', s'', hsecond, -, -⟩ := Run.run_cons_eq_some.mp hrest
          obtain ⟨rfl, -⟩ := step_of_finish (hinv.step hfirst) hfinish' hsecond
          obtain ⟨status, hleaving, -⟩ := next_leave_eq_some.mp (step_eq_some.mp hsecond).1
          rw [hleft] at hleaving
          cases hleaving

theorem finish_final_handle : ∃ outputs s later t,
    Run.run step (start (.ok (some ()))) [.act .handle, .returns true, .count] = some (outputs, s) ∧
      Run.run step s [.leave] = some (later, t) ∧ later.flatten = [.setRequestHandled] ∧ s.ctx.others = 0 := by
  refine ⟨_, _, _, _, rfl, rfl, rfl, ?_⟩
  have hrun : Run.run step (start (.ok (some ()))) [.act .handle, .returns true, .count]
      = some ([[], [], []], ⟨.leaving (some .rqFinishRequest), ⟨true, 0, ⟨true, false⟩⟩⟩) := rfl
  have hmore : Run.run step ⟨.leaving (some .rqFinishRequest), ⟨true, 0, ⟨true, false⟩⟩⟩ [.leave]
      = some ([[.setRequestHandled]], ⟨.left (some .rqFinishRequest), ⟨false, 0, ⟨true, false⟩⟩⟩) := rfl
  exact (finish_final hrun rfl hmore).1

end Rikitiki.Iis7
