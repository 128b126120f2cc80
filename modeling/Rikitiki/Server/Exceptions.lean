import Rikitiki.Server.Handle

/-!
# Responses to exceptions

A `HandlerException` is meant to decide the response to a request. It sets the status of a response
whose status line may have been sent, in a context that nobody may have marked as handled.
-/

namespace Rikitiki

def Action.isHead : Action → Bool
  | .stream op => !op.isPayload
  | .streamRef op => !op.isPayload
  | .handle => true
  | .close => false

/-- **The exception decides the response**: the request is taken care of, and what is sent when the last
reference to the context is released has the status, the headers written before, and no body. -/
def Decides {ρ : Type} (request : ρ) (handlers : List (Handler ρ)) (actions : List Action)
    (status : HttpStatus) : Prop :=
  ∃ ctx closed, Server.handle request handlers {} = .returns true ctx ∧ ctx.handled = true ∧
    ctx.clean = .returns () closed ∧ closed.response.wire = render status (fieldsOf (opsOf actions)) []

section Heads

variable {actions : List Action}

theorem ne_close_of_isHead (hhead : ∀ action ∈ actions, action.isHead = true) :
    ∀ action ∈ actions, action ≠ .close := by
  rintro action haction rfl
  cases hhead _ haction

theorem isPayload_of_mem_opsOf (hhead : ∀ action ∈ actions, action.isHead = true) {op : Op}
    (hop : op ∈ opsOf actions) : op.isPayload = false := by
  obtain ⟨action, haction, hop⟩ := List.mem_filterMap.mp hop
  have hhead := hhead action haction
  cases action with
  | stream o =>
      obtain rfl := Option.some.inj hop
      simpa [Action.isHead] using hhead
  | streamRef o =>
      obtain rfl := Option.some.inj hop
      simpa [Action.isHead] using hhead
  | handle => cases hop
  | close => cases hop

end Heads

theorem payloadOf_eq_nil {ops : List Op} (h : ∀ op ∈ ops, op.isPayload = false) : payloadOf ops = [] := by
  rw [payloadOf, List.flatMap_eq_nil_iff]
  intro op hop
  have hop := h op hop
  cases op with
  | status s => rfl
  | field f => rfl
  | payload data => cases hop

theorem fieldsFirst_of_no_payload {ops : List Op} (h : ∀ op ∈ ops, op.isPayload = false) :
    FieldsFirst ops := by
  refine List.pairwise_of_forall_mem_list fun earlier hearlier _ _ hpayload => ?_
  rw [h earlier hearlier] at hpayload
  cases hpayload

theorem statusInEffect_append_status {ops : List Op} (h : ∀ op ∈ ops, op.isPayload = false)
    (initial status : HttpStatus) :
    statusInEffect initial (ops ++ [.status status]) =
      if ∀ op ∈ ops, op.toHeader? = none then status else statusInEffect initial ops := by
  induction ops generalizing initial with
  | nil => simp [statusInEffect]
  | cons op ops ih =>
      cases op with
      | status s =>
          have hnone : (∀ op ∈ Op.status s :: ops, op.toHeader? = none) ↔ ∀ op ∈ ops, op.toHeader? = none := by
            rw [List.forall_mem_cons]
            exact ⟨fun h => h.2, fun h => ⟨rfl, h⟩⟩
          rw [List.cons_append, statusInEffect, ih fun op hop => h op (by simp [hop])]
          simp only [hnone, statusInEffect]
      | field f => simp [statusInEffect, Op.toHeader?]
      | payload data => cases h (.payload data) (by simp)

theorem fieldsOf_append_status (ops : List Op) (status : HttpStatus) :
    fieldsOf (ops ++ [.status status]) = fieldsOf ops := by
  rw [fieldsOf, List.filterMap_append]
  exact List.append_nil _

section Caught

variable {actions : List Action} (hhead : ∀ action ∈ actions, action.isHead = true) (s : HttpStatus)
include hhead

theorem after_caught : ConnContext.after {} (actions ++ [.streamRef (.status s)])
    = { handled := actions.any Action.marks
        response := (Machine.run OResponseWriter.step .fresh (opsOf actions ++ [.status s])).2 } := by
  have hopen : ∀ action ∈ actions ++ [.streamRef (.status s)], action ≠ .close := by
    intro action haction
    rcases List.mem_append.mp haction with haction | haction
    · exact ne_close_of_isHead hhead action haction
    · rw [List.mem_singleton.mp haction]
      exact nofun
  have hops : opsOf (actions ++ [.streamRef (.status s)]) = opsOf actions ++ [.status s] := by
    rw [opsOf, List.filterMap_append]
    rfl
  rw [ConnContext.after, ConnContext.run_eq hopen, hops, List.any_append, Bool.false_or]
  simp [Action.marks]

theorem wire_caught : (OResponseWriter.closed (opsOf actions ++ [.status s])).wire
    = render (if ∀ op ∈ opsOf actions, op.toHeader? = none then s else statusInEffect .ok (opsOf actions))
        (fieldsOf (opsOf actions)) [] := by
  have hactions : ∀ op ∈ opsOf actions, op.isPayload = false := fun _ hop => isPayload_of_mem_opsOf hhead hop
  have hops : ∀ op ∈ opsOf actions ++ [.status s], op.isPayload = false := by
    intro op hop
    rcases List.mem_append.mp hop with hop | hop
    · exact hactions op hop
    · rw [List.mem_singleton.mp hop]
      rfl
  rw [OResponseWriter.closed_wire, statusInEffect_append_status hactions,
    acceptedFields_of_fieldsFirst (fieldsFirst_of_no_payload hops), payloadOf_eq_nil hops,
    fieldsOf_append_status]

end Caught

/-- **When an exception decides the response** that is thrown after writing headers and statuses: some
action has marked the context as handled, and if a header has been written, the status in effect at the
first one was that of the exception. -/
theorem decides_iff {ρ : Type} {request : ρ} {handlers : List (Handler ρ)} {actions : List Action}
    {status : Option HttpStatus} (hthrows : Throws request handlers {} actions status)
    (hhead : ∀ action ∈ actions, action.isHead = true) :
    Decides request handlers actions (status.getD .internalServerError) ↔
      (∃ action ∈ actions, action.marks = true) ∧
        ((∀ op ∈ opsOf actions, op.toHeader? = none) ∨
          statusInEffect .ok (opsOf actions) = status.getD .internalServerError) := by
  have hhandle := handle_of_throws hthrows
  generalize status.getD .internalServerError = s at hhandle ⊢
  rw [after_caught hhead] at hhandle
  rw [or_iff_not_imp_left, ← ite_eq_left_iff, ← List.any_eq_true]
  constructor
  · rintro ⟨ctx, closed, hctx, hhandled, hclosed, hsent⟩
    rw [hhandle] at hctx
    obtain ⟨-, rfl⟩ := Result.returns.inj hctx
    rw [ConnContext.clean_of_handled hhandled rfl] at hclosed
    obtain ⟨-, rfl⟩ := Result.returns.inj hclosed
    exact ⟨hhandled, render_inj_status.mp ((wire_caught hhead s).symm.trans hsent)⟩
  · rintro ⟨hhandled, hsent⟩
    refine ⟨_, _, hhandle, hhandled, ConnContext.clean_of_handled hhandled rfl, ?_⟩
    exact (wire_caught hhead s).trans (congrArg (render · _ _) hsent)

def careful : List Action :=
  [.streamRef (.status .notAcceptable), .streamRef (.field (.header ⟨lit "A", lit "a"⟩))]

theorem decides_careful :
    Decides () [route fun _ _ => (careful, some (.handlerException (some .notAcceptable)))]
      (.handle :: careful) .notAcceptable := by
  have hthrows : Throws () [route fun _ _ => (careful, some (.handlerException (some .notAcceptable)))] {}
      (.handle :: careful) (some .notAcceptable) := .here rfl
  exact (decides_iff hthrows (by decide)).mpr ⟨⟨.handle, by decide, rfl⟩, .inr rfl⟩

/-- **`type_conversion_error` never decides the response**: its `Accept` header goes out under the status
that is in effect before its exception is caught. -/
theorem sent_of_typeConversionError (types : List ContentType) :
    ∃ ctx closed, Server.handle () [route fun _ _ => typeConversionError types] {} = .returns true ctx ∧
      ctx.clean = .returns () closed ∧
      closed.response.wire = render .ok [⟨lit "Accept", acceptText types⟩] [] := by
  have hhead : ∀ action ∈ .handle :: (typeConversionError types).1, action.isHead = true := by
    intro action haction
    simp only [typeConversionError, List.mem_cons, List.not_mem_nil, or_false] at haction
    rcases haction with rfl | rfl
    · rfl
    · rfl
  have hthrows : Throws () [route fun _ _ => typeConversionError types] {}
      (.handle :: (typeConversionError types).1) (some .notAcceptable) := .here rfl
  have hhandle := handle_of_throws hthrows
  rw [after_caught hhead] at hhandle
  refine ⟨_, _, hhandle, ConnContext.clean_of_handled rfl rfl, ?_⟩
  rw [wire_caught hhead, if_neg]
  · rfl
  · intro hnone
    cases hnone (.field (.header ⟨lit "Accept", acceptText types⟩)) (List.mem_singleton.mpr rfl)

theorem not_decides_typeConversionError :
    ¬ ∀ (handlers : List (Handler Unit)) (actions : List Action) (status : Option HttpStatus),
      Throws () handlers {} actions status → (∀ action ∈ actions, action.isHead = true) →
      Decides () handlers actions (status.getD .internalServerError) := by
  intro h
  obtain ⟨ctx, closed, hctx, -, hclean, hsent⟩ :=
    h [route fun _ _ => typeConversionError [.applicationJson]] _ _ (.here rfl) (by decide)
  have hwire :
      (Server.handle () [route fun _ _ => typeConversionError [.applicationJson]] {}).state.clean.state.response.wire
        = render .notAcceptable [⟨lit "Accept", lit "application/json"⟩] [] := by
    rw [hctx, Result.state_returns, hclean]
    exact hsent
  exact absurd hwire (by decide)

end Rikitiki
