import Rikitiki.Server.Handle

/-!
# Handlers that only write

A handler of one's own that does not call `Handler::Handle` takes care of the request by what it writes.
Only the context's own `operator<<` of a status, a cookie or a header marks it, so the output of a handler
that writes nothing else is neither the end of the dispatch nor closed. Payloads are strings here.
-/

namespace Rikitiki

/-- An output operation, by the `operator<<` it goes through. -/
inductive Output where
  /-- that of the context -/
  | own (op : Op)
  /-- that of a shared pointer to it -/
  | ref (op : Op)
  deriving DecidableEq, Repr

namespace Output

def op : Output → Op
  | .own op => op
  | .ref op => op.inserted

def action : Output → Action
  | .own op => .stream op
  | .ref op => .streamRef op.inserted

end Output

/-- What a fresh context is after some outputs. -/
def ConnContext.writing (outputs : List Output) : ConnContext :=
  ConnContext.after {} (outputs.map Output.action)

/-- The outputs take care of the request: the context is handled, whatever handler writes them ends the
dispatch, and the response is closed when the context is released. -/
structure TakeCare (outputs : List Output) : Prop where
  handled : (ConnContext.writing outputs).handled = true
  stops : ∀ (ρ : Type) (request : ρ) (before behind : List (Handler ρ)) (handler : Handler ρ),
    (∀ other ∈ before, other.attempt request {} = ([], none)) →
    handler.attempt request {} = (outputs.map Output.action, none) →
    Server.handle request (before ++ handler :: behind) {} = .returns true (ConnContext.writing outputs)
  closes : (ConnContext.writing outputs).clean
    = .returns () { handled := true, response := .closed (outputs.map Output.op) }

theorem writing_eq (outputs : List Output) :
    ConnContext.writing outputs =
      { handled := (outputs.map Output.action).any Action.marks
        response := (Machine.run OResponseWriter.step .fresh (outputs.map Output.op)).2 } := by
  have hopen : ∀ action ∈ outputs.map Output.action, action ≠ .close := by
    intro action haction
    obtain ⟨output, -, rfl⟩ := List.mem_map.mp haction
    cases output <;> simp [Output.action]
  have hops : opsOf (outputs.map Output.action) = outputs.map Output.op := by
    rw [opsOf, List.filterMap_map, ← List.filterMap_eq_map]
    apply congrArg (List.filterMap · outputs)
    funext output
    cases output <;> rfl
  rw [ConnContext.writing, ConnContext.after, ConnContext.run_eq hopen, hops, Bool.false_or]

theorem handle_of_passed_over {ρ : Type} {request : ρ} {before handlers : List (Handler ρ)}
    {ctx : ConnContext} (hopen : ctx.handled = false)
    (hbefore : ∀ other ∈ before, other.attempt request ctx = ([], none)) :
    Server.handle request (before ++ handlers) ctx = Server.handle request handlers ctx := by
  induction before with
  | nil => rfl
  | cons other before ih =>
      rw [List.cons_append, handle_cons_of_open (hbefore other (by simp)) hopen]
      exact ih fun later hlater => hbefore later (by simp [hlater])

theorem any_marks_iff (outputs : List Output) : (outputs.map Output.action).any Action.marks = true
    ↔ ∃ op, .own op ∈ outputs ∧ op.marks = true := by
  rw [List.any_map, List.any_eq_true]
  constructor
  · rintro ⟨output, houtput, hmarks⟩
    cases output with
    | own op => exact ⟨op, houtput, hmarks⟩
    | ref op => cases hmarks
  · rintro ⟨op, hop, hmarks⟩
    exact ⟨.own op, hop, hmarks⟩

/-- **A handler's output takes care of the request exactly when it holds a status, a cookie or a header
that went through the context's own `operator<<`.** -/
theorem takeCare_iff (outputs : List Output) :
    TakeCare outputs ↔ ∃ op, .own op ∈ outputs ∧ op.marks = true := by
  have hwriting := writing_eq outputs
  rw [← any_marks_iff]
  constructor
  · intro h
    rw [← h.handled, hwriting]
  · intro hany
    have hhandled : (ConnContext.writing outputs).handled = true := by rw [hwriting, hany]
    refine ⟨hhandled, ?_, ?_⟩
    · intro ρ request before behind handler hbefore hattempt
      rw [handle_of_passed_over rfl hbefore]
      exact handle_cons_of_handled hattempt hhandled
    · rw [ConnContext.clean_of_handled hhandled (congrArg ConnContext.response hwriting), hhandled]

theorem not_takeCare_payload :
    [Output.own (.payload (lit "hi"))] ≠ [] ∧ ¬ TakeCare [.own (.payload (lit "hi"))] := by
  refine ⟨by simp, ?_⟩
  intro h
  exact absurd h.handled (by decide)

end Rikitiki
