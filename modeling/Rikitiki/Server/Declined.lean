import Rikitiki.Server.StaticContent

/-!
# Handlers that return false

The value of `Handle` is meant to say whether the request has been handled. `Server::Handle` does not look at
it, only at the context, so a handler that returns false is passed over exactly if it has left the context
alone. `Handler::Handle` does not.
-/

namespace Rikitiki

section Declining

variable {ι ρ : Type} (objects : ι → HandlerObject ρ) (request : ρ)

/-- The loop of `Server::Handle` comes to a handler, with these handlers behind it, in this context. -/
inductive Reaches : List ι → ConnContext → ι → List ι → ConnContext → Prop
  | here {p : ι} {handlers : List ι} {ctx : ConnContext} : Reaches (p :: handlers) ctx p handlers ctx
  | later {p q : ι} {handlers later : List ι} {ctx ctx' ctx'' : ConnContext}
      (hturn : (objects p).turn request ctx = .goOn ctx') (hreaches : Reaches handlers ctx' q later ctx'') :
      Reaches (p :: handlers) ctx q later ctx''

/-- A handler that can handle the request returns false, after these actions. -/
def HandlerObject.Declines (object : HandlerObject ρ) (ctx : ConnContext) (actions : List Action) : Prop :=
  object.canHandle request = .ok true ∧ object.handle request ctx = (actions, .returns false)

/-- A handler that can handle the request returns true, or it throws. -/
def HandlerObject.Answers (object : HandlerObject ρ) (ctx : ConnContext) : Prop :=
  (∃ thrown, object.canHandle request = .error thrown) ∨
    object.canHandle request = .ok true ∧ (object.handle request ctx).2 ≠ .returns false

/-- **A handler that returns false has not handled the request**: the loop goes on behind it as if it were
absent, and what it has done to the response and to the flag is nothing. And the request is handled only if
some handler has returned true or thrown. -/
structure FalseMeansUnhandled (handlers : List ι) : Prop where
  absent : ∀ p later ctx actions, Reaches objects request handlers {} p later ctx →
    (objects p).Declines request ctx actions →
    Server.dispatch (Server.handlersOf objects) request (p :: later) ctx
      = ((p, ctx) :: (Server.dispatch (Server.handlersOf objects) request later ctx).1,
          (Server.dispatch (Server.handlersOf objects) request later ctx).2)
  unchanged : ∀ p later ctx actions, Reaches objects request handlers {} p later ctx →
    (objects p).Declines request ctx actions →
    (ctx.after actions).response.wire = ctx.response.wire ∧ (ctx.after actions).handled = ctx.handled
  answered : ∀ ctx, (Server.dispatch (Server.handlersOf objects) request handlers {}).2 = .returns true ctx →
    ∃ p later ctx, Reaches objects request handlers {} p later ctx ∧ (objects p).Answers request ctx

variable {objects request}

theorem turn_of_declines {object : HandlerObject ρ} {ctx : ConnContext} {actions : List Action}
    (h : object.Declines request ctx actions) : object.turn request ctx
      = if (ctx.after actions).handled then .ends (.returns true (ctx.after actions))
        else .goOn (ctx.after actions) := by
  rw [HandlerObject.turn, Handler.turn, Handler.attempt, show object.handler.canHandle request = .ok true from h.1]
  simp only [HandlerObject.handler, h.2]
  rfl

theorem head_visits (objects : ι → HandlerObject ρ) (request : ρ) (p : ι) (handlers : List ι)
    (ctx : ConnContext) :
    (Server.dispatch (Server.handlersOf objects) request (p :: handlers) ctx).1.head? = some (p, ctx) := by
  rw [Server.dispatch]
  split
  · rfl
  · rfl

theorem dispatch_injective {handlers : List ι} {ctx ctx' : ConnContext}
    (h : Server.dispatch (Server.handlersOf objects) request handlers ctx
      = Server.dispatch (Server.handlersOf objects) request handlers ctx') : ctx = ctx' := by
  cases handlers with
  | nil =>
      obtain ⟨-, hresult⟩ := Prod.mk.inj h
      exact (Result.returns.inj hresult).2
  | cons p handlers =>
      have hsame := head_visits objects request p handlers ctx
      rw [h, head_visits] at hsame
      exact (Prod.mk.inj (Option.some.inj hsame)).2.symm

theorem open_of_goOn {object : HandlerObject ρ} {ctx ctx' : ConnContext}
    (h : object.turn request ctx = .goOn ctx') : ctx'.handled = false := by
  rw [HandlerObject.turn, Handler.turn] at h
  generalize object.handler.attempt request ctx = attempt at h
  obtain ⟨actions, thrown⟩ := attempt
  cases thrown with
  | none =>
      simp only [ConnContext.conclude] at h
      split at h
      · cases h
      · rename_i hopen
        obtain rfl := Turn.goOn.inj h
        simpa using hopen
  | some thrown => cases thrown <;> cases h

theorem after_eq_of_absent {p : ι} {later : List ι} {ctx : ConnContext} {actions : List Action}
    (hdeclines : (objects p).Declines request ctx actions)
    (habsent : Server.dispatch (Server.handlersOf objects) request (p :: later) ctx
      = ((p, ctx) :: (Server.dispatch (Server.handlersOf objects) request later ctx).1,
          (Server.dispatch (Server.handlersOf objects) request later ctx).2)) : ctx.after actions = ctx := by
  cases hhandled : (ctx.after actions).handled with
  | true =>
      have hturn := turn_of_declines hdeclines
      rw [if_pos hhandled] at hturn
      rw [Server.dispatch_of_ends hturn] at habsent
      obtain ⟨hvisits, hresult⟩ := Prod.mk.inj habsent
      cases later with
      | nil => cases (Result.returns.inj hresult).1
      | cons q later =>
          have hhead := head_visits objects request q later ctx
          rw [← (List.cons.inj hvisits).2] at hhead
          cases hhead
  | false =>
      have hturn := turn_of_declines hdeclines
      rw [hhandled, if_neg Bool.false_ne_true] at hturn
      rw [Server.dispatch_of_goOn hturn] at habsent
      obtain ⟨hvisits, hresult⟩ := Prod.mk.inj habsent
      exact dispatch_injective (Prod.ext (List.cons.inj hvisits).2 hresult)

theorem turn_of_declines_of_after_eq {object : HandlerObject ρ} {ctx : ConnContext} {actions : List Action}
    (hdeclines : object.Declines request ctx actions) (hafter : ctx.after actions = ctx)
    (hopen : ctx.handled = false) : object.turn request ctx = .goOn ctx := by
  rw [turn_of_declines hdeclines, hafter, hopen]
  rfl

theorem handled_of_reaches {handlers later : List ι} {p : ι} {ctx ctx' : ConnContext}
    (h : Reaches objects request handlers ctx p later ctx') (hopen : ctx.handled = false) :
    ctx'.handled = false := by
  induction h with
  | here => exact hopen
  | later hturn hreaches ih => exact ih (open_of_goOn hturn)

theorem exists_answers {handlers : List ι} {ctx ctx' : ConnContext} (hopen : ctx.handled = false)
    (halone : ∀ p later ctx' actions, Reaches objects request handlers ctx p later ctx' →
      (objects p).Declines request ctx' actions → ctx'.after actions = ctx')
    (hresult : (Server.dispatch (Server.handlersOf objects) request handlers ctx).2 = .returns true ctx') :
    ∃ p later ctx', Reaches objects request handlers ctx p later ctx' ∧ (objects p).Answers request ctx' := by
  induction handlers generalizing ctx with
  | nil => cases hresult
  | cons p handlers ih =>
      by_cases hanswers : (objects p).Answers request ctx
      · exact ⟨p, handlers, ctx, .here, hanswers⟩
      · have hturn : (objects p).turn request ctx = .goOn ctx := by
          obtain ⟨htotal, hfalse⟩ := not_or.mp hanswers
          cases hcan : (objects p).canHandle request with
          | error thrown => exact absurd ⟨thrown, hcan⟩ htotal
          | ok can =>
              cases can with
              | false => exact turn_of_cannot hcan hopen
              | true =>
                  have hdeclines : (objects p).Declines request ctx ((objects p).handle request ctx).1 :=
                    ⟨hcan, Prod.ext rfl (not_not.mp fun hne => hfalse ⟨hcan, hne⟩)⟩
                  exact turn_of_declines_of_after_eq hdeclines (halone p handlers ctx _ .here hdeclines) hopen
        rw [Server.dispatch_of_goOn hturn] at hresult
        obtain ⟨q, later, ctx'', hreaches, hq⟩ := ih hopen
          (fun q later ctx'' actions hreaches => halone q later ctx'' actions (.later hturn hreaches)) hresult
        exact ⟨q, later, ctx'', .later hturn hreaches, hq⟩

/-- **When false means that the request has not been handled**: every handler that the loop comes to, and
that can handle the request and returns false, has done nothing to the context. -/
theorem falseMeansUnhandled_iff {handlers : List ι} : FalseMeansUnhandled objects request handlers ↔
    ∀ p later ctx actions, Reaches objects request handlers {} p later ctx →
      (objects p).Declines request ctx actions → ctx.after actions = ctx := by
  constructor
  · intro h p later ctx actions hreaches hdeclines
    exact after_eq_of_absent hdeclines (h.absent p later ctx actions hreaches hdeclines)
  · intro halone
    constructor
    · intro p later ctx actions hreaches hdeclines
      have hturn := turn_of_declines_of_after_eq hdeclines (halone p later ctx actions hreaches hdeclines)
        (handled_of_reaches hreaches rfl)
      rw [Server.dispatch_of_goOn hturn]
    · intro p later ctx actions hreaches hdeclines
      rw [halone p later ctx actions hreaches hdeclines]
      exact ⟨rfl, rfl⟩
    · intro ctx hresult
      exact exists_answers rfl halone hresult

/-- A handler that calls `Handler::Handle` never gets away with returning false. -/
theorem not_falseMeansUnhandled {handlers later : List ι} {p : ι} {ctx : ConnContext} {actions : List Action}
    (hreaches : Reaches objects request handlers {} p later ctx)
    (hdeclines : (objects p).Declines request ctx actions) (hbased : (objects p).Based) :
    ¬ FalseMeansUnhandled objects request handlers := by
  intro h
  have hafter := after_eq_of_absent hdeclines (h.absent p later ctx actions hreaches hdeclines)
  have hhandled := hbased.handled_after request ctx
  rw [hdeclines.2, hafter, handled_of_reaches hreaches rfl] at hhandled
  cases hhandled

end Declining

def noFiles : HandlerObject Request := StaticContentHandler.siteFiles.object fun _ => none

/-- A file that does not exist. -/
theorem not_forall_falseMeansUnhandled :
    ¬ ∀ (objects : Unit → HandlerObject Request) (request : Request) (handlers : List Unit),
      FalseMeansUnhandled objects request handlers := by
  intro h
  have hdeclines : noFiles.Declines ⟨.get, lit "/static/a", by decide⟩ {}
      [.handle, .streamRef (.field (.contentType .textHtml))] := ⟨by decide, by decide⟩
  have hbased : noFiles.Based := StaticContentHandler.based _ _
  have hreaches : Reaches (fun _ => noFiles) ⟨.get, lit "/static/a", by decide⟩ [()] {} () [] {} := .here
  exact not_falseMeansUnhandled hreaches hdeclines hbased (h _ _ _)

end Rikitiki
