import Rikitiki.Server.CefSteps

/-!
# The head of a response in an embedded browser

CEF gets a head when it asks for it, of all that has been written until then. It is told that it may ask by
the first write to the body, or by `ProcessRequest` if nobody has kept the context.
-/

namespace Rikitiki.Cef

open ResourceHandler (step start)

variable {s t : ResourceHandler} {event : Event} {events : List Event} {effects : List Effect}
  {outputs : List (List Effect)}

theorem memory_run (hs : Sound s) (hrun : Run.run step s events = some (outputs, t)) :
    t.response.status = lastStatus s.response.status (written events) ∧
      t.response.headers = (written events).foldl OResponseMemory.store s.response.headers := by
  induction events generalizing s outputs with
  | nil =>
      obtain ⟨-, rfl⟩ := Prod.mk.inj (Option.some.inj hrun)
      exact ⟨rfl, rfl⟩
  | cons event events ih =>
      obtain ⟨first, rest, s', hfirst, hrest, -⟩ := Run.run_cons_eq_some.mp hrun
      have hmoved := step_moved hs.tuned hfirst
      obtain ⟨hstatus, hheaders⟩ := ih (hs.of_step hfirst) hrest
      rw [written_cons, hstatus, hheaders, hmoved.status, hmoved.headers, lastStatus_append, List.foldl_append]
      exact ⟨rfl, rfl⟩

theorem get_foldl_store_of_ne {name : Str} (hcontent : lit "Content-Type" ≠ name) {ops : List Op}
    (hne : ∀ op ∈ ops, ∀ header ∈ op.toHeader?, header.name ≠ name) (headers : HeaderCollection) :
    (ops.foldl OResponseMemory.store headers).get name = headers.get name := by
  induction ops generalizing headers with
  | nil => rfl
  | cons op ops ih =>
      obtain ⟨hop, hops⟩ := List.forall_mem_cons.mp hne
      rw [List.foldl_cons, ih hops]
      have hadded : (headers.addAll op.toHeader?.toList).get name = headers.get name :=
        HeaderCollection.get_addAll_of_ne fun field hfield => hop field (Option.mem_toList.mp hfield)
      cases op with
      | status status => exact hadded
      | payload data => exact hadded
      | field field =>
          cases field with
          | header header => exact hadded
          | cookie cookie => exact hadded
          | contentType type =>
              rw [OResponseMemory.store, HeaderCollection.set, HeaderCollection.get_insert,
                if_neg (by exact hcontent)]

/-- **The head CEF gets** has the last status and all the fields that were written before it asks, whether
the body had been begun or not, and the length that those fields give. The type is that of a page, whatever
content type was written, unless somebody wrote a field `contenttype`. -/
theorem head_run (hrun : Run.run step start events = some (outputs, s))
    (hstep : step s .getResponseHeaders = some (effects, t)) :
    ∃ head headers, effects = [.head head] ∧ headers = (written events).foldl OResponseMemory.store ∅ ∧
      (⟨head.status, head.statusText⟩ : HttpStatus) = lastStatus .ok (written events) ∧
      head.headerMap = headers.fields ∧ head.responseLength = .ofNat (contentLength headers) ∧
      ((∀ op ∈ written events, ∀ header ∈ op.toHeader?, header.name ≠ lit "contenttype") →
        head.mimeType = lit "text/html") := by
  obtain ⟨-, heffects⟩ := step_use rfl hstep
  obtain ⟨hstatus, hheaders⟩ := memory_run sound_start hrun
  refine ⟨s.ctx.object.getResponseHeaders, s.response.headers, heffects, hheaders, hstatus, rfl, rfl, ?_⟩
  intro hne
  have hnone : s.response.headers.get (lit "contenttype") = none := by
    rw [hheaders, get_foldl_store_of_ne (by decide) hne]
    rfl
  change (contentType s.response.headers).toString = lit "text/html"
  rw [contentType, hnone]
  rfl

/-- The status of a response is changed when its body has been begun. -/
def lateStatus : List Event :=
  [.act (.stream (.field (.contentType .textPlain))), .act (.stream (.payload [104])), .append, .wake, .retain,
    .returns, .count, .act (.streamRef (.status .notAcceptable))]

theorem head_run_lateStatus : ∃ outputs s effects t, Run.run step start lateStatus = some (outputs, s) ∧
    step s .getResponseHeaders = some (effects, t) ∧
    ∃ head headers, effects = [.head head] ∧ headers = (written lateStatus).foldl OResponseMemory.store ∅ ∧
      (⟨head.status, head.statusText⟩ : HttpStatus) = .notAcceptable ∧
      head.headerMap = headers.fields ∧ head.responseLength = .ofNat (contentLength headers) ∧
      head.mimeType = lit "text/html" := by
  obtain ⟨outputs, s, effects, t, hrun, hstep⟩ : ∃ outputs s effects t,
      Run.run step start lateStatus = some (outputs, s) ∧ step s .getResponseHeaders = some (effects, t) :=
    ⟨_, _, _, _, rfl, rfl⟩
  obtain ⟨head, headers, heffects, hheaders, hstatus, hmap, hlength, htype⟩ := head_run hrun hstep
  refine ⟨outputs, s, effects, t, hrun, hstep, head, headers, heffects, hheaders, hstatus, hmap, hlength, ?_⟩
  exact htype (by decide)

/-! ### The callback for the head -/

/-- In the course of the events `ProcessRequest` finds that nobody else refers to the context. -/
def CountsAlone (s : ResourceHandler) (events : List Event) : Prop :=
  ∃ front back outputs s', events = front ++ .count :: back ∧
    Run.run step s front = some (outputs, s') ∧ s'.ctx.others = 0

theorem countsAlone_cons {s' : ResourceHandler} (hstep : step s event = some (effects, s')) :
    CountsAlone s (event :: events) ↔ (event = .count ∧ s.ctx.others = 0) ∨ CountsAlone s' events := by
  constructor
  · intro h
    obtain ⟨front, back, outputs, last, hsplit, hrun, halone⟩ := h
    cases front with
    | nil =>
        obtain ⟨rfl, -⟩ := List.cons.inj hsplit
        obtain ⟨-, rfl⟩ := Prod.mk.inj (Option.some.inj hrun)
        exact .inl ⟨rfl, halone⟩
    | cons first front =>
        obtain ⟨rfl, htail⟩ := List.cons.inj hsplit
        obtain ⟨output, rest, s'', hfirst, hrest, -⟩ := Run.run_cons_eq_some.mp hrun
        obtain ⟨-, rfl⟩ := Prod.mk.inj (Option.some.inj (hstep.symm.trans hfirst))
        exact .inr ⟨front, back, rest, last, htail, hrest, halone⟩
  · intro h
    rcases h with ⟨rfl, halone⟩ | ⟨front, back, outputs, last, rfl, hrun, halone⟩
    · exact ⟨[], events, [], s, rfl, rfl, halone⟩
    · exact ⟨event :: front, back, effects :: outputs, last, rfl,
        Run.run_cons_eq_some.mpr ⟨effects, outputs, s', hstep, hrun, rfl⟩, halone⟩

theorem continues_headers_iff (hs : Sound s) (hrun : Run.run step s events = some (outputs, t)) :
    .continues .headersReady ∈ outputs.flatten ↔
      s.response.headersReady = true ∧ ((written events).any Op.isPayload = true ∨ CountsAlone s events) := by
  induction events generalizing s outputs with
  | nil =>
      obtain ⟨rfl, -⟩ := Prod.mk.inj (Option.some.inj hrun)
      simp [CountsAlone, written, opsOf]
  | cons event events ih =>
      obtain ⟨first, rest, s', hfirst, hrest, rfl⟩ := Run.run_cons_eq_some.mp hrun
      have hmoved := step_moved hs.tuned hfirst
      have hnow : .continues .headersReady ∈ first ↔ s.response.headersReady = true ∧
          (event.ops.any Op.isPayload = true ∨ (event = .count ∧ s.ctx.others = 0)) := by
        rw [← List.count_pos_iff, hmoved.continues_headers, Nat.pos_iff_ne_zero, ne_eq, Bool.toNat_eq_zero,
          Bool.not_eq_false]
        simp [hs.useCount_eq_one_iff]
      rw [List.flatten_cons, List.mem_append, ih (hs.of_step hfirst) hrest, hnow, hmoved.headersReady,
        countsAlone_cons hfirst, written_cons, List.any_append]
      simp only [Bool.and_eq_true, Bool.or_eq_true, Bool.not_eq_true']
      cases event.ops.any Op.isPayload
      · tauto
      · tauto

/-- `ProcessRequest` is over. -/
def Main.Returned : Main → Prop
  | .handling | .counting => False
  | .done | .reading _ | .setting _ | .answering _ => True

theorem returned_step (hmain : s.main.Returned) (hstep : step s event = some (effects, t)) : t.main.Returned := by
  obtain ⟨hnext, -, -⟩ := step_eq_some.mp hstep
  have hto : ∀ {main : Main}, main.Returned → some main = some t.main → t.main.Returned :=
    fun h heq => Option.some.inj heq ▸ h
  cases event with
  | act action => exact hto hmain hnext
  | append => exact hto hmain hnext
  | wake => exact hto hmain hnext
  | forget => exact hto hmain hnext
  | retain => exact hto hmain hnext
  | release => exact hto hmain (Option.ite_none_left_eq_some.mp hnext).2
  | returns =>
      rw [(Option.ite_none_right_eq_some.mp hnext).1] at hmain
      cases hmain
  | count =>
      rw [(Option.ite_none_right_eq_some.mp hnext).1] at hmain
      cases hmain
  | getResponseHeaders => exact hto (by exact trivial) (Option.ite_none_right_eq_some.mp hnext).2
  | read bytesToRead => exact hto (by exact trivial) (Option.ite_none_right_eq_some.mp hnext).2
  | clear =>
      rw [ResourceHandler.nextMain] at hnext
      split at hnext
      · exact hto (by exact trivial) hnext
      · cases hnext
  | setCallback =>
      rw [ResourceHandler.nextMain] at hnext
      split at hnext
      · exact hto (by exact trivial) hnext
      · cases hnext
  | answer =>
      rw [ResourceHandler.nextMain] at hnext
      split at hnext
      · exact hto (by exact trivial) hnext
      · cases hnext

theorem count_notMem_of_returned (hmain : s.main.Returned) (hrun : Run.run step s events = some (outputs, t)) :
    .count ∉ events := by
  induction events generalizing s outputs with
  | nil => exact List.not_mem_nil
  | cons event events ih =>
      obtain ⟨first, rest, s', hfirst, hrest, -⟩ := Run.run_cons_eq_some.mp hrun
      refine List.not_mem_cons_of_ne_of_not_mem ?_ (ih (returned_step hmain hfirst) hrest)
      rintro rfl
      obtain ⟨hnext, -, -⟩ := step_eq_some.mp hfirst
      rw [(Option.ite_none_right_eq_some.mp hnext).1] at hmain
      cases hmain

theorem count_headers_le (hs : Sound s) (hrun : Run.run step s events = some (outputs, t)) :
    outputs.flatten.count (.continues .headersReady) ≤ 1 := by
  induction events generalizing s outputs with
  | nil =>
      obtain ⟨rfl, -⟩ := Prod.mk.inj (Option.some.inj hrun)
      exact Nat.zero_le _
  | cons event events ih =>
      obtain ⟨first, rest, s', hfirst, hrest, rfl⟩ := Run.run_cons_eq_some.mp hrun
      have hmoved := step_moved hs.tuned hfirst
      rw [List.flatten_cons, List.count_append, hmoved.continues_headers]
      by_cases hwrites : event.ops.any Op.isPayload = true
      · have hlater : .continues .headersReady ∉ rest.flatten := by
          rw [continues_headers_iff (hs.of_step hfirst) hrest, hmoved.headersReady, hwrites]
          simp
        rw [List.count_eq_zero_of_not_mem hlater]
        exact Bool.toNat_le _
      · by_cases hcounts : event = .count ∧ s.ctx.others = 0
        · obtain ⟨rfl, halone⟩ := hcounts
          obtain ⟨hnext, -, hctx⟩ := step_eq_some.mp hfirst
          have halone' := (Shared.step_alone halone hctx).2
          have hmain : s'.main = .done := (Option.some.inj (Option.ite_none_right_eq_some.mp hnext).2).symm
          have hreturned : s'.main.Returned := hmain ▸ trivial
          have hlater : .continues .headersReady ∉ rest.flatten := by
            rw [continues_headers_iff (hs.of_step hfirst) hrest, written_of_owners (owners_of_alone halone' hrest).1]
            intro h
            rcases h.2 with hnone | ⟨front, back, -, -, hsplit, -⟩
            · cases hnone
            · exact count_notMem_of_returned hreturned hrest (by simp [hsplit])
          rw [List.count_eq_zero_of_not_mem hlater]
          exact Bool.toNat_le _
        · have hnone : (s.response.headersReady &&
              (event.ops.any Op.isPayload || (event = .count && s.ctx.useCount = 1))).toNat = 0 := by
            simpa [Bool.eq_false_iff.mpr hwrites, hs.useCount_eq_one_iff] using fun _ heq h => hcounts ⟨heq, h⟩
          rw [hnone, Nat.zero_add]
          exact ih (hs.of_step hfirst) hrest

/-- **CEF is told at most once that the head is ready**: exactly if somebody writes to the body, or if nobody
else refers to the context when the handler has returned. A handler that keeps the context without ever
writing to the body leaves CEF waiting. -/
theorem headers_once (hrun : Run.run step start events = some (outputs, t)) :
    outputs.flatten.count (.continues .headersReady) ≤ 1 ∧
      (.continues .headersReady ∈ outputs.flatten ↔
        (written events).any Op.isPayload = true ∨ CountsAlone start events) := by
  refine ⟨count_headers_le sound_start hrun, ?_⟩
  rw [continues_headers_iff sound_start hrun]
  exact and_iff_right rfl

def keptAndDropped : List Event := [.act .handle, .retain, .returns, .count, .release]

theorem headers_once_keptAndDropped : ∃ t,
    Run.run step start keptAndDropped = some ([[], [], [], [], []], t) ∧
      ¬ ((written keptAndDropped).any Op.isPayload = true ∨ CountsAlone start keptAndDropped) := by
  obtain ⟨t, hrun⟩ : ∃ t, Run.run step start keptAndDropped = some ([[], [], [], [], []], t) := ⟨_, rfl⟩
  have hnever : Effect.continues .headersReady ∉ ([[], [], [], [], []] : List (List Effect)).flatten := by decide
  exact ⟨t, hrun, fun h => hnever ((headers_once hrun).2.mpr h)⟩

end Rikitiki.Cef
