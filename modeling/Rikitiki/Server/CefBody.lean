import Rikitiki.Server.CefSteps

/-!
# The body of a response in an embedded browser

The bytes of a write go to CEF unless they come to a body that has failed and is not yet cleared. They do so
in the order of the writes, and the last reading has them if they were there when it read. A callback is lost
if it is set where a write has continued the one before and has still to forget it.
-/

namespace Rikitiki.Cef

open ResourceHandler (step start)

variable {s t u : ResourceHandler} {event : Event} {events : List Event} {effects : List Effect}
  {outputs : List (List Effect)}

/-! ### What is written and what is read -/

/-- No write brings bytes to a body that has failed. -/
def Kept (s : ResourceHandler) (events : List Event) : Prop :=
  ∀ front back outputs s', events = front ++ .append :: back → Run.run step s front = some (outputs, s') →
    s'.response.failed = true → s'.writer.data = []

theorem kept_nil (s : ResourceHandler) : Kept s [] := by
  intro front back outputs s' hsplit
  simp at hsplit

theorem kept_cons (hstep : step s event = some (effects, t)) : Kept s (event :: events) ↔
    (event = .append → s.response.failed = true → s.writer.data = []) ∧ Kept t events := by
  constructor
  · intro h
    refine ⟨?_, ?_⟩
    · rintro rfl
      exact h [] events [] s rfl rfl
    · intro front back outputs s' hsplit hrun
      exact h (event :: front) back (effects :: outputs) s' (by rw [hsplit, List.cons_append])
        (Run.run_cons_eq_some.mpr ⟨effects, outputs, t, hstep, hrun, rfl⟩)
  · intro h front back outputs s' hsplit hrun
    obtain ⟨hnow, hlater⟩ := h
    cases front with
    | nil =>
        obtain ⟨hevent, -⟩ := List.cons.inj hsplit
        obtain ⟨-, rfl⟩ := Prod.mk.inj (Option.some.inj hrun)
        exact hnow hevent
    | cons first front =>
        obtain ⟨rfl, htail⟩ := List.cons.inj hsplit
        obtain ⟨output, rest, s'', hfirst, hrest, -⟩ := Run.run_cons_eq_some.mp hrun
        obtain ⟨-, rfl⟩ := Prod.mk.inj (Option.some.inj (hstep.symm.trans hfirst))
        exact hlater front back rest s' htail hrest

/-- The body has taken some bytes while `payload` was written and CEF was given `data`. -/
structure Took (s t : ResourceHandler) (payload data taken : Str) (kept : Prop) : Prop where
  body : t.response.body = s.response.body ++ taken
  given : data ++ t.main.data ++ t.response.unread = s.main.data ++ s.response.unread ++ taken
  whole : kept → taken ++ t.writer.data = s.writer.data ++ payload
  cut : ¬ kept → (taken ++ t.writer.data).length < (s.writer.data ++ payload).length

namespace Took

variable {payload more data given taken others : Str} {kept later : Prop}

theorem length_le (h : Took s t payload data taken kept) :
    (taken ++ t.writer.data).length ≤ (s.writer.data ++ payload).length := by
  by_cases hkept : kept
  · exact Nat.le_of_eq (congrArg List.length (h.whole hkept))
  · exact Nat.le_of_lt (h.cut hkept)

theorem trans (h : Took s t payload data taken kept) (h' : Took t u more given others later) :
    Took s u (payload ++ more) (data ++ given) (taken ++ others) (kept ∧ later) where
  body := by rw [h'.body, h.body, List.append_assoc]
  given := by
    have hfirst := h.given
    have hsecond := h'.given
    calc data ++ given ++ u.main.data ++ u.response.unread
        = data ++ (given ++ u.main.data ++ u.response.unread) := by simp only [List.append_assoc]
      _ = (data ++ t.main.data ++ t.response.unread) ++ others := by
          rw [hsecond]
          simp only [List.append_assoc]
      _ = s.main.data ++ s.response.unread ++ (taken ++ others) := by
          rw [hfirst, List.append_assoc _ taken others]
  whole hboth := by
    calc taken ++ others ++ u.writer.data = taken ++ (t.writer.data ++ more) := by
          rw [List.append_assoc, h'.whole hboth.2]
      _ = s.writer.data ++ (payload ++ more) := by
          rw [← List.append_assoc, h.whole hboth.1, List.append_assoc]
  cut hnot := by
    have hle := h.length_le
    have hle' := h'.length_le
    have hlt : ¬ kept → _ := h.cut
    have hlt' : ¬ later → _ := h'.cut
    simp only [List.length_append] at *
    rcases not_and_or.mp hnot with hnone | hnone
    · have := hlt hnone
      omega
    · have := hlt' hnone
      omega

/-- What has been taken is all that was to be written, with `more` behind it. -/
theorem eq_append_iff (h : Took s t payload data taken kept) (hidle : s.writer.data = []) (more : Str) :
    taken = payload ++ more ↔ kept ∧ t.writer.data = [] ∧ more = [] := by
  constructor
  · intro heq
    have hlength := congrArg List.length heq
    have hle := h.length_le
    rw [hidle, List.nil_append, List.length_append] at hle
    rw [List.length_append] at hlength
    refine ⟨?_, List.length_eq_zero_iff.mp (by omega), List.length_eq_zero_iff.mp (by omega)⟩
    by_contra hkept
    have hlt := h.cut hkept
    rw [hidle, List.nil_append, List.length_append] at hlt
    omega
  · rintro ⟨hkept, hwriting, rfl⟩
    have hwhole := h.whole hkept
    rw [hwriting, hidle, List.append_nil, List.nil_append] at hwhole
    rw [hwhole, List.append_nil]

end Took

theorem took_still {kept : Prop} (hkept : kept) (hops : payloadOf event.ops = [])
    (hbody : t.response.body = s.response.body) (hunread : t.response.unread = s.response.unread)
    (hdata : delivered effects = []) (hmain : t.main.data = s.main.data) (hwriter : t.writer.data = s.writer.data) :
    Took s t (payloadOf event.ops) (delivered effects) [] kept where
  body := by rw [hbody, List.append_nil]
  given := by rw [hdata, hmain, hunread, List.nil_append, List.append_nil]
  whole _ := by rw [hops, hwriter, List.nil_append, List.append_nil]
  cut hnot := absurd hkept hnot

theorem took_act (hs : s.response.Tuned) {action : Action} (hstep : step s (.act action) = some (effects, t)) :
    Took s t (payloadOf (Event.act action).ops) (delivered effects) [] True := by
  obtain ⟨hmain, hwriter, -⟩ := step_eq_some.mp hstep
  obtain ⟨hobject, rfl⟩ := step_use rfl hstep
  have hresponse : t.response = (s.ctx.object.act action).2.response := congrArg ConnContext.response hobject
  have hsame : t.main.data = s.main.data := congrArg Main.data (Option.some.inj hmain).symm
  rw [ResourceHandler.nextWriter] at hwriter
  rw [ConnContext.use]
  cases hop : action.op? with
  | none =>
      have hops : payloadOf (Event.act action).ops = [] := by rw [Event.ops_act, hop]; rfl
      obtain ⟨hnone, hkept⟩ := ConnContext.act_of_none hop s.ctx.object
      have hrest : t.response = s.response := hresponse.trans hkept
      rw [hop] at hwriter
      have hwriting : t.writer.data = s.writer.data := congrArg Writer.data (Option.some.inj hwriter).symm
      rw [hnone]
      exact took_still trivial hops (by rw [hrest]) (by rw [hrest]) rfl hsame hwriting
  | some op =>
      obtain ⟨hcallbacks, hresult⟩ := ConnContext.act_of_op hop s.ctx.object
      have hstreamed := hs.streamed op
      rw [ResourceHandler.response, ← hresult, ← hresponse] at hstreamed
      have hgiven : delivered (s.ctx.object.act action).1 = [] := by rw [hcallbacks, delivered_continues]
      rw [hop, Option.bind_some, hs.begun] at hwriter
      cases hpayload : op.isPayload with
      | false =>
          rw [hpayload] at hwriter
          have hwriting : t.writer.data = s.writer.data := congrArg Writer.data (Option.some.inj hwriter).symm
          have hops : payloadOf (Event.act action).ops = [] := by
            rw [Event.ops_act, hop]
            cases op with
            | payload data => cases hpayload
            | status status => rfl
            | field field => rfl
          exact took_still trivial hops hstreamed.body hstreamed.unread hgiven hsame hwriting
      | true =>
          rw [hpayload] at hwriter
          obtain ⟨hidle, hopened⟩ := Option.ite_none_right_eq_some.mp hwriter
          have hwriting : t.writer.data = op.data := congrArg Writer.data (Option.some.inj hopened).symm
          constructor
          · rw [hstreamed.body, List.append_nil]
            rfl
          · rw [hgiven, hsame, hstreamed.unread, List.nil_append, List.append_nil]
            rfl
          · intro _
            rw [hwriting, hidle, Event.ops_act, hop, payloadOf]
            simp [Writer.data]
          · exact fun hnot => absurd trivial hnot

theorem took_append (hs : s.response.Tuned) (hstep : step s .append = some (effects, t)) :
    Took s t [] (delivered effects) (if s.response.failed then [] else s.writer.data)
      (s.response.failed = true → s.writer.data = []) := by
  obtain ⟨hmain, hwriter, -⟩ := step_eq_some.mp hstep
  obtain ⟨hobject, rfl⟩ := step_use rfl hstep
  have hresponse : t.response = s.response.append s.writer.data := congrArg ConnContext.response hobject
  have hsame : t.main = s.main := (Option.some.inj hmain).symm
  have hwriting : t.writer.data = [] := by
    rw [ResourceHandler.nextWriter] at hwriter
    split at hwriter
    · rw [← Option.some.inj hwriter]
      rfl
    · cases hwriter
  constructor
  · rw [hresponse]
    rfl
  · rw [hresponse, hsame, (hs.append s.writer.data).2, ← List.append_assoc]
    rfl
  · intro hkept
    rw [hwriting]
    cases hfailed : s.response.failed with
    | true => simp [hkept hfailed]
    | false => simp
  · intro hcut
    obtain ⟨hfailed, hsome⟩ := Classical.not_imp.mp hcut
    rw [hwriting, hfailed]
    simpa using List.length_pos_of_ne_nil hsome

/-- Neither a write nor a reading gets on with its bytes. -/
def Event.Still : Event → Prop
  | .act _ | .append | .read _ | .answer => False
  | .wake | .forget | .retain | .release | .returns | .count | .getResponseHeaders | .clear | .setCallback => True

theorem data_nextMain {main : Main} (hmain : s.nextMain event = some main) (hstill : event.Still) :
    main.data = s.main.data := by
  have hsame : some s.main = some main → main.data = s.main.data := fun h => congrArg Main.data (Option.some.inj h).symm
  have hto : ∀ {before after : Main}, s.main = before → some after = some main → before.data = after.data →
      main.data = s.main.data := fun hbefore hafter hdata => by rw [hbefore, hdata, ← Option.some.inj hafter]
  cases event with
  | wake => exact hsame hmain
  | forget => exact hsame hmain
  | retain => exact hsame hmain
  | release => exact hsame (Option.ite_none_left_eq_some.mp hmain).2
  | returns =>
      obtain ⟨hhandling, hnext⟩ := Option.ite_none_right_eq_some.mp hmain
      exact hto hhandling hnext rfl
  | count =>
      obtain ⟨hcounting, hnext⟩ := Option.ite_none_right_eq_some.mp hmain
      exact hto hcounting hnext rfl
  | getResponseHeaders =>
      obtain ⟨hdone, hnext⟩ := Option.ite_none_right_eq_some.mp hmain
      exact hto hdone hnext rfl
  | clear =>
      rw [ResourceHandler.nextMain] at hmain
      split at hmain
      · rename_i data hreading
        exact hto hreading hmain rfl
      · cases hmain
  | setCallback =>
      rw [ResourceHandler.nextMain] at hmain
      split at hmain
      · rename_i data hsetting
        exact hto hsetting hmain rfl
      · cases hmain
  | act action => cases hstill
  | append => cases hstill
  | read bytesToRead => cases hstill
  | answer => cases hstill

theorem data_nextWriter {writer : Writer} (hwriter : s.nextWriter event = some writer) (hstill : event.Still) :
    writer.data = s.writer.data := by
  have hsame : some s.writer = some writer → writer.data = s.writer.data :=
    fun h => congrArg Writer.data (Option.some.inj h).symm
  cases event with
  | wake =>
      obtain ⟨happended, hnext⟩ := Option.ite_none_right_eq_some.mp hwriter
      rw [happended, ← Option.some.inj hnext]
      split <;> rfl
  | forget =>
      obtain ⟨hcontinued, hnext⟩ := Option.ite_none_right_eq_some.mp hwriter
      rw [hcontinued, ← Option.some.inj hnext]
      rfl
  | release => exact hsame (Option.ite_none_left_eq_some.mp hwriter).2
  | returns => exact hsame (Option.ite_none_left_eq_some.mp hwriter).2
  | retain => exact hsame hwriter
  | count => exact hsame hwriter
  | getResponseHeaders => exact hsame hwriter
  | clear => exact hsame hwriter
  | setCallback => exact hsame hwriter
  | act action => cases hstill
  | append => cases hstill
  | read bytesToRead => cases hstill
  | answer => cases hstill

/-- **What a step takes from the one who writes and gives to CEF.** -/
theorem step_took (hs : Sound s) (hstep : step s event = some (effects, t)) :
    ∃ taken, Took s t (payloadOf event.ops) (delivered effects) taken
      (event = .append → s.response.failed = true → s.writer.data = []) := by
  obtain ⟨hmain, hwriter, -⟩ := step_eq_some.mp hstep
  obtain ⟨main, writer, owned, others, object⟩ := t
  cases event with
  | act action =>
      have htook := took_act hs.tuned hstep
      exact ⟨[], htook.body, htook.given, fun _ => htook.whole trivial, fun h => absurd (fun h => by cases h) h⟩
  | append =>
      have htook := took_append hs.tuned hstep
      exact ⟨_, htook.body, htook.given, fun h => htook.whole (h rfl), fun h => htook.cut fun h' => h fun _ => h'⟩
  | read bytesToRead =>
      obtain ⟨rfl, rfl⟩ := step_use rfl hstep
      obtain ⟨hdone, hcalls⟩ := Option.ite_none_right_eq_some.mp hmain
      obtain rfl := Option.some.inj hwriter
      obtain rfl := Option.some.inj hcalls
      refine ⟨[], (List.append_nil _).symm, ?_, fun _ => ?_, fun h => absurd (fun h => by cases h) h⟩
      · rw [hdone, List.append_nil]
        exact Response.read_append_unread s.response bytesToRead
      · exact (List.append_nil _).symm
  | answer =>
      obtain ⟨rfl, rfl⟩ := step_use rfl hstep
      obtain rfl := Option.some.inj hwriter
      rw [ResourceHandler.nextMain] at hmain
      split at hmain
      · rename_i data hanswering
        obtain rfl := Option.some.inj hmain
        refine ⟨[], (List.append_nil _).symm, ?_, fun _ => ?_, fun h => absurd (fun h => by cases h) h⟩
        · simp [ConnContext.use, delivered, Effect.data, Main.data, ResourceHandler.response]
        · exact (List.append_nil _).symm
      · cases hmain
  | wake =>
      obtain ⟨rfl, rfl⟩ := step_use rfl hstep
      exact ⟨[], took_still (fun h => by cases h) rfl rfl rfl (delivered_continues _) (data_nextMain hmain trivial)
        (data_nextWriter hwriter trivial)⟩
  | count =>
      obtain ⟨rfl, rfl⟩ := step_use rfl hstep
      exact ⟨[], took_still (fun h => by cases h) rfl rfl rfl (delivered_continues _) (data_nextMain hmain trivial)
        (data_nextWriter hwriter trivial)⟩
  | forget =>
      obtain ⟨rfl, rfl⟩ := step_use rfl hstep
      exact ⟨[], took_still (fun h => by cases h) rfl rfl rfl rfl (data_nextMain hmain trivial)
        (data_nextWriter hwriter trivial)⟩
  | getResponseHeaders =>
      obtain ⟨rfl, rfl⟩ := step_use rfl hstep
      exact ⟨[], took_still (fun h => by cases h) rfl rfl rfl rfl (data_nextMain hmain trivial)
        (data_nextWriter hwriter trivial)⟩
  | clear =>
      obtain ⟨rfl, rfl⟩ := step_use rfl hstep
      exact ⟨[], took_still (fun h => by cases h) rfl rfl rfl rfl (data_nextMain hmain trivial)
        (data_nextWriter hwriter trivial)⟩
  | setCallback =>
      obtain ⟨rfl, rfl⟩ := step_use rfl hstep
      exact ⟨[], took_still (fun h => by cases h) rfl rfl rfl rfl (data_nextMain hmain trivial)
        (data_nextWriter hwriter trivial)⟩
  | retain =>
      obtain ⟨rfl, rfl⟩ := step_still rfl hstep
      exact ⟨[], took_still (fun h => by cases h) rfl rfl rfl rfl (data_nextMain hmain trivial)
        (data_nextWriter hwriter trivial)⟩
  | release =>
      obtain ⟨rfl, rfl⟩ := step_still rfl hstep
      exact ⟨[], took_still (fun h => by cases h) rfl rfl rfl rfl (data_nextMain hmain trivial)
        (data_nextWriter hwriter trivial)⟩
  | returns =>
      obtain ⟨rfl, rfl⟩ := step_still rfl hstep
      exact ⟨[], took_still (fun h => by cases h) rfl rfl rfl rfl (data_nextMain hmain trivial)
        (data_nextWriter hwriter trivial)⟩

theorem run_took (hs : Sound s) (hrun : Run.run step s events = some (outputs, t)) :
    ∃ taken, Took s t (payloadOf (written events)) (delivered outputs.flatten) taken (Kept s events) := by
  induction events generalizing s outputs with
  | nil =>
      obtain ⟨rfl, rfl⟩ := Prod.mk.inj (Option.some.inj hrun)
      exact ⟨[], (List.append_nil _).symm, (List.append_nil _).symm, fun _ => (List.append_nil _).symm,
        fun h => absurd (kept_nil s) h⟩
  | cons event events ih =>
      obtain ⟨first, rest, s', hfirst, hrest, rfl⟩ := Run.run_cons_eq_some.mp hrun
      obtain ⟨taken, htook⟩ := step_took hs hfirst
      obtain ⟨others, hlater⟩ := ih (hs.of_step hfirst) hrest
      rw [written_cons, payloadOf_append, List.flatten_cons, delivered_append, kept_cons hfirst]
      exact ⟨taken ++ others, htook.trans hlater⟩

/-! ### The end of a response -/

def Main.Holds (data : Str) : Main → Prop
  | .reading read | .setting read | .answering read => read = data
  | .handling | .counting | .done => False

theorem Main.Holds.data_eq {main : Main} {data : Str} (h : main.Holds data) : main.data = data := by
  cases main with
  | reading read => exact h
  | setting read => exact h
  | answering read => exact h
  | handling => cases h
  | counting => cases h
  | done => cases h

/-- `ReadResponse` keeps what it has read until it returns. -/
theorem holds_step {data : Str} (hs : s.main.Holds data) (hne : event ≠ .answer)
    (hstep : step s event = some (effects, t)) : t.main.Holds data := by
  obtain ⟨hmain, -, -⟩ := step_eq_some.mp hstep
  have hsame : some s.main = some t.main → t.main.Holds data := fun h => Option.some.inj h ▸ hs
  have hnot : ∀ {main : Main}, ¬ main.Holds data → s.main ≠ main := fun h heq => h (heq ▸ hs)
  cases event with
  | act action => exact hsame hmain
  | append => exact hsame hmain
  | wake => exact hsame hmain
  | forget => exact hsame hmain
  | retain => exact hsame hmain
  | release => exact hsame (Option.ite_none_left_eq_some.mp hmain).2
  | returns => exact absurd (Option.ite_none_right_eq_some.mp hmain).1 (hnot id)
  | count => exact absurd (Option.ite_none_right_eq_some.mp hmain).1 (hnot id)
  | getResponseHeaders => exact absurd (Option.ite_none_right_eq_some.mp hmain).1 (hnot id)
  | read bytesToRead => exact absurd (Option.ite_none_right_eq_some.mp hmain).1 (hnot id)
  | clear =>
      rw [ResourceHandler.nextMain] at hmain
      split at hmain
      · rename_i read hreading
        rw [hreading] at hs
        exact Option.some.inj hmain ▸ hs
      · cases hmain
  | setCallback =>
      rw [ResourceHandler.nextMain] at hmain
      split at hmain
      · rename_i read hsetting
        rw [hsetting] at hs
        exact Option.some.inj hmain ▸ hs
      · cases hmain
  | answer => exact absurd rfl hne

theorem delivered_step (hne : event ≠ .answer) (hstep : step s event = some (effects, t)) :
    delivered effects = [] := by
  cases event with
  | act action =>
      obtain ⟨-, rfl⟩ := step_use rfl hstep
      rw [ConnContext.use]
      cases hop : action.op? with
      | none =>
          rw [(ConnContext.act_of_none hop _).1]
          rfl
      | some op => rw [(ConnContext.act_of_op hop _).1, delivered_continues]
  | append => exact congrArg delivered (step_use rfl hstep).2
  | wake =>
      obtain ⟨-, rfl⟩ := step_use rfl hstep
      exact delivered_continues _
  | forget => exact congrArg delivered (step_use rfl hstep).2
  | retain => exact congrArg delivered (step_still rfl hstep).2
  | release => exact congrArg delivered (step_still rfl hstep).2
  | returns => exact congrArg delivered (step_still rfl hstep).2
  | count =>
      obtain ⟨-, rfl⟩ := step_use rfl hstep
      exact delivered_continues _
  | getResponseHeaders => exact congrArg delivered (step_use rfl hstep).2
  | read bytesToRead => exact congrArg delivered (step_use rfl hstep).2
  | clear => exact congrArg delivered (step_use rfl hstep).2
  | setCallback => exact congrArg delivered (step_use rfl hstep).2
  | answer => exact absurd rfl hne

theorem holds_run {data : Str} (hs : s.main.Holds data) (hone : .answer ∉ events)
    (hrun : Run.run step s events = some (outputs, t)) : t.main.Holds data ∧ delivered outputs.flatten = [] := by
  induction events generalizing s outputs with
  | nil =>
      obtain ⟨rfl, rfl⟩ := Prod.mk.inj (Option.some.inj hrun)
      exact ⟨hs, rfl⟩
  | cons event events ih =>
      obtain ⟨first, rest, s', hfirst, hrest, rfl⟩ := Run.run_cons_eq_some.mp hrun
      rw [List.mem_cons, not_or] at hone
      obtain ⟨hnow, hlater⟩ := hone
      obtain ⟨hlast, hnones⟩ := ih (holds_step hs (Ne.symm hnow) hfirst) hlater hrest
      refine ⟨hlast, ?_⟩
      rw [List.flatten_cons, delivered_append, delivered_step (Ne.symm hnow) hfirst, hnones, List.append_nil]

theorem read_step {n : Nat} (hs : Sound s) (hstep : step s (.read n) = some (effects, t)) :
    s.main = .done ∧ t.main.Holds (s.response.unread.take n) ∧ effects = [] := by
  obtain ⟨hmain, -, -⟩ := step_eq_some.mp hstep
  obtain ⟨-, rfl⟩ := step_use rfl hstep
  obtain ⟨hdone, hcalls⟩ := Option.ite_none_right_eq_some.mp hmain
  have hgood : s.response.failed = false := hs.good fun data h => by rw [hdone] at h; cases h
  refine ⟨hdone, ?_, rfl⟩
  rw [← Option.some.inj hcalls, Response.read, hgood]
  rfl

theorem answer_end {data : Str} (hs : Sound s) (hstep : step s .answer = some ([.bytes data false], t)) :
    s.main.data = [] ∧ s.ctx.others = 0 ∧ t.ctx.others = 0 := by
  obtain ⟨-, heffects⟩ := step_use rfl hstep
  obtain ⟨-, hmore⟩ := Effect.bytes.inj (List.singleton_inj.mp heffects)
  rw [eq_comm, Bool.or_eq_false_iff, decide_eq_false_iff_not, decide_eq_false_iff_not, not_not, not_not,
    hs.useCount_eq_one_iff] at hmore
  exact ⟨hmore.1, hmore.2, (others_of_own rfl hstep).trans hmore.2⟩

/-- **What CEF has when the response is over** is the body as the last reading found it. It is all that is ever
written if and only if no write has come to a body that had failed, and no bytes were still to come at that
reading or are written until it returns. -/
theorem delivered_whole {front mid more : List Event} {before during later : List (List Effect)} {n : Nat}
    {data : Str} {v : ResourceHandler} (hfront : Run.run step start front = some (before, s))
    (hreads : Run.run step s (.read n :: mid) = some (during, t)) (hn : 0 < n) (hone : .answer ∉ mid)
    (hanswer : step t .answer = some ([.bytes data false], u)) (hmore : Run.run step u more = some (later, v)) :
    delivered (before.flatten ++ during.flatten) = s.response.body ∧
      (delivered (before.flatten ++ during.flatten) = payloadOf (written (front ++ .read n :: mid ++ .answer :: more)) ↔
        Kept start front ∧ s.writer.data = [] ∧ payloadOf (written mid) = []) := by
  have hs := sound_start.of_run hfront
  obtain ⟨first, rest, s', hread, hmid, rfl⟩ := Run.run_cons_eq_some.mp hreads
  obtain ⟨hdone, hholds, rfl⟩ := read_step hs hread
  obtain ⟨hlast, hnone⟩ := holds_run hholds hone hmid
  obtain ⟨hdata, halone, halone'⟩ := answer_end (hs.of_run hreads) hanswer
  obtain ⟨taken, htook⟩ := run_took sound_start hfront
  have hempty : s.response.unread = [] := by
    rw [hlast.data_eq] at hdata
    exact (List.take_eq_nil_iff.mp hdata).resolve_left (Nat.ne_of_gt hn)
  have hbody : s.response.body = taken := htook.body
  have hgiven : delivered before.flatten = taken := by
    have h := htook.given
    rw [hdone, hempty] at h
    simpa [Main.data, start, ResourceHandler.response, Response.unread] using h
  have hdelivered : delivered (before.flatten ++ ([] :: rest).flatten) = taken := by
    rw [delivered_append, hgiven, List.flatten_cons, List.nil_append, hnone, List.append_nil]
  have hwritten : payloadOf (written (front ++ .read n :: mid ++ .answer :: more))
      = payloadOf (written front) ++ payloadOf (written mid) := by
    have hnobody : written more = [] := written_of_owners (owners_of_alone halone' hmore).1
    have hrest : written (.answer :: more) = written more := rfl
    have hmid : written (.read n :: mid) = written mid := rfl
    rw [written_append, written_append, hrest, hnobody, hmid, List.append_nil, payloadOf_append]
  refine ⟨hdelivered.trans hbody.symm, ?_⟩
  rw [hdelivered, hwritten]
  exact htook.eq_append_iff rfl _

/-- The last write comes when CEF has read, and has let go of its reference when CEF is answered. -/
def lateWrite : List Event := .clear :: write [33] ++ [.release, .setCallback]

theorem delivered_whole_lateWrite : ∃ before s during t u,
    Run.run step start (passedOn ++ write [104, 105] ++ readResponse 8) = some (before, s) ∧
      Run.run step s (.read 8 :: lateWrite) = some (during, t) ∧
      step t .answer = some ([.bytes [] false], u) ∧
      delivered (before.flatten ++ during.flatten) = [104, 105] ∧
      delivered (before.flatten ++ during.flatten) ≠ payloadOf
        (written (passedOn ++ write [104, 105] ++ readResponse 8 ++ .read 8 :: lateWrite ++ [.answer])) := by
  obtain ⟨before, s, during, t, u, hfront, hreads, hanswer, hbody⟩ : ∃ before s during t u,
      Run.run step start (passedOn ++ write [104, 105] ++ readResponse 8) = some (before, s) ∧
        Run.run step s (.read 8 :: lateWrite) = some (during, t) ∧
        step t .answer = some ([.bytes [] false], u) ∧ s.response.body = [104, 105] :=
    ⟨_, _, _, _, _, rfl, rfl, rfl, rfl⟩
  obtain ⟨hdelivered, hwhole⟩ := delivered_whole hfront hreads (by decide) (by decide) hanswer (Run.run_nil u)
  refine ⟨before, s, during, t, u, hfront, hreads, hanswer, hdelivered.trans hbody, ?_⟩
  intro heq
  obtain ⟨-, -, hnothing⟩ := hwhole.mp heq
  exact absurd hnothing (by decide)

end Rikitiki.Cef
