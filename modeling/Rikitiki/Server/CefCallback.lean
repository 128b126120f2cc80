import Rikitiki.Server.CefSteps

/-!
# The callback for the body of a response in an embedded browser

A reading that finds nothing sets a callback, which the next write continues and then forgets. In between CEF
may read again. The callback it sets then is forgotten with the one before.
-/

namespace Rikitiki.Cef

open ResourceHandler (step start)

variable {s t : ResourceHandler} {event : Event} {events : List Event} {effects : List Effect}
  {outputs : List (List Effect)}

/-- No callback is set, or the write that has continued one is still to forget it. -/
def Quiet (s : ResourceHandler) : Prop := s.response.dataReady = false ∨ s.writer = .continued

theorem not_quiet_iff : ¬ Quiet s ↔ s.response.dataReady = true ∧ s.writer ≠ .continued := by
  rw [Quiet, not_or, Bool.not_eq_false]

theorem begun_ne_continued {r : Response} {op : Op} {writer : Writer} (hbegun : r.begun op = some writer) :
    writer ≠ .continued := by
  rintro rfl
  cases op with
  | payload data =>
      rw [Response.begun] at hbegun
      split at hbegun
      · cases hbegun
      · cases hbegun
  | status status => cases hbegun
  | field field => cases hbegun

theorem continued_step (hwriter : s.writer = .continued) (hforget : event ≠ .forget)
    (hstep : step s event = some (effects, t)) : t.writer = .continued := by
  obtain ⟨-, hnext, -⟩ := step_eq_some.mp hstep
  have hnot : ∀ {writer : Writer}, writer ≠ .continued → s.writer ≠ writer := fun h heq => h (heq ▸ hwriter)
  have hsame : some s.writer = some t.writer → t.writer = .continued := fun h => Option.some.inj h ▸ hwriter
  cases event with
  | act action =>
      rw [ResourceHandler.nextWriter] at hnext
      split at hnext
      · exact absurd (Option.ite_none_right_eq_some.mp hnext).1 (hnot fun h => by cases h)
      · exact hsame hnext
  | append =>
      rw [ResourceHandler.nextWriter, hwriter] at hnext
      cases hnext
  | wake => exact absurd (Option.ite_none_right_eq_some.mp hnext).1 (hnot fun h => by cases h)
  | forget => exact absurd rfl hforget
  | release => exact hsame (Option.ite_none_left_eq_some.mp hnext).2
  | returns => exact hsame (Option.ite_none_left_eq_some.mp hnext).2
  | retain => exact hsame hnext
  | count => exact hsame hnext
  | getResponseHeaders => exact hsame hnext
  | read bytesToRead => exact hsame hnext
  | clear => exact hsame hnext
  | setCallback => exact hsame hnext
  | answer => exact hsame hnext

/-- A write comes to its `dataReady = 0` by way of `if (dataReady)`. -/
theorem ne_continued_step (hwriter : s.writer ≠ .continued) (hwake : event ≠ .wake)
    (hstep : step s event = some (effects, t)) : event ≠ .forget ∧ t.writer ≠ .continued := by
  obtain ⟨-, hnext, -⟩ := step_eq_some.mp hstep
  have hsame : some s.writer = some t.writer → t.writer ≠ .continued := fun h => Option.some.inj h ▸ hwriter
  refine ⟨?_, ?_⟩
  · rintro rfl
    exact hwriter (Option.ite_none_right_eq_some.mp hnext).1
  cases event with
  | act action =>
      rw [ResourceHandler.nextWriter] at hnext
      split at hnext
      · rename_i writer hbegun
        obtain ⟨op, -, hop⟩ := Option.bind_eq_some_iff.mp hbegun
        exact Option.some.inj (Option.ite_none_right_eq_some.mp hnext).2 ▸ begun_ne_continued hop
      · exact hsame hnext
  | append =>
      rw [ResourceHandler.nextWriter] at hnext
      split at hnext
      · rw [← Option.some.inj hnext]
        exact fun h => by cases h
      · cases hnext
  | wake => exact absurd rfl hwake
  | forget => exact absurd (Option.ite_none_right_eq_some.mp hnext).1 hwriter
  | release => exact hsame (Option.ite_none_left_eq_some.mp hnext).2
  | returns => exact hsame (Option.ite_none_left_eq_some.mp hnext).2
  | retain => exact hsame hnext
  | count => exact hsame hnext
  | getResponseHeaders => exact hsame hnext
  | read bytesToRead => exact hsame hnext
  | clear => exact hsame hnext
  | setCallback => exact hsame hnext
  | answer => exact hsame hnext

theorem dataReady_of_ne (hset : event ≠ .setCallback) (hforget : event ≠ .forget) (hs : Sound s)
    (hstep : step s event = some (effects, t)) : t.response.dataReady = s.response.dataReady := by
  rw [(step_moved hs.tuned hstep).dataReady]
  cases event with
  | setCallback => exact absurd rfl hset
  | forget => exact absurd rfl hforget
  | _ => rfl

/-- Once nothing that is set will be continued, it takes another reading for CEF to be called back. -/
theorem quiet_step (hs : Sound s) (hquiet : Quiet s) (hset : event ≠ .setCallback)
    (hstep : step s event = some (effects, t)) : Quiet t ∧ effects.count (.continues .dataReady) = 0 := by
  have hmoved := step_moved hs.tuned hstep
  refine ⟨?_, ?_⟩
  · by_cases hforget : event = .forget
    · subst hforget
      exact .inl hmoved.dataReady
    · rcases hquiet with hnone | hcontinued
      · exact .inl ((dataReady_of_ne hset hforget hs hstep).trans hnone)
      · exact .inr (continued_step hcontinued hforget hstep)
  · rw [hmoved.continues_data]
    split
    · rename_i hwake
      subst hwake
      obtain ⟨-, hnext, -⟩ := step_eq_some.mp hstep
      have happended := (Option.ite_none_right_eq_some.mp hnext).1
      rcases hquiet with hnone | hcontinued
      · rw [hnone, Bool.toNat_false]
      · rw [happended] at hcontinued
        cases hcontinued
    · rfl

theorem count_quiet (hs : Sound s) (hquiet : Quiet s) (hset : .setCallback ∉ events)
    (hrun : Run.run step s events = some (outputs, t)) : outputs.flatten.count (.continues .dataReady) = 0 := by
  induction events generalizing s outputs with
  | nil =>
      obtain ⟨rfl, -⟩ := Prod.mk.inj (Option.some.inj hrun)
      rfl
  | cons event events ih =>
      obtain ⟨first, rest, s', hfirst, hrest, rfl⟩ := Run.run_cons_eq_some.mp hrun
      rw [List.mem_cons, not_or] at hset
      obtain ⟨hquiet', hnone⟩ := quiet_step hs hquiet (Ne.symm hset.1) hfirst
      rw [List.flatten_cons, List.count_append, hnone, ih (hs.of_step hfirst) hquiet' hset.2 hrest]

theorem count_set (hs : Sound s) (hready : ¬ Quiet s) (hset : .setCallback ∉ events)
    (hrun : Run.run step s events = some (outputs, t)) :
    outputs.flatten.count (.continues .dataReady) = if .wake ∈ events then 1 else 0 := by
  induction events generalizing s outputs with
  | nil =>
      obtain ⟨rfl, -⟩ := Prod.mk.inj (Option.some.inj hrun)
      rfl
  | cons event events ih =>
      obtain ⟨first, rest, s', hfirst, hrest, rfl⟩ := Run.run_cons_eq_some.mp hrun
      obtain ⟨hdata, hwriter⟩ := not_quiet_iff.mp hready
      rw [List.mem_cons, not_or] at hset
      have hmoved := step_moved hs.tuned hfirst
      rw [List.flatten_cons, List.count_append, hmoved.continues_data]
      by_cases hwake : event = .wake
      · subst hwake
        obtain ⟨-, hnext, -⟩ := step_eq_some.mp hfirst
        have hcontinued : Quiet s' := by
          obtain ⟨-, heq⟩ := Option.ite_none_right_eq_some.mp hnext
          rw [hdata, if_pos rfl] at heq
          exact .inr (Option.some.inj heq).symm
        rw [count_quiet (hs.of_step hfirst) hcontinued hset.2 hrest, hdata]
        simp
      · obtain ⟨hforget, hnext⟩ := ne_continued_step hwriter hwake hfirst
        have hready' : ¬ Quiet s' :=
          not_quiet_iff.mpr ⟨(dataReady_of_ne (Ne.symm hset.1) hforget hs hfirst).trans hdata, hnext⟩
        rw [if_neg hwake, Nat.zero_add, ih (hs.of_step hfirst) hready' hset.2 hrest]
        simp [Ne.symm hwake]

/-- **When a wake-up is lost.** From where a reading that has found nothing sets its callback, and up to where the
next one sets or clears it, CEF is called back once if some write comes to its `if (dataReady)`, and else not at
all. It is never called back if a write that has continued the callback before has then still to forget it. -/
theorem called_back {front mid : List Event} {before later : List (List Effect)} {s' : ResourceHandler}
    (hrun : Run.run step start front = some (before, s)) (hread : s.main = .setting [])
    (hset : step s .setCallback = some (effects, s')) (hlater : Run.run step s' mid = some (later, t))
    (hnone : .setCallback ∉ mid) :
    later.flatten.count (.continues .dataReady) =
      if s.writer ≠ .continued ∧ .wake ∈ mid then 1 else 0 := by
  have hs := sound_start.of_run hrun
  have hs' := hs.of_step hset
  have hready : s'.response.dataReady = true := by
    rw [(step_moved hs.tuned hset).dataReady, ResourceHandler.nextDataReady, hread]
    rfl
  have hwriter : s'.writer = s.writer := by
    obtain ⟨-, hnext, -⟩ := step_eq_some.mp hset
    exact (Option.some.inj hnext).symm
  by_cases hcontinued : s.writer = .continued
  · rw [if_neg (fun h => h.1 hcontinued)]
    exact count_quiet hs' (.inr (hwriter.trans hcontinued)) hnone hlater
  · rw [count_set hs' (not_quiet_iff.mpr ⟨hready, hwriter ▸ hcontinued⟩) hnone hlater]
    simp [hcontinued]

/-- CEF is called back by a write, and reads twice before that write forgets the callback. -/
def hurried : List Event := passedOn ++ readResponse 8 ++ write [104] ++ readResponse 8 ++ [.read 8, .clear]

theorem called_back_hurried : ∃ before s effects s' later t,
    Run.run step start hurried = some (before, s) ∧ step s .setCallback = some (effects, s') ∧
      Run.run step s' (.answer :: .forget :: write [33]) = some (later, t) ∧
      later.flatten.count (.continues .dataReady) = 0 := by
  obtain ⟨before, s, effects, s', later, t, hrun, hread, hwriter, hset, hlater⟩ :
      ∃ before s effects s' later t, Run.run step start hurried = some (before, s) ∧ s.main = .setting [] ∧
        s.writer = .continued ∧ step s .setCallback = some (effects, s') ∧
        Run.run step s' (.answer :: .forget :: write [33]) = some (later, t) :=
    ⟨_, _, _, _, _, _, rfl, rfl, rfl, rfl, rfl⟩
  have hcount := called_back hrun hread hset hlater (by decide)
  rw [if_neg (fun h => h.1 hwriter)] at hcount
  exact ⟨before, s, effects, s', later, t, hrun, hset, hlater, hcount⟩

theorem step_of_use {use : Use} {main : Main} {writer : Writer} (hothers : s.ctx.others ≠ 0)
    (hmain : s.nextMain event = some main) (hwriter : s.nextWriter event = some writer)
    (hshared : s.shared event = .use use) :
    step s event = some ((s.ctx.object.use use).1,
      ⟨main, writer, { s.ctx with object := (s.ctx.object.use use).2 }⟩) := by
  refine step_eq_some.mpr ⟨hmain, hwriter, ?_⟩
  rw [hshared]
  exact Shared.step_use.mpr ⟨hothers, rfl⟩

/-- A write can come to its `if (dataReady)`. -/
def Wakes (s : ResourceHandler) : Prop :=
  ∃ more later t, Run.run step s more = some (later, t) ∧ .setCallback ∉ more ∧ .wake ∈ more

theorem wakes_of_step (hset : event ≠ .setCallback) (hstep : step s event = some (effects, t)) (ht : Wakes t) :
    Wakes s := by
  obtain ⟨more, later, u, hrun, hnone, hwake⟩ := ht
  refine ⟨event :: more, effects :: later, u, Run.run_cons_eq_some.mpr ⟨effects, later, t, hstep, hrun, rfl⟩, ?_, ?_⟩
  · exact List.not_mem_cons_of_ne_of_not_mem hset.symm hnone
  · exact List.mem_cons_of_mem _ hwake

theorem wakes_of_appended (hothers : s.ctx.others ≠ 0) (hwriter : s.writer = .appended) : Wakes s := by
  have hstep : step s .wake = some _ := step_of_use hothers rfl (if_pos hwriter) rfl
  exact ⟨[.wake], _, _, Run.run_singleton_eq_some.mpr ⟨_, hstep, rfl⟩, by decide, by decide⟩

theorem wakes_of_opened {data : Str} (hothers : s.ctx.others ≠ 0) (hwriter : s.writer = .opened data) : Wakes s := by
  have hnext : s.nextWriter .append = some .appended := by rw [ResourceHandler.nextWriter, hwriter]
  have hstep := step_of_use hothers rfl hnext rfl
  exact wakes_of_step (by decide) hstep (wakes_of_appended hothers rfl)

theorem wakes_of_idle (hs : Sound s) (hothers : s.ctx.others ≠ 0) (hwriter : s.writer = .idle) : Wakes s := by
  have hbegun : (Action.streamRef (.payload [])).op?.bind s.response.begun = some (.opened []) :=
    hs.tuned.begun (.payload [])
  have hnext : s.nextWriter (.act (.streamRef (.payload []))) = some (.opened []) := by
    rw [ResourceHandler.nextWriter, hbegun]
    exact if_pos hwriter
  have hstep := step_of_use hothers rfl hnext rfl
  exact wakes_of_step (fun h => by cases h) hstep (wakes_of_opened hothers rfl)

theorem wakes (hs : Sound s) (hothers : s.ctx.others ≠ 0) (hwriter : s.writer ≠ .continued) : Wakes s := by
  cases h : s.writer with
  | idle => exact wakes_of_idle hs hothers h
  | opened data => exact wakes_of_opened hothers h
  | appended => exact wakes_of_appended hothers h
  | continued => exact absurd h hwriter

/-- **CEF can be called back before it reads again if and only if** a callback is set, no write is still to forget
it, and somebody else refers to the context. The last one to let go does not tell it that the response is over. -/
theorem callable_iff (hrun : Run.run step start events = some (outputs, s)) :
    (∃ more later t, Run.run step s more = some (later, t) ∧ .setCallback ∉ more ∧
      .continues .dataReady ∈ later.flatten) ↔
      s.response.dataReady = true ∧ s.writer ≠ .continued ∧ s.ctx.others ≠ 0 := by
  have hs := sound_start.of_run hrun
  constructor
  · intro h
    obtain ⟨more, later, t, hmore, hset, hcontinues⟩ := h
    have hready : ¬ Quiet s := by
      intro hquiet
      exact List.count_eq_zero.mp (count_quiet hs hquiet hset hmore) hcontinues
    obtain ⟨hdata, hwriter⟩ := not_quiet_iff.mp hready
    refine ⟨hdata, hwriter, ?_⟩
    intro halone
    have howners := (owners_of_alone halone hmore).1
    have hwake : .wake ∉ more := fun hwake => absurd (howners _ hwake) Bool.false_ne_true
    have hcount := count_set hs hready hset hmore
    rw [if_neg hwake] at hcount
    exact List.count_eq_zero.mp hcount hcontinues
  · intro h
    obtain ⟨hdata, hwriter, hothers⟩ := h
    obtain ⟨more, later, t, hmore, hset, hwake⟩ := wakes hs hothers hwriter
    refine ⟨more, later, t, hmore, hset, ?_⟩
    have hcount := count_set hs (not_quiet_iff.mpr ⟨hdata, hwriter⟩) hset hmore
    rw [if_pos hwake] at hcount
    exact List.count_pos_iff.mp (by omega)

theorem callable_iff_passedOn : ∃ outputs s,
    Run.run step start (passedOn ++ readResponse 8) = some (outputs, s) ∧ s.response.dataReady = true ∧
      ∃ more later t, Run.run step s more = some (later, t) ∧ .setCallback ∉ more ∧
        .continues .dataReady ∈ later.flatten := by
  obtain ⟨outputs, s, hrun, hwaits, hwriter, hothers⟩ : ∃ outputs s,
      Run.run step start (passedOn ++ readResponse 8) = some (outputs, s) ∧ s.response.dataReady = true ∧
        s.writer = .idle ∧ s.ctx.others = 1 := ⟨_, _, rfl, rfl, rfl, rfl⟩
  have hidle : s.writer ≠ .continued := by
    rw [hwriter]
    decide
  have hshared : s.ctx.others ≠ 0 := by omega
  exact ⟨outputs, s, hrun, hwaits, (callable_iff hrun).mpr ⟨hwaits, hidle, hshared⟩⟩

end Rikitiki.Cef
