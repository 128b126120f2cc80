import Rikitiki.Library.Machine
import Rikitiki.Library.Run

/-!
# Shared objects

An object behind counted references. One reference is the owner's. The others belong to whoever got a copy:
they may use the object, make further copies and let go of their own. When the last reference is gone the
deleter runs. `Behaviour` says what a use does to the object and what the deleter does with it.
-/

namespace Shared

variable {σ α ε : Type*}

structure Behaviour (σ α ε : Type*) where
  use : σ → α → List ε × σ
  delete : σ → List ε

inductive Event (α : Type*) where
  /-- a use through one of the other references -/
  | use (a : α)
  | retain
  | release
  /-- a use through the owner's reference -/
  | own (a : α)
  /-- The owner lets go. -/
  | disown
  deriving DecidableEq, Repr

def Event.use? : Event α → Option α
  | .use a => some a
  | .own a => some a
  | .retain | .release | .disown => none

def uses (events : List (Event α)) : List α := events.filterMap Event.use?

structure State (σ : Type*) where
  owned : Bool
  others : Nat
  object : σ
  deriving DecidableEq, Repr

namespace State

def useCount (s : State σ) : Nat := s.owned.toNat + s.others

def touch (b : Behaviour σ α ε) (s : State σ) (a : α) : List ε × State σ :=
  ((b.use s.object a).1, { s with object := (b.use s.object a).2 })

/-- What follows when a reference has been released. -/
def settle (b : Behaviour σ α ε) (s : State σ) : List ε × State σ :=
  (if s.useCount = 0 then b.delete s.object else [], s)

end State

def step (b : Behaviour σ α ε) (s : State σ) : Event α → Option (List ε × State σ)
  | .use a => if s.others = 0 then none else some (s.touch b a)
  | .retain => if s.others = 0 then none else some ([], { s with others := s.others + 1 })
  | .release => if s.others = 0 then none else some (State.settle b { s with others := s.others - 1 })
  | .own a => if s.owned then some (s.touch b a) else none
  | .disown => if s.owned then some (State.settle b { s with owned := false }) else none

section Rules

variable {b : Behaviour σ α ε} {s t : State σ} {a : α} {event : Event α} {effects : List ε}

theorem step_use : step b s (.use a) = some (effects, t) ↔ s.others ≠ 0 ∧ s.touch b a = (effects, t) := by
  rw [step, Option.ite_none_left_eq_some, Option.some.injEq]

theorem step_retain : step b s .retain = some (effects, t) ↔
    s.others ≠ 0 ∧ ([], { s with others := s.others + 1 }) = (effects, t) := by
  rw [step, Option.ite_none_left_eq_some, Option.some.injEq]

theorem step_release : step b s .release = some (effects, t) ↔
    s.others ≠ 0 ∧ State.settle b { s with others := s.others - 1 } = (effects, t) := by
  rw [step, Option.ite_none_left_eq_some, Option.some.injEq]

theorem step_own : step b s (.own a) = some (effects, t) ↔ s.owned = true ∧ s.touch b a = (effects, t) := by
  rw [step, Option.ite_none_right_eq_some, Option.some.injEq]

theorem step_disown : step b s .disown = some (effects, t) ↔
    s.owned = true ∧ State.settle b { s with owned := false } = (effects, t) := by
  rw [step, Option.ite_none_right_eq_some, Option.some.injEq]

theorem step_of_useCount_eq_zero (h : s.useCount = 0) (event : Event α) : step b s event = none := by
  rw [State.useCount, Nat.add_eq_zero_iff, Bool.toNat_eq_zero] at h
  cases event
  all_goals simp [step, h.1, h.2]

/-- What a step does to the object, and what the deleter adds to its effects. -/
theorem step_object (hstep : step b s event = some (effects, t)) :
    t.object = (Machine.run b.use s.object event.use?.toList).2 ∧
      effects = (Machine.run b.use s.object event.use?.toList).1.flatten
        ++ if t.useCount = 0 then b.delete t.object else [] := by
  have hpos : s.useCount ≠ 0 := by
    intro hzero
    rw [step_of_useCount_eq_zero hzero] at hstep
    cases hstep
  cases event with
  | use a =>
      obtain ⟨rfl, rfl⟩ := Prod.mk.inj (step_use.mp hstep).2
      have hcount : ¬ ({ s with object := (b.use s.object a).2 } : State σ).useCount = 0 := hpos
      simp [Event.use?, Machine.run_cons, hcount]
  | retain =>
      obtain ⟨rfl, rfl⟩ := Prod.mk.inj (step_retain.mp hstep).2
      simp [Event.use?, State.useCount]
  | release =>
      obtain ⟨rfl, rfl⟩ := Prod.mk.inj (step_release.mp hstep).2
      simp [Event.use?]
  | own a =>
      obtain ⟨rfl, rfl⟩ := Prod.mk.inj (step_own.mp hstep).2
      have hcount : ¬ ({ s with object := (b.use s.object a).2 } : State σ).useCount = 0 := hpos
      simp [Event.use?, Machine.run_cons, hcount]
  | disown =>
      obtain ⟨rfl, rfl⟩ := Prod.mk.inj (step_disown.mp hstep).2
      simp [Event.use?]

theorem owned_of_ne_disown (hne : event ≠ .disown) (hstep : step b s event = some (effects, t)) :
    t.owned = s.owned := by
  cases event with
  | use a =>
      obtain ⟨-, rfl⟩ := Prod.mk.inj (step_use.mp hstep).2
      rfl
  | retain =>
      obtain ⟨-, rfl⟩ := Prod.mk.inj (step_retain.mp hstep).2
      rfl
  | release =>
      obtain ⟨-, rfl⟩ := Prod.mk.inj (step_release.mp hstep).2
      rfl
  | own a =>
      obtain ⟨-, rfl⟩ := Prod.mk.inj (step_own.mp hstep).2
      rfl
  | disown => exact absurd rfl hne

theorem object_of_not_use (huse : event.use? = none) (hstep : step b s event = some (effects, t)) :
    t.object = s.object ∧ effects = if t.useCount = 0 then b.delete t.object else [] := by
  obtain ⟨hobject, heffects⟩ := step_object hstep
  rw [huse] at hobject heffects
  exact ⟨hobject, heffects⟩

theorem object_of_use (huse : event.use? = some a) (hstep : step b s event = some (effects, t)) :
    t.object = (b.use s.object a).2 ∧
      effects = (b.use s.object a).1 ++ if t.useCount = 0 then b.delete t.object else [] := by
  obtain ⟨hobject, heffects⟩ := step_object hstep
  rw [huse] at hobject heffects
  simp only [Option.toList_some, Machine.run_cons, Machine.run_nil, List.flatten_singleton] at hobject heffects
  exact ⟨hobject, heffects⟩

theorem run_of_useCount_eq_zero (h : s.useCount = 0) {events : List (Event α)}
    {outputs : List (List ε)} (hrun : Run.run (step b) s events = some (outputs, t)) :
    events = [] ∧ outputs = [] ∧ t = s := by
  cases events with
  | nil =>
      obtain ⟨rfl, rfl⟩ := Prod.mk.inj (Option.some.inj hrun)
      exact ⟨rfl, rfl, rfl⟩
  | cons event events =>
      rw [Run.run_cons_of_none (step_of_useCount_eq_zero h event)] at hrun
      cases hrun

/-- **The deleter runs once, at the end.** The object has taken all its uses in their order, and the effects
of a run are those of the uses and, once nobody refers to the object any more, those of the deleter. -/
theorem run_object {events : List (Event α)} {outputs : List (List ε)} (hs : 0 < s.useCount)
    (hrun : Run.run (step b) s events = some (outputs, t)) :
    t.object = (Machine.run b.use s.object (uses events)).2 ∧
      outputs.flatten = (Machine.run b.use s.object (uses events)).1.flatten
        ++ if t.useCount = 0 then b.delete t.object else [] := by
  induction events generalizing s outputs with
  | nil =>
      obtain ⟨rfl, rfl⟩ := Prod.mk.inj (Option.some.inj hrun)
      simp [uses, Nat.ne_of_gt hs]
  | cons event events ih =>
      obtain ⟨first, rest, s', hfirst, hrest, rfl⟩ := Run.run_cons_eq_some.mp hrun
      obtain ⟨hobject, heffects⟩ := step_object hfirst
      have huses : uses (event :: events) = event.use?.toList ++ uses events := by
        rw [uses, uses, List.filterMap_cons]
        cases event.use? <;> rfl
      rw [huses, Machine.run_append, List.flatten_append, List.flatten_cons, heffects, ← hobject]
      rcases Nat.eq_zero_or_pos s'.useCount with hzero | hpos
      · obtain ⟨rfl, rfl, rfl⟩ := run_of_useCount_eq_zero hzero hrest
        simp [uses]
      · obtain ⟨hlast, hothers⟩ := ih hpos hrest
        rw [if_neg (Nat.ne_of_gt hpos), List.append_nil, List.append_assoc, ← hothers]
        exact ⟨hlast, rfl⟩

/-! ### An owner that is left alone -/

def Event.isOwners : Event α → Bool
  | .own _ | .disown => true
  | .use _ | .retain | .release => false

/-- **Nobody comes back.** Once the owner has the only reference, it makes all that happens. -/
theorem step_alone (halone : s.others = 0) (hstep : step b s event = some (effects, t)) :
    event.isOwners = true ∧ t.others = 0 := by
  cases event with
  | use a => simp [step, halone] at hstep
  | retain => simp [step, halone] at hstep
  | release => simp [step, halone] at hstep
  | own a =>
      obtain ⟨rfl, rfl⟩ := Prod.mk.inj (step_own.mp hstep).2
      exact ⟨rfl, halone⟩
  | disown =>
      obtain ⟨rfl, rfl⟩ := Prod.mk.inj (step_disown.mp hstep).2
      exact ⟨rfl, halone⟩

end Rules

end Shared
