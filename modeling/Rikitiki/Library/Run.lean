import Mathlib.Data.Nat.Notation

/-!
# Runs of a partial step function

`run step s inputs` feeds inputs one after the other to a step function that answers each with an output
and a new state, or has no answer. The rules below take a fact about one step to a fact about a run.
-/

namespace Run

variable {σ ι ο : Type*} {step : σ → ι → Option (ο × σ)}

def run (step : σ → ι → Option (ο × σ)) : σ → List ι → Option (List ο × σ)
  | s, [] => some ([], s)
  | s, input :: inputs =>
    match step s input with
    | none => none
    | some (output, s) => (run step s inputs).map fun (outputs, s) => (output :: outputs, s)

@[simp] theorem run_nil (s : σ) : run step s [] = some ([], s) := rfl

theorem run_cons_of_none {s : σ} {input : ι} (h : step s input = none) (inputs : List ι) :
    run step s (input :: inputs) = none := by
  simp only [run, h]

theorem run_cons_of_some {s s' : σ} {input : ι} {output : ο} (h : step s input = some (output, s'))
    (inputs : List ι) :
    run step s (input :: inputs)
      = (run step s' inputs).map fun (outputs, s) => (output :: outputs, s) := by
  simp only [run, h]

theorem run_cons_eq_some {s t : σ} {input : ι} {inputs : List ι} {outputs : List ο} :
    run step s (input :: inputs) = some (outputs, t) ↔
      ∃ output rest s', step s input = some (output, s') ∧
        run step s' inputs = some (rest, t) ∧ outputs = output :: rest := by
  cases h : step s input with
  | none => simp [run_cons_of_none h]
  | some answer =>
      obtain ⟨output, s'⟩ := answer
      rw [run_cons_of_some h, Option.map_eq_some_iff]
      constructor
      · rintro ⟨⟨rest, t'⟩, hrun, heq⟩
        obtain ⟨rfl, rfl⟩ := Prod.mk.inj heq
        exact ⟨output, rest, s', rfl, hrun, rfl⟩
      · rintro ⟨output', rest, s'', heq, hrun, rfl⟩
        obtain ⟨rfl, rfl⟩ := Prod.mk.inj (Option.some.inj heq)
        exact ⟨(rest, t), hrun, rfl⟩

theorem run_singleton_eq_some {s t : σ} {input : ι} {outputs : List ο} :
    run step s [input] = some (outputs, t) ↔ ∃ output, step s input = some (output, t) ∧ outputs = [output] := by
  rw [run_cons_eq_some]
  constructor
  · intro h
    obtain ⟨output, rest, s', hstep, hrest, rfl⟩ := h
    obtain ⟨rfl, rfl⟩ := Prod.mk.inj (Option.some.inj hrest)
    exact ⟨output, hstep, rfl⟩
  · intro h
    obtain ⟨output, hstep, rfl⟩ := h
    exact ⟨output, [], t, hstep, rfl, rfl⟩

theorem run_append_of_some {s s' : σ} {inputs : List ι} {before : List ο}
    (h : run step s inputs = some (before, s')) (more : List ι) :
    run step s (inputs ++ more)
      = (run step s' more).map fun (outputs, s) => (before ++ outputs, s) := by
  induction inputs generalizing s before with
  | nil =>
      obtain ⟨rfl, rfl⟩ := Prod.mk.inj (Option.some.inj h)
      simp
  | cons input inputs ih =>
      obtain ⟨output, rest, s₁, hstep, hrest, rfl⟩ := run_cons_eq_some.mp h
      rw [List.cons_append, run_cons_of_some hstep, ih hrest, Option.map_map]
      rfl

theorem run_cons_congr {s s' : σ} {input input' : ι} (h : step s input = step s' input')
    (inputs : List ι) : run step s (input :: inputs) = run step s' (input' :: inputs) := by
  simp only [run, h]

theorem run_invariant {Inv : σ → Prop}
    (hstep : ∀ s input output s', Inv s → step s input = some (output, s') → Inv s') {s t : σ}
    {inputs : List ι} {outputs : List ο} (hs : Inv s) (hrun : run step s inputs = some (outputs, t)) :
    Inv t := by
  induction inputs generalizing s outputs with
  | nil =>
      obtain ⟨-, rfl⟩ := Prod.mk.inj (Option.some.inj hrun)
      exact hs
  | cons input inputs ih =>
      obtain ⟨output, rest, s', hfirst, hrest, -⟩ := run_cons_eq_some.mp hrun
      exact ih (hstep s input output s' hs hfirst) hrest

/-- What each step says of its output where an invariant holds, a run says of all outputs. -/
theorem run_outputs {Inv : σ → Prop} {P : ο → Prop}
    (hstep : ∀ s input output s', Inv s → step s input = some (output, s') → P output ∧ Inv s') {s t : σ}
    {inputs : List ι} {outputs : List ο} (hs : Inv s) (hrun : run step s inputs = some (outputs, t)) :
    ∀ output ∈ outputs, P output := by
  induction inputs generalizing s outputs with
  | nil =>
      obtain ⟨rfl, -⟩ := Prod.mk.inj (Option.some.inj hrun)
      exact fun output houtput => absurd houtput List.not_mem_nil
  | cons input inputs ih =>
      obtain ⟨output, rest, s', hfirst, hrest, rfl⟩ := run_cons_eq_some.mp hrun
      obtain ⟨hP, hs'⟩ := hstep s input output s' hs hfirst
      exact List.forall_mem_cons.mpr ⟨hP, ih hs' hrest⟩

/-- **Refinement.** Where each step of a machine is a run of another one with the same effects, so is each
of its runs. -/
theorem run_refines {τ κ ε : Type*} {step : σ → ι → Option (List ε × σ)} {spec : τ → κ → Option (List ε × τ)}
    {abs : σ → τ} {events : ι → List κ}
    (hstep : ∀ s input effects s', step s input = some (effects, s') →
      ∃ outputs, run spec (abs s) (events input) = some (outputs, abs s') ∧ outputs.flatten = effects)
    {s t : σ} {inputs : List ι} {effects : List (List ε)} (hrun : run step s inputs = some (effects, t)) :
    ∃ outputs, run spec (abs s) (inputs.flatMap events) = some (outputs, abs t) ∧
      outputs.flatten = effects.flatten := by
  induction inputs generalizing s effects with
  | nil =>
      obtain ⟨rfl, rfl⟩ := Prod.mk.inj (Option.some.inj hrun)
      exact ⟨[], rfl, rfl⟩
  | cons input inputs ih =>
      obtain ⟨first, rest, s', hfirst, hrest, rfl⟩ := run_cons_eq_some.mp hrun
      obtain ⟨outputs, hspec, houtputs⟩ := hstep s input first s' hfirst
      obtain ⟨more, hmore, hrests⟩ := ih hrest
      refine ⟨outputs ++ more, ?_, ?_⟩
      · rw [List.flatMap_cons, run_append_of_some hspec, hmore]
        rfl
      · rw [List.flatten_append, houtputs, hrests, List.flatten_cons]

/-! ### Every step of a run -/

/-- Each step of a run has an answer, and `P` holds of it and of the states around it. -/
def Always (step : σ → ι → Option (ο × σ)) (P : σ → ο → σ → Prop) (s : σ) (inputs : List ι) : Prop :=
  ∀ front input back, inputs = front ++ input :: back → ∃ outputs before output after,
    run step s front = some (outputs, before) ∧ step before input = some (output, after) ∧ P before output after

theorem always_nil (step : σ → ι → Option (ο × σ)) (P : σ → ο → σ → Prop) (s : σ) : Always step P s [] := by
  intro front input back hsplit
  simp at hsplit

theorem always_cons {P : σ → ο → σ → Prop} {s : σ} {input : ι} {inputs : List ι} :
    Always step P s (input :: inputs) ↔
      ∃ output s', step s input = some (output, s') ∧ P s output s' ∧ Always step P s' inputs := by
  constructor
  · intro h
    obtain ⟨_, before, output, s', hnone, hstep, hP⟩ := h [] input inputs rfl
    obtain ⟨-, rfl⟩ := Prod.mk.inj (Option.some.inj hnone)
    refine ⟨output, s', hstep, hP, ?_⟩
    intro front next back hsplit
    obtain ⟨outputs, before, output', after, hrun, hnext, hP'⟩ :=
      h (input :: front) next back (by rw [hsplit, List.cons_append])
    obtain ⟨first, rest, s'', hfirst, hrest, -⟩ := run_cons_eq_some.mp hrun
    obtain ⟨-, rfl⟩ := Prod.mk.inj (Option.some.inj (hstep.symm.trans hfirst))
    exact ⟨rest, before, output', after, hrest, hnext, hP'⟩
  · intro h front next back hsplit
    obtain ⟨output, s', hstep, hP, hrest⟩ := h
    cases front with
    | nil =>
        obtain ⟨rfl, -⟩ := List.cons.inj hsplit
        exact ⟨[], s, output, s', rfl, hstep, hP⟩
    | cons first front =>
        obtain ⟨rfl, htail⟩ := List.cons.inj hsplit
        obtain ⟨outputs, before, output', after, hrun, hnext, hP'⟩ := hrest front next back htail
        exact ⟨output :: outputs, before, output', after,
          run_cons_eq_some.mpr ⟨output, outputs, s', hstep, hrun, rfl⟩, hnext, hP'⟩

theorem always_cons_of_some {P : σ → ο → σ → Prop} {s s' : σ} {input : ι} {output : ο}
    (h : step s input = some (output, s')) (inputs : List ι) :
    Always step P s (input :: inputs) ↔ P s output s' ∧ Always step P s' inputs := by
  rw [always_cons, h]
  constructor
  · intro hall
    obtain ⟨output', t, heq, hP, hlater⟩ := hall
    obtain ⟨rfl, rfl⟩ := Prod.mk.inj (Option.some.inj heq)
    exact ⟨hP, hlater⟩
  · intro hall
    exact ⟨output, s', rfl, hall⟩

theorem not_always_cons_of_none {P : σ → ο → σ → Prop} {s : σ} {input : ι} (h : step s input = none)
    (inputs : List ι) : ¬ Always step P s (input :: inputs) := by
  intro hall
  obtain ⟨output, s', hstep, -⟩ := always_cons.mp hall
  rw [h] at hstep
  cases hstep

/-! ### Steps that may fail -/

variable {α β ε : Type*}

theorem bind_eq_ok {x : Except ε α} {f : α → Except ε β} {b : β} (h : x.bind f = .ok b) :
    ∃ a, x = .ok a ∧ f a = .ok b := by
  cases x with
  | error failure => cases h
  | ok a => exact ⟨a, rfl, h⟩

theorem map_eq_ok {x : Except ε α} {f : α → β} {b : β} (h : x.map f = .ok b) : ∃ a, x = .ok a ∧ f a = b := by
  cases x with
  | error failure => cases h
  | ok a => exact ⟨a, rfl, Except.ok.inj h⟩

/-- What a step says of the inputs so far and the state behind them, a run says of all of them. -/
theorem foldlM_invariant {f : σ → ι → Except ε σ} {P : List ι → σ → Prop}
    (hstep : ∀ front input s s', P front s → f s input = .ok s' → P (front ++ [input]) s') {s t : σ}
    {inputs : List ι} (hs : P [] s) (hrun : inputs.foldlM f s = .ok t) : P inputs t := by
  suffices hlater : ∀ front s, P front s → inputs.foldlM f s = .ok t → P (front ++ inputs) t by
    exact hlater [] s hs hrun
  clear hs hrun
  induction inputs with
  | nil =>
      intro front s hs hrun
      obtain rfl := Except.ok.inj hrun
      rw [List.append_nil]
      exact hs
  | cons input inputs ih =>
      intro front s hs hrun
      rw [List.foldlM_cons] at hrun
      obtain ⟨s', hfirst, hrest⟩ := bind_eq_ok hrun
      have hlater := ih (front ++ [input]) s' (hstep front input s s' hs hfirst) hrest
      rw [List.append_assoc] at hlater
      exact hlater

/-- A computation that returns does so with what `P` says, and one that fails with what `E` says. -/
def Spec (P : α → Prop) (E : ε → Prop) : Except ε α → Prop
  | .ok a => P a
  | .error failure => E failure

theorem Spec.bind {P : α → Prop} {Q : β → Prop} {E : ε → Prop} {x : Except ε α} {f : α → Except ε β}
    (h : Spec P E x) (hf : ∀ a, P a → Spec Q E (f a)) : Spec Q E (x.bind f) := by
  cases x with
  | error failure => exact h
  | ok a => exact hf a h

theorem Spec.mono {P Q : α → Prop} {E : ε → Prop} {x : Except ε α} (h : Spec P E x) (hPQ : ∀ a, P a → Q a) :
    Spec Q E x := by
  cases x with
  | error failure => exact h
  | ok a => exact hPQ a h

theorem Spec.foldlM {f : σ → ι → Except ε σ} {P : List ι → σ → Prop} {E : ε → Prop}
    (hstep : ∀ front input s, P front s → Spec (P (front ++ [input])) E (f s input)) {s : σ} (hs : P [] s)
    (inputs : List ι) : Spec (P inputs) E (inputs.foldlM f s) := by
  suffices hlater : ∀ front s, P front s → Spec (P (front ++ inputs)) E (inputs.foldlM f s) by
    exact hlater [] s hs
  clear hs
  induction inputs with
  | nil =>
      intro front s hs
      rw [List.append_nil]
      exact hs
  | cons input inputs ih =>
      intro front s hs
      rw [List.foldlM_cons, List.append_cons]
      exact (hstep front input s hs).bind fun t ht => ih (front ++ [input]) t ht

end Run
