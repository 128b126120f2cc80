import Mathlib.Data.List.Basic

/-!
# Machines that answer every input

`run step s inputs` drives a total step function through a list of inputs and collects its outputs. A
machine that is another one seen through a function on states runs as the other one does.
-/

namespace Machine

variable {σ τ ι ο : Type*}

def run (step : σ → ι → ο × σ) : σ → List ι → List ο × σ
  | s, [] => ([], s)
  | s, input :: inputs =>
    let (output, s) := step s input
    let (outputs, s) := run step s inputs
    (output :: outputs, s)

@[simp] theorem run_nil (step : σ → ι → ο × σ) (s : σ) : run step s [] = ([], s) := rfl

theorem run_cons (step : σ → ι → ο × σ) (s : σ) (input : ι) (inputs : List ι) :
    run step s (input :: inputs)
      = ((step s input).1 :: (run step (step s input).2 inputs).1, (run step (step s input).2 inputs).2) :=
  rfl

theorem run_append (step : σ → ι → ο × σ) (s : σ) (inputs more : List ι) :
    run step s (inputs ++ more)
      = ((run step s inputs).1 ++ (run step (run step s inputs).2 more).1,
        (run step (run step s inputs).2 more).2) := by
  induction inputs generalizing s with
  | nil => rfl
  | cons input inputs ih => rw [List.cons_append, run_cons, ih, run_cons, List.cons_append]

/-- **A machine that answers as a function does.** Where an invariant of the states fixes the answer to every
input, a run answers each input by itself and keeps the invariant. -/
theorem run_of_invariant {step : σ → ι → ο × σ} {Inv : σ → Prop} {answer : ι → ο}
    (hstep : ∀ s input, Inv s → (step s input).1 = answer input ∧ Inv (step s input).2) {s : σ} (hs : Inv s)
    (inputs : List ι) : (run step s inputs).1 = inputs.map answer ∧ Inv (run step s inputs).2 := by
  induction inputs generalizing s with
  | nil => exact ⟨rfl, hs⟩
  | cons input inputs ih =>
      obtain ⟨hanswer, hkeeps⟩ := hstep s input hs
      obtain ⟨hanswers, hlast⟩ := ih hkeeps
      rw [run_cons, hanswer, hanswers]
      exact ⟨rfl, hlast⟩

/-- **Functional refinement.** A machine whose states are those of another one through `embed`, step by
step with the same outputs, runs as the other one. -/
theorem run_embed {step : σ → ι → ο × σ} {spec : τ → ι → ο × τ} {embed : τ → σ}
    (hstep : ∀ t input, step (embed t) input = ((spec t input).1, embed (spec t input).2)) (t : τ)
    (inputs : List ι) :
    run step (embed t) inputs = ((run spec t inputs).1, embed (run spec t inputs).2) := by
  induction inputs generalizing t with
  | nil => rfl
  | cons input inputs ih => rw [run_cons, hstep, ih, run_cons]

end Machine
